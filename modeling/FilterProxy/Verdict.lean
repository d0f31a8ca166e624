import FilterProxy.Phase
import FilterProxy.Ending

/-!
# FilterProxy/Verdict — what a filter answers, and what a pass over filters comes to

A filter answers each call with a `Verdict`.  A `Converter` may replace it before the pass acts on
it.  The pass itself ends in an `Outcome`.
-/

namespace FilterProxy

/-- The answer of one filter. -/
inductive Verdict where
  /-- On to the next filter. -/
  | proceed
  /-- Halt, and wait for somebody to resume the stream. -/
  | stop
  /-- Halt, and match a route again. -/
  | rematch
  /-- Halt, and choose a host again. -/
  | rechoose
  /-- Give up the whole transaction. -/
  | terminate
  deriving DecidableEq, Repr, Inhabited

namespace Verdict

/-- Every verdict. -/
def all : List Verdict := [proceed, stop, rematch, rechoose, terminate]

/-- The label of a verdict. -/
def label : Verdict → String
  | proceed => "continue"
  | stop => "stop"
  | rematch => "re_match_route"
  | rechoose => "re_choose_host"
  | terminate => "terminate"

/-- The verdict with a given label. -/
def ofLabel? (text : String) : Option Verdict := all.find? (·.label = text)

/-- The phase a verdict asks to go back to. -/
def target? : Verdict → Option Phase
  | rematch => some .matchRoute
  | rechoose => some .chooseHost
  | _ => none

/-- The policy that walks on past a wish to go back. -/
def walkOn : Verdict → Verdict
  | rematch | rechoose => proceed
  | v => v

end Verdict

/-- A policy that replaces verdicts; it may break off. -/
abbrev Converter := Verdict → Except Panic Verdict

namespace Converter

/-- The policy that changes nothing. -/
def keep : Converter := .ok

/-- A policy that always answers. -/
def total (f : Verdict → Verdict) : Converter := fun v => .ok (f v)

end Converter

/-- Why a pass was given up, and at which position of the chain. -/
inductive Abort where
  /-- The filter answered `terminate`. -/
  | verdict (index : Nat)
  /-- The filter broke off. -/
  | panic (index : Nat) (text : String)
  deriving DecidableEq, Repr

namespace Abort

/-- Position of the filter that ended the pass. -/
def index : Abort → Nat
  | verdict i | panic i _ => i

/-- How the stream ends. -/
def ending : Abort → Ending
  | verdict _ => .filterTerminated
  | panic _ _ => .filterPanic

end Abort

/-- How a pass over the filters of one point ended. -/
inductive Outcome where
  /-- Every filter of the point let the message through. -/
  | completed
  /-- The filter at `index` stopped the pass. -/
  | stopped (index : Nat)
  /-- A filter asked to go back to `phase`. -/
  | resumeAt (phase : Phase)
  | aborted (cause : Abort)
  deriving DecidableEq, Repr

/-- Anything but completion halts the stream's way through its phases. -/
def Outcome.isHalted : Outcome → Bool
  | completed => false
  | _ => true

end FilterProxy
