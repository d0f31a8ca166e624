/-!
# FilterProxy/Ending — why streams end, and the failures that end them

Every `Failure` of a collaborator or a filter leads to one `Ending`; none of them to `completed`.
-/

namespace FilterProxy

/-- Why a stream was cleaned up. -/
inductive Ending where
  /-- The response was written. -/
  | completed
  /-- A filter asked for it, by its verdict or through its handle. -/
  | filterTerminated
  | filterPanic
  | noRoute
  | noHealthyHost
  | hostFailure
  | writeFailure
  /-- A pause outlived its time limit. -/
  | stopTimeout
  /-- Filters jumped back too often. -/
  | tooManyJumps
  /-- The client's connection reset the stream. -/
  | reset
  | shutdown
  deriving DecidableEq, Repr, Inhabited

namespace Ending

/-- Every ending. -/
def all : List Ending :=
  [completed, filterTerminated, filterPanic, noRoute, noHealthyHost, hostFailure, writeFailure,
    stopTimeout, tooManyJumps, reset, shutdown]

/-- The label in statistics and status texts. -/
def label : Ending → String
  | completed => "completed"
  | filterTerminated => "filter_terminated"
  | filterPanic => "filter_panic"
  | noRoute => "no_route"
  | noHealthyHost => "no_healthy_host"
  | hostFailure => "upstream_failure"
  | writeFailure => "downstream_write_failure"
  | stopTimeout => "stop_timeout"
  | tooManyJumps => "too_many_reentries"
  | reset => "downstream_reset"
  | shutdown => "proxy_shutdown"

/-- The ending with a given label. -/
def ofLabel? (text : String) : Option Ending := all.find? (·.label = text)

/-- Every ending but normal completion is an abort. -/
def isAbort (e : Ending) : Bool := e != completed

end Ending

/-- What can go wrong in a collaborator, a filter or a filter's configuration. -/
inductive Failure where
  | noRoute
  | noHealthyHost (cluster : String)
  | host (text : String)
  | write (text : String)
  | filterPanic (index : Nat) (text : String)
  | unknownFilter (name : String)
  | filterConfig (name : String) (text : String)
  deriving DecidableEq, Repr, Inhabited

namespace Failure

/-- The text of a failure. -/
def message : Failure → String
  | noRoute => "no route matched the request"
  | noHealthyHost cluster => s!"no healthy host in cluster {cluster}"
  | host text => s!"upstream failure: {text}"
  | write text => s!"downstream write failed: {text}"
  | filterPanic index text => s!"filter #{index} panicked: {text}"
  | unknownFilter name => s!"unknown stream filter: {name}"
  | filterConfig name text => s!"invalid config for filter {name}: {text}"

/-- How a stream ends that this failure ends. -/
def ending : Failure → Ending
  | noRoute => .noRoute
  | noHealthyHost _ => .noHealthyHost
  | host _ => .hostFailure
  | write _ => .writeFailure
  | filterPanic _ _ => .filterPanic
  | unknownFilter _ | filterConfig _ _ => .filterTerminated

/-- **No failure is a completion.** -/
theorem ending_ne_completed (f : Failure) : f.ending ≠ .completed := by cases f <;> nofun

end Failure

/-- A callback or collaborator that broke off instead of returning. -/
structure Panic where
  /-- The text it left, if it left any. -/
  text : Option String
  deriving DecidableEq, Repr, Inhabited

/-- What is told of a panic. -/
def Panic.message (p : Panic) : String := p.text.getD "unknown panic"

end FilterProxy
