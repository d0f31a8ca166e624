import FilterProxy.FilterSet

/-!
# FilterProxy/Stream — one request and its response

A stream owns a board, its filters and the two messages, and stands at a phase.  It may be
**paused** by the filter at one position; every pause has a number of its own, so a time limit set
for one pause cannot end another.

Cleanup has two halves: the board is *claimed*, which only the first caller does, and the claimer
then *releases* the stream, which says goodbye to the filters and publishes the ending.
-/

namespace FilterProxy

/-- What a stream is set to do. -/
structure Settings where
  /-- The name of the proxy. -/
  proxy : String := "proxy"
  /-- How many milliseconds a pause may last; `none` is for ever. -/
  stopTimeout : Option UInt64 := some 30000
  /-- How often a stream may jump on a filter's wish. -/
  maxJumps : UInt32 := 8
  /-- The policy for the verdicts of request filters. -/
  converter : Option Converter := none

namespace Settings

/-- The policy in force. -/
def convert (s : Settings) : Converter := s.converter.getD .keep

end Settings

/-- One transaction. -/
structure Stream (σ : Type) where
  settings : Settings
  board : Board σ
  filters : FilterSet σ := {}
  phase : Phase := .init
  request : Message := {}
  response : Message := {}
  /-- The host chosen last. -/
  host : Option Host := none
  /-- How many more jumps are allowed.  A counter of 32 bits that counts the jumps made agrees with
  it as long as fewer than 2 ^ 32 - 1 were (`exceeds_iff`). -/
  jumpsLeft : Nat
  /-- Position of the filter whose `stop` paused the stream. -/
  pausedBy : Option Nat := none
  /-- How many pauses there were.  A counter of 64 bits tells them apart as well, as long as there
  were fewer than 2 ^ 64 (`Life.Watched.wide_iff`). -/
  generation : Nat := 0

/-- What a phase comes to. -/
inductive Step where
  /-- On to the next phase. -/
  | next
  /-- On to another phase. -/
  | goto (phase : Phase)
  /-- To the phase a filter asked for, against the allowance of jumps. -/
  | jump (phase : Phase)
  /-- Nothing to do until a job comes. -/
  | rest
  | finish (ending : Ending)
  /-- A collaborator or the converter broke off. -/
  | escape (panic : Panic)
  deriving DecidableEq

namespace Stream

variable {σ : Type}

/-- A fresh stream. -/
def create (id : StreamId) (settings : Settings) : Stream σ where
  settings := settings
  board := { context := ⟨id, settings.proxy⟩, owned := true, log := [.stat .created] }
  jumpsLeft := settings.maxJumps.toNat

/-- Cleanup was claimed. -/
def claimed (s : Stream σ) : Bool := s.board.claimed

/-- Add an event to the log. -/
def note (s : Stream σ) (e : Event σ) : Stream σ := { s with board := s.board.note e }

variable (β : Behaviour σ)

/-! ## Filters -/

/-- Add one filter, which is told so at once. -/
def addFilter (s : Stream σ) (r : Registration σ) : Stream σ :=
  let x := s.filters.add β s.board r
  { s with filters := x.1, board := x.2 }

/-- Let every installer add its filters. -/
def install (s : Stream σ) (installers : List (Installer σ)) : Stream σ :=
  installers.flatten.foldl (addFilter β) s

/-! ## Cleanup -/

/-- Let go of everything and say goodbye to the filters.  A panic of theirs keeps the ending
unpublished. -/
def release (ending : Ending) (s : Stream σ) : Option Panic × Stream σ :=
  let s := { s with
    request := {}, response := {}, host := none, pausedBy := none, phase := .done }
  let r := s.filters.destroy β s.board
  let s := { s with filters := r.2.1, board := r.2.2 }
  match r.1 with
  | some p => (some p, s)
  | none => (none, { s with board := s.board.publish (.finished ending) })

/-- Claim cleanup and, as the first to do so, release at once. -/
def finish (ending : Ending) (s : Stream σ) : Option Panic × Stream σ :=
  let r := s.board.claim ending
  if r.1 then { s with board := r.2 }.release β ending else (none, s)

/-- Claim cleanup and, as the first to do so, leave the release to a job. -/
def terminate (ending : Ending) (s : Stream σ) : Bool × Stream σ :=
  let r := s.board.terminate ending
  (r.1, { s with board := r.2 })

/-! ## Pauses and short cuts -/

/-- Rest at the filter at position `index`, under the time limit if there is one. -/
def pause (index : Nat) (s : Stream σ) : Step × Stream σ :=
  if s.claimed then (.rest, s)
  else
    let s := { s with
      pausedBy := some index
      generation := s.generation + 1
      board := s.board.publish (.paused s.phase) }
    match s.settings.stopTimeout with
    | none => (.rest, s)
    | some delay => (.rest, s.note (.armed delay s.generation))

/-- Make the waiting direct reply the response; past the request filters without one. -/
def shortcut (s : Stream σ) : Step × Stream σ :=
  let r := s.board.takeReply
  match r.1 with
  | some reply => (.goto .filterResponse, { s with board := r.2, response := reply })
  | none => (.next, { s with board := r.2 })

/-- Record a filter panic. -/
def noteAbort (cause : Abort) (s : Stream σ) : Stream σ :=
  match cause with
  | .panic _ _ => s.note (.stat .filterPanicked)
  | .verdict _ => s

/-! ## Filter phases -/

/-- Run the request filters of `point` from `start` on.  **A waiting direct reply beats both
completion and a stop.** -/
def filterRequest (point : RequestPoint) (start : Nat) (s : Stream σ) : Step × Stream σ :=
  let r := s.filters.passRequests β point start s.settings.convert ⟨s.board, s.request.parts⟩
  let s := { s with
    filters := r.filters, board := r.bench.board, request := r.bench.parts.message }
  match r.result with
  | .error p => (.escape p, s)
  | .ok .completed => if s.board.reply.isSome then s.shortcut else (.next, s)
  | .ok (.resumeAt target) =>
    let again := s.filters.takeAgain
    (.jump (again.1.getD target), { s with filters := again.2 })
  | .ok (.stopped index) => if s.board.reply.isSome then s.shortcut else s.pause index
  | .ok (.aborted cause) => (.finish cause.ending, s.noteAbort cause)

/-- One pass over the response filters from `start` on, whatever phase the stream stands at. -/
def passResponse (point : ResponsePoint) (start : Nat) (convert : Converter) (s : Stream σ) :
    Except Panic Outcome × Stream σ :=
  let r := s.filters.passResponses β point start convert ⟨s.board, s.response.parts⟩
  (r.result, { s with
    filters := r.filters, board := r.bench.board, response := r.bench.parts.message })

/-- Run the response filters from `start` on; the response is past direct replies now. -/
def filterResponse (start : Nat) (s : Stream σ) : Step × Stream σ :=
  let s := { s with board := s.board.closeReply.2 }
  let r := s.passResponse β .beforeSend start .keep
  match r.1 with
  | .error p => (.escape p, r.2)
  | .ok .completed | .ok (.resumeAt _) => (.next, r.2)
  | .ok (.stopped index) => r.2.pause index
  | .ok (.aborted cause) => (.finish cause.ending, r.2.noteAbort cause)

/-- Run the response filters over a given message, outside the phases.  An abort ends the stream. -/
def runResponseFilters (point : ResponsePoint) (message : Message) (convert : Converter)
    (s : Stream σ) : Except Panic Outcome × Stream σ :=
  let r := { s with response := message }.passResponse β point 0 convert
  match r.1 with
  | .ok (.aborted cause) =>
    let f := (r.2.noteAbort cause).finish β cause.ending
    match f.1 with
    | some p => (.error p, f.2)
    | none => (r.1, f.2)
  | _ => r

end Stream

end FilterProxy
