import FilterProxy.Callback

/-!
# FilterProxy/Event — what streams do that others can see

A stream acts on its surroundings only by events: it hands jobs to the pool, publishes its status,
feeds the statistics, and calls filters and collaborators.  Its log of events is its whole effect.
-/

namespace FilterProxy

/-- The progress of a stream, as published. -/
inductive Status where
  /-- At work, or waiting for a collaborator. -/
  | running
  /-- A filter stopped it at `phase`. -/
  | paused (phase : Phase)
  | finished (ending : Ending)
  deriving DecidableEq, Repr

namespace Status

/-- The text of a status. -/
def text : Status → String
  | running => "running"
  | paused phase => s!"paused:{phase.label}"
  | finished ending => s!"finished:{ending.label}"

end Status

/-- Something worth counting. -/
inductive Stat where
  | created
  | phaseCompleted (phase : Phase)
  | terminated (ending : Ending)
  | cleaned
  | filterPanicked
  deriving DecidableEq, Repr

/-- A unit of work of one stream, to be run by the pool. -/
inductive Job where
  /-- Take the request in and start. -/
  | receive (request : Message)
  /-- Resume a pause: any, or only one the filter at a position of a side brought about. -/
  | resume (caller : Option (Side × Nat))
  /-- Let go of everything after cleanup was claimed. -/
  | release (ending : Ending)
  /-- Take the host's response in. -/
  | response (response : Message)
  /-- The time limit of a pause has passed. -/
  | timeout (generation : Nat)
  deriving DecidableEq

/-- What became of the one chance to answer a forwarded request. -/
inductive Handover where
  /-- It was kept, to answer later. -/
  | kept
  /-- It was thrown away: no answer will come. -/
  | dropped
  | responded (response : Message)
  | failed (failure : Failure)
  deriving DecidableEq

/-- What a transport does with a forwarded request; it may break off after that. -/
structure Forwarding where
  handover : Handover
  panic : Option Panic := none
  deriving DecidableEq

/-- One event of a stream with filters of type `σ`. -/
inductive Event (σ : Type) where
  | stat (stat : Stat)
  | published (status : Status)
  | scheduled (job : Job)
  /-- The timeout of pause `generation` is to run after `delay` milliseconds. -/
  | armed (delay : UInt64) (generation : Nat)
  /-- A phase is executed. -/
  | entered (phase : Phase)
  /-- The stream goes back, or ahead, to `phase` on a filter's wish. -/
  | jumped (phase : Phase)
  /-- A pass over the request filters of a point ended. -/
  | passed (point : RequestPoint) (result : Except Panic Outcome)
  /-- A filter is given the handle of a place, and told so. -/
  | added (side : Side) (index : Nat) (filter : σ)
  /-- A filter is called; `current` is the point its handle reads. -/
  | called (side : Side) (index : Nat) (filter : σ) (current : Option RequestPoint) (parts : Parts)
  /-- A filter looked through its handle. -/
  | looked (side : Side) (index : Nat) (filter : σ) (view : View)
  /-- A filter is told that the stream is gone. -/
  | destroyed (side : Side) (index : Nat) (filter : σ)
  /-- A direct reply was raised. -/
  | replied (code : UInt16) (headers : Headers) (accepted : Bool)
  /-- Cleanup was claimed: the stream leaves the registry. -/
  | claimed (ending : Ending)
  | routed (headers : Headers) (answer : Except Panic (Option Route))
  | chosen (route : Route) (headers : Headers) (answer : Except Panic (Except Failure Host))
  | forwarded (host : Host) (request : Message) (forwarding : Forwarding)
  | written (response : Message) (answer : Except Panic (Except Failure Unit))
  /-- A job broke off. -/
  | escaped (panic : Panic)

end FilterProxy
