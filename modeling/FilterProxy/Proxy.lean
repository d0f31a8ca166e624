import FilterProxy.Stream.Work
import FilterProxy.Pool
import FilterProxy.Registry
import FilterProxy.Metrics

/-!
# FilterProxy/Proxy — many streams, one pool, one set of surroundings

A proxy creates streams, each with fresh filters from its installers, and lists them until they are
cleaned up.  A stream works by itself: the proxy lends it the collaborators' state for a **visit**
and then takes in the events of the visit, which put jobs into the pool, set timeouts, and strike
the stream off its list.
-/

namespace FilterProxy

/-- Where a stream is listed. -/
inductive Listing where
  /-- Nowhere: it was made outside a proxy. -/
  | nowhere
  /-- Among the streams of the proxy. -/
  | proxy
  /-- In a list its maker keeps beside the proxy. -/
  | aside
  deriving DecidableEq, Repr

/-- A stream and where it is listed. -/
structure Member (σ : Type) where
  stream : Stream σ
  listing : Listing

/-- A proxy with its streams and what surrounds them. -/
structure Proxy (σ ε : Type) where
  settings : Settings := {}
  installers : List (Installer σ) := []
  surroundings : Surroundings σ ε
  env : ε
  /-- Every stream ever made, in order. -/
  streams : Array (Member σ) := #[]
  active : Registry := {}
  aside : Registry := {}
  pool : Pool := {}
  /-- For every handover that was kept, the stream it answers, until it is used. -/
  handovers : Array (Option Nat) := #[]
  /-- Identity of the next stream of the proxy. -/
  nextId : UInt64 := 1
  /-- The name under which stats are counted, if they are. -/
  meter : Option String := none
  tally : Tally := []
  /-- What happened since the log was read last, latest first. -/
  log : List (Nat × Event σ) := []

namespace Proxy

variable {σ ε α : Type}

/-! ## Taking events in -/

/-- Strike a stream off the list it is on. -/
def strike (p : Proxy σ ε) (listing : Listing) (id : StreamId) : Proxy σ ε :=
  match listing with
  | .nowhere => p
  | .proxy => { p with active := p.active.erase id }
  | .aside => { p with aside := p.aside.erase id }

/-- Do what an event of stream `ref` asks of the surroundings. -/
def obey (ref : Nat) (listing : Listing) (id : StreamId) (p : Proxy σ ε) : Event σ → Proxy σ ε
  | .scheduled job => { p with pool := p.pool.schedule ref job }
  | .armed delay generation =>
    { p with pool := p.pool.scheduleAfter delay.toNat ref generation }
  | .claimed _ => p.strike listing id
  | .forwarded _ _ ⟨.kept, _⟩ => { p with handovers := p.handovers.push (some ref) }
  | .stat s =>
    match p.meter with
    | some name => { p with tally := p.tally.raise (s.counter name) }
    | none => p
  | _ => p

/-- Take in the events of stream `ref`, oldest first. -/
def absorb (ref : Nat) (listing : Listing) (id : StreamId) (p : Proxy σ ε)
    (events : List (Event σ)) : Proxy σ ε :=
  events.foldl (fun p e => { p.obey ref listing id e with log := (ref, e) :: p.log }) p

/-- **Visit** a stream: let `f` work on it, then take in the events. -/
def visit (p : Proxy σ ε) (ref : Nat) (f : Turn σ ε → α × Turn σ ε) : Option (α × Proxy σ ε) :=
  p.streams[ref]?.map fun m =>
    let r := f ⟨m.stream, p.env⟩
    let s := r.2.stream
    let events := s.board.log.reverse
    let quiet := { s with board := { s.board with log := [] } }
    let p := { p with
      streams := p.streams.setIfInBounds ref { m with stream := quiet }, env := r.2.env }
    (r.1, p.absorb ref m.listing s.board.context.id events)

/-- Visit a stream for the sake of the change alone. -/
def change (p : Proxy σ ε) (ref : Nat) (f : Stream σ → Stream σ) : Proxy σ ε :=
  match p.visit ref fun t => ((), { t with stream := f t.stream }) with
  | some r => r.2
  | none => p

/-- Read the log and empty it. -/
def takeLog (p : Proxy σ ε) : List (Nat × Event σ) × Proxy σ ε :=
  (p.log.reverse, { p with log := [] })

/-! ## Making streams -/

/-- Add a stream and enter it where it is to be listed. -/
def enrol (p : Proxy σ ε) (s : Stream σ) (listing : Listing) : Nat × Proxy σ ε :=
  let ref := p.streams.size
  let p := { p with streams := p.streams.push ⟨s, listing⟩ }.change ref id
  (ref, match listing with
    | .nowhere => p
    | .proxy => { p with active := p.active.insert s.board.context.id ref }
    | .aside => { p with aside := p.aside.insert s.board.context.id ref })

/-- Start a transaction of the proxy.  **Its filters get their handles before it is listed.** -/
def newStream (p : Proxy σ ε) : Nat × Proxy σ ε :=
  let s := (Stream.create ⟨p.nextId⟩ p.settings).install p.surroundings.behaviour p.installers
  { p with nextId := p.nextId + 1 }.enrol s .proxy

/-- Make a stream outside the proxy, without the filters of its installers. -/
def newOutside (p : Proxy σ ε) (id : StreamId) (settings : Settings) (listed : Bool) :
    Nat × Proxy σ ε :=
  p.enrol (Stream.create id settings) (if listed then .aside else .nowhere)

/-! ## What the embedder does to a stream -/

/-- Add a filter. -/
def addFilter (p : Proxy σ ε) (ref : Nat) (r : Registration σ) : Proxy σ ε :=
  p.change ref (·.addFilter p.surroundings.behaviour r)

/-- Put a job of a stream out. -/
def schedule (p : Proxy σ ε) (ref : Nat) (job : Job) : Proxy σ ε :=
  p.change ref fun s => { s with board := s.board.schedule job }

/-- Hand the request over. -/
def receive (p : Proxy σ ε) (ref : Nat) (request : Message) : Proxy σ ε :=
  p.schedule ref (.receive request)

/-- Resume the stream, whoever paused it. -/
def resume (p : Proxy σ ε) (ref : Nat) : Proxy σ ε := p.schedule ref (.resume none)

/-- End a stream; true if nothing else had ended it. -/
def terminate (p : Proxy σ ε) (ref : Nat) (ending : Ending) : Bool × Proxy σ ε :=
  (p.visit ref (·.alone (·.terminate ending))).getD (false, p)

/-- End the active stream of an identity. -/
def reset (p : Proxy σ ε) (id : StreamId) (ending : Ending) : Bool × Proxy σ ε :=
  match p.active.find? id with
  | some ref => p.terminate ref ending
  | none => (false, p)

/-- End every active stream and count those that nothing else had ended. -/
def shutdown (p : Proxy σ ε) : Nat × Proxy σ ε :=
  p.active.streams.foldl
    (fun r ref =>
      let t := r.2.terminate ref .shutdown
      (if t.1 then r.1 + 1 else r.1, t.2))
    (0, p)

/-- Run a program through the handle of a filter of a stream. -/
def through (p : Proxy σ ε) (ref : Nat) {side : Side} (filter : σ) (index : Nat)
    (program : Program side α) : Option (α × Proxy σ ε) :=
  p.visit ref (·.alone fun s =>
    let r := program.run filter index s.board
    (r.1, { s with board := r.2 }))

/-- Run the response filters of a stream over a message, outside its phases. -/
def runResponseFilters (p : Proxy σ ε) (ref : Nat) (message : Message) (convert : Converter) :
    Option (Except Panic Outcome × Proxy σ ε) :=
  p.visit ref
    (·.alone (·.runResponseFilters p.surroundings.behaviour .beforeSend message convert))

/-- Use the kept handover number `n`: answer, or throw it away; false if there is none. -/
def useHandover (p : Proxy σ ε) (n : Nat) (h : Handover) : Bool × Proxy σ ε :=
  match p.handovers[n]? with
  | some (some ref) =>
    (true, { p with handovers := p.handovers.setIfInBounds n none }.change ref (Turn.answer · h))
  | _ => (false, p)

/-- Put another routing table in force. -/
def updateRoutes (p : Proxy σ ε) (table : RouteTable) : Proxy σ ε :=
  { p with surroundings := { p.surroundings with
    routing := p.surroundings.routing.update table } }

/-! ## Running jobs -/

/-- Run a job of a stream; a panic that escapes is noted and goes no further. -/
def runJob (p : Proxy σ ε) (ref : Nat) (job : Job) : Proxy σ ε :=
  let work (t : Turn σ ε) : Unit × Turn σ ε :=
    let r := t.exec p.surroundings job
    ((), match r.1 with
      | some panic => { r.2 with stream := r.2.stream.note (.escaped panic) }
      | none => r.2)
  ((p.visit ref work).map (·.2)).getD p

/-- Run the first job of the queue. -/
def runNext? (p : Proxy σ ε) : Option (Proxy σ ε) :=
  p.pool.next?.map fun r => { p with pool := r.2 }.runJob r.1.1 r.1.2

/-- Let time pass; the result counts the timeouts that became due. -/
def elapse (p : Proxy σ ε) (ms : Nat) : Nat × Proxy σ ε :=
  let r := p.pool.advance ms
  (r.1, { p with pool := r.2 })

end Proxy

end FilterProxy
