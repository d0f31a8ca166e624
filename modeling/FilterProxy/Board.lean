import FilterProxy.Event

/-!
# FilterProxy/Board — the part of a stream that handles reach

A stream's **board** holds what its filters' handles, its timers and its collaborators may touch
at any moment: the cleanup claim, the route, the direct reply, the replaced response parts, the
published status.  Whatever has to advance the stream becomes a job instead.

A board may lack an owning stream; then no job is ever put out.
-/

namespace FilterProxy

/-- Parts of the response replaced through handles, each waiting to be put in once. -/
structure Replaced where
  headers : Option Headers := none
  data : Option Body := none
  trailers : Option Headers := none
  deriving DecidableEq

/-- The parts with every waiting replacement put in. -/
def Replaced.over (r : Replaced) (p : Parts) : Parts :=
  ⟨r.headers.getD p.headers, r.data.getD p.data, r.trailers.getD p.trailers⟩

/-- What handles reach. -/
structure Board (σ : Type) where
  context : Context
  /-- A stream owns this board. -/
  owned : Bool
  /-- The point whose request filters are being run. -/
  point : Option RequestPoint := none
  /-- Somebody claimed cleanup. -/
  claimed : Bool := false
  route : Option Route := none
  info : Info := {}
  replaced : Replaced := {}
  /-- A direct reply that was accepted and not used yet. -/
  reply : Option Message := none
  /-- The response filters were reached: no more direct replies. -/
  closed : Bool := false
  status : Status := .running
  /-- Every event so far, latest first. -/
  log : List (Event σ) := []

/-- The text form of a status code. -/
def codeText (code : UInt16) : String := toString code.toNat

/-- A reply is a message of headers only, the status code among them. -/
def replyMessage (code : UInt16) (headers : Headers) : Message :=
  { headers := some (headers.set statusHeader (codeText code)) }

namespace Board

variable {σ : Type}

/-- The board of no stream, on which filters can be run alone. -/
def detached (id : StreamId) : Board σ := { context := ⟨id, "detached"⟩, owned := false }

/-- Add an event to the log. -/
def note (b : Board σ) (e : Event σ) : Board σ := { b with log := e :: b.log }

/-- Publish a status. -/
def publish (b : Board σ) (s : Status) : Board σ :=
  { b with status := s }.note (.published s)

/-- Put a job out, if a stream is there to run it. -/
def schedule (b : Board σ) (job : Job) : Board σ :=
  if b.owned then b.note (.scheduled job) else b

/-- What a handle reads. -/
def view (b : Board σ) : View := ⟨b.point, b.route, b.info⟩

/-! ## The direct reply -/

/-- Raise a direct reply; a later one takes the place of an earlier.  Refused once closed. -/
def raise (b : Board σ) (code : UInt16) (headers : Headers) : Bool × Board σ :=
  if b.closed then (false, b.note (.replied code headers false))
  else
    (true, { b with
      reply := some (replyMessage code headers)
      info := { b.info with code := some code } }.note (.replied code headers true))

/-- Take the direct reply away. -/
def takeReply (b : Board σ) : Option Message × Board σ := (b.reply, { b with reply := none })

/-- Refuse direct replies from now on; one still waiting is handed back. -/
def closeReply (b : Board σ) : Option Message × Board σ :=
  (b.reply, { b with reply := none, closed := true })

/-! ## Replaced response parts -/

/-- Put the waiting replacements into the parts; each is used once. -/
def putReplaced (b : Board σ) (p : Parts) : Parts × Board σ :=
  (b.replaced.over p, { b with replaced := {} })

/-! ## Cleanup -/

/-- Drop what filters may have left here. -/
def clear (b : Board σ) : Board σ :=
  { b with replaced := {}, reply := none, route := none, point := none }

/-- Set the claim; true for the first caller only. -/
def mark (b : Board σ) : Bool × Board σ := (!b.claimed, { b with claimed := true })

/-- Claim cleanup for a stream.  **Only the first claim counts**: it is recorded and clears the
board. -/
def claim (b : Board σ) (ending : Ending) : Bool × Board σ :=
  if b.claimed then (false, b)
  else
    let b := { b with claimed := true }.note (.claimed ending)
    let b := if ending.isAbort then b.note (.stat (.terminated ending)) else b
    (true, (b.note (.stat .cleaned)).clear)

/-- Claim cleanup and put out the job that lets go of the rest. -/
def terminate (b : Board σ) (ending : Ending) : Bool × Board σ :=
  let r := b.claim ending
  if r.1 then (true, r.2.schedule (.release ending)) else r

/-- Claim a board without a stream: there is nothing to record, only to clear. -/
def abandon (b : Board σ) : Board σ := if b.claimed then b else b.mark.2.clear

/-! ## Handles -/

/-- Do `action` through the handle of the filter at position `index` of `side`. -/
def perform {side : Side} (index : Nat) (action : Action side) (b : Board σ) : Board σ :=
  match side, action with
  | _, .reply code headers =>
    let r := b.raise code headers
    if r.1 then r.2.schedule (.resume none) else r.2
  | _, .replaceHeaders h => { b with replaced := { b.replaced with headers := some h } }
  | _, .replaceData d => { b with replaced := { b.replaced with data := some d } }
  | _, .replaceTrailers t => { b with replaced := { b.replaced with trailers := some t } }
  | side, .resume => b.schedule (.resume (some (side, index)))
  | _, .terminate => if b.owned then (b.terminate .filterTerminated).2 else b.abandon

end Board

/-- Run a program through the handle of `filter`, which sits at `index`. -/
def Program.run {σ α : Type} {side : Side} (filter : σ) (index : Nat) :
    Program side α → Board σ → α × Board σ
  | .done a, b => (a, b)
  | .act x rest, b => rest.run filter index (b.perform index x)
  | .look rest, b => (rest b.view).run filter index (b.note (.looked side index filter b.view))

end FilterProxy
