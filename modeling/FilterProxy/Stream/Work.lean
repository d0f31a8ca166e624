import FilterProxy.Stream.Drive

/-!
# FilterProxy/Stream/Work — the jobs of a stream

Every job first looks whether it still concerns the stream as it stands.  A request counts only at
`init`, a resumption only in the pause it is meant for, a response only while one is awaited, and a
time limit only in the pause it was set for.
-/

namespace FilterProxy

namespace Stream

variable {σ : Type}

/-- The pause, if any, is one that a filter of `side` brings about. -/
def pausesAt (phase : Phase) : Side → Bool
  | .request => phase < .filterResponse
  | .response => phase = .filterResponse

/-- `caller` may resume the stream: nobody in particular always may, a filter only its own pause. -/
def heeds (s : Stream σ) : Option (Side × Nat) → Bool
  | none => true
  | some (side, index) => pausesAt s.phase side && s.pausedBy == some index

end Stream

namespace Turn

variable {σ ε : Type} (c : Surroundings σ ε)

/-- Take the request in and start. -/
def receive (request : Message) (t : Turn σ ε) : Option Panic × Turn σ ε :=
  if t.stream.claimed ∨ t.stream.phase ≠ .init then (none, t)
  else { t with stream := { t.stream with request := request } }.drive c 0

/-- End the pause.  **A waiting direct reply leads to the response filters**; otherwise the pass
goes on behind the filter that stopped it. -/
def resume (caller : Option (Side × Nat)) (t : Turn σ ε) : Option Panic × Turn σ ε :=
  match t.stream.pausedBy with
  | none => (none, t)
  | some index =>
    if t.stream.claimed ∨ ¬ t.stream.heeds caller then (none, t)
    else
      let s := { t.stream with pausedBy := none, board := t.stream.board.publish .running }
      if s.phase < .filterResponse ∧ s.board.reply.isSome then
        { t with stream := { s.shortcut.2 with phase := .filterResponse } }.drive c 0
      else { t with stream := s }.drive c (index + 1)

/-- The time limit of pause `generation` has passed. -/
def timeout (generation : Nat) (t : Turn σ ε) : Option Panic × Turn σ ε :=
  if t.stream.pausedBy.isNone ∨ t.stream.generation ≠ generation then (none, t)
  else t.alone (·.finish c.behaviour .stopTimeout)

/-- Take the host's response in; a direct reply raised while waiting takes its place. -/
def respondWith (response : Message) (t : Turn σ ε) : Option Panic × Turn σ ε :=
  if t.stream.claimed ∨ t.stream.phase ≠ .awaitResponse then (none, t)
  else
    let r := t.stream.board.closeReply
    let s := { t.stream with board := r.2, response := r.1.getD response }
    { t with stream := s.note (.stat (.phaseCompleted .awaitResponse)) }.goto .filterResponse
      |>.drive c 0

/-- **Run a job.**  The panic, if any, is one that escaped from it. -/
def exec (job : Job) (t : Turn σ ε) : Option Panic × Turn σ ε :=
  match job with
  | .receive request => t.receive c request
  | .resume caller => t.resume c caller
  | .release ending => t.alone (·.release c.behaviour ending)
  | .response m => t.respondWith c m
  | .timeout generation => t.timeout c generation

end Turn

end FilterProxy
