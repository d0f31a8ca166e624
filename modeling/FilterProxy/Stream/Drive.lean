import FilterProxy.Stream

/-!
# FilterProxy/Stream/Drive — a stream is driven until it rests

A stream shares its surroundings with others: a routing table, clusters, a transport and a writer,
whose state `ε` changes as they are called.  A **turn** is one stream together with that state.

`drive` executes one phase after another.  Phases only rise except for jumps, and jumps are counted
down, so the work ahead of a stream is bounded by `Stream.work` and the drive ends.
-/

namespace FilterProxy

/-- Everything streams work with.  A collaborator takes its state and gives it back. -/
structure Surroundings (σ ε : Type) where
  behaviour : Behaviour σ
  routing : Routing := {}
  /-- The routing a look-up finds: by then others may have put another table in force. -/
  reload : ε → Routing → Routing × ε := fun env routing => (routing, env)
  /-- Pick a host for a route. -/
  choose : ε → Route → Headers → Except Panic (Except Failure Host) × ε
  /-- Hand a request to a host; the answer comes by the handover or later. -/
  forward : ε → StreamId → Host → Message → Forwarding × ε
  /-- Write the final response to the client. -/
  write : ε → StreamId → Message → Except Panic (Except Failure Unit) × ε

/-- A stream at work. -/
structure Turn (σ ε : Type) where
  stream : Stream σ
  env : ε

/-- An upper bound for the phases a stream can execute before it rests. -/
def Stream.work {σ : Type} (s : Stream σ) : Nat := 11 * s.jumpsLeft + (10 - s.phase.number)

namespace Turn

variable {σ ε : Type} (c : Surroundings σ ε)

/-- Match a route for the request as the filters left it, by the table then in force. -/
def matchRoute (t : Turn σ ε) : Step × Turn σ ε :=
  let headers := t.stream.request.headers.getD {}
  let r := c.reload t.env c.routing
  let answer := r.1.find headers
  let s := t.stream.note (.routed headers answer)
  match answer with
  | .error p => (.escape p, ⟨s, r.2⟩)
  | .ok none => (.finish .noRoute, ⟨s, r.2⟩)
  | .ok (some route) =>
    (.next, ⟨{ s with board := { s.board with
      info := { s.board.info with route := some route.name }
      route := some route } }, r.2⟩)

/-- Choose a host of the matched route's cluster. -/
def chooseHost (t : Turn σ ε) : Step × Turn σ ε :=
  match t.stream.board.route with
  | none => (.finish .noRoute, t)
  | some route =>
    let headers := t.stream.request.headers.getD {}
    let r := c.choose t.env route headers
    let s := t.stream.note (.chosen route headers r.1)
    match r.1 with
    | .error p => (.escape p, ⟨s, r.2⟩)
    | .ok (.error failure) => (.finish failure.ending, ⟨s, r.2⟩)
    | .ok (.ok host) =>
      (.next, ⟨{ s with
        board := { s.board with info := { s.board.info with host := some host.address } }
        host := some host }, r.2⟩)

/-- What answering a forwarded request does: a response becomes a job, a failure ends the stream. -/
def answer (s : Stream σ) : Handover → Stream σ
  | .kept | .dropped => s
  | .responded m => { s with board := s.board.schedule (.response m) }
  | .failed _ => (s.terminate .hostFailure).2

/-- Hand the request to the chosen host. -/
def forward (t : Turn σ ε) : Step × Turn σ ε :=
  match t.stream.host with
  | none => (.finish .noHealthyHost, t)
  | some host =>
    let r := c.forward t.env t.stream.board.context.id host t.stream.request
    let s := t.stream.note (.forwarded host t.stream.request r.1)
    let t : Turn σ ε := ⟨answer s r.1.handover, r.2⟩
    match r.1.panic with
    | some p => (.escape p, t)
    | none => (.next, t)

/-- Write the response, with the replacements still waiting put in. -/
def respond (t : Turn σ ε) : Step × Turn σ ε :=
  let put := t.stream.board.putReplaced t.stream.response.parts
  let response := put.1.message
  let board := match response.code? with
    | some code => { put.2 with info := { put.2.info with code := some code } }
    | none => put.2
  let r := c.write t.env board.context.id response
  let s := { t.stream with board := board, response := {} }.note (.written response r.1)
  match r.1 with
  | .error p => (.escape p, ⟨s, r.2⟩)
  | .ok (.error failure) => (.finish failure.ending, ⟨s, r.2⟩)
  | .ok (.ok ()) => (.finish .completed, ⟨s.note (.stat (.phaseCompleted .respond)), r.2⟩)

/-- Do something that concerns the stream alone. -/
def alone {α : Type} (t : Turn σ ε) (f : Stream σ → α × Stream σ) : α × Turn σ ε :=
  let r := f t.stream
  (r.1, { t with stream := r.2 })

/-- Execute the phase the stream stands at; filters run from position `start` on. -/
def step (start : Nat) (t : Turn σ ε) : Step × Turn σ ε :=
  match t.stream.phase with
  | .init => (.next, t)
  | .filterRequest => t.alone (·.filterRequest c.behaviour .beforeRoute start)
  | .matchRoute => t.matchRoute c
  | .filterRouted => t.alone (·.filterRequest c.behaviour .afterRoute start)
  | .chooseHost => t.chooseHost c
  | .filterHosted => t.alone (·.filterRequest c.behaviour .afterHost start)
  | .forward => t.forward c
  | .awaitResponse => (.rest, t)
  | .filterResponse => t.alone (·.filterResponse c.behaviour start)
  | .respond => t.respond c
  | .done => (.rest, t)

/-- Stand at another phase. -/
def goto (phase : Phase) (t : Turn σ ε) : Turn σ ε := { t with stream := { t.stream with phase } }

/-- Go on to the phase after `phase`, which is complete. -/
def advance (phase : Phase) (t : Turn σ ε) : Turn σ ε :=
  { t with stream := t.stream.note (.stat (.phaseCompleted phase)) }.goto phase.next

/-- Spend one of the jumps left, of which `rest` remain. -/
def jump (phase : Phase) (rest : Nat) (t : Turn σ ε) : Turn σ ε :=
  { t with stream := { t.stream with jumpsLeft := rest }.note (.jumped phase) }.goto phase

/-- Execute up to `n` phases. -/
def driveFor : Nat → Nat → Turn σ ε → Option Panic × Turn σ ε
  | 0, _, t => (none, t)
  | n + 1, start, t =>
    if t.stream.claimed ∨ t.stream.phase = .done then (none, t)
    else
      let phase := t.stream.phase
      let r := { t with stream := t.stream.note (.entered phase) }.step c start
      match r.1 with
      | .next => driveFor n 0 (r.2.advance phase)
      | .goto target => driveFor n 0 (r.2.goto target)
      | .jump target =>
        match r.2.stream.jumpsLeft with
        | 0 => r.2.alone (·.finish c.behaviour .tooManyJumps)
        | rest + 1 => driveFor n 0 (r.2.jump target rest)
      | .rest => (none, r.2)
      | .finish ending => r.2.alone (·.finish c.behaviour ending)
      | .escape p => (some p, r.2)

/-- **Drive the stream** until it rests, ends, or something breaks off. -/
def drive (start : Nat) (t : Turn σ ε) : Option Panic × Turn σ ε :=
  t.driveFor c t.stream.work start

end Turn

end FilterProxy
