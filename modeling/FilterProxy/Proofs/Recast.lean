import FilterProxy.Proofs.Conclusion

/-!
# Proofs/Recast — no stream reads its log or asks how many pauses there were

A stream logs what it does and never looks back, and it counts its pauses only to tell their time
limits apart.  So on top of another log, and with some pauses more behind it (`Stream.recast`), it
does the same.  The same goes for the surroundings' state, as far as the collaborators answer alike
(`Surroundings.Alike`): **a job does the same in a recast stream, in any such state**
(`Turn.Recast.exec`).
-/

namespace FilterProxy

variable {σ ε : Type}

/-- The event with the numbers of pauses raised by `n`. -/
def Event.delayed (n : Nat) : Event σ → Event σ
  | .armed delay generation => .armed delay (n + generation)
  | e => e

/-- The job for the same pause, the numbers of pauses raised by `n`. -/
def Job.delayed (n : Nat) : Job → Job
  | .timeout generation => .timeout (n + generation)
  | job => job

/-! ## Boards -/

namespace Board

/-- The board on top of an older log, `n` pauses later. -/
def recast (g : Nat) (older : List (Event σ)) (b : Board σ) : Board σ :=
  { b with log := b.log.map (Event.delayed g) ++ older }

section

variable (g : Nat) (older : List (Event σ)) (b : Board σ)

@[simp] theorem recast_context : (b.recast g older).context = b.context := rfl
@[simp] theorem recast_owned : (b.recast g older).owned = b.owned := rfl
@[simp] theorem recast_point : (b.recast g older).point = b.point := rfl
@[simp] theorem recast_claimed : (b.recast g older).claimed = b.claimed := rfl
@[simp] theorem recast_route : (b.recast g older).route = b.route := rfl
@[simp] theorem recast_reply : (b.recast g older).reply = b.reply := rfl
@[simp] theorem recast_log : (b.recast g older).log = b.log.map (Event.delayed g) ++ older := rfl

theorem recast_called (side : Side) (index : Nat) (filter : σ) (current : Option RequestPoint)
    (parts : Parts) :
    (b.recast g older).note (.called side index filter current parts)
      = (b.note (.called side index filter current parts)).recast g older := rfl

theorem recast_added (side : Side) (index : Nat) (filter : σ) :
    (b.recast g older).note (.added side index filter) = (b.note (.added side index filter)).recast
      g older := rfl

theorem recast_looked (side : Side) (index : Nat) (filter : σ) :
    (b.recast g older).note (.looked side index filter (b.recast g older).view)
      = (b.note (.looked side index filter b.view)).recast g older := rfl

theorem recast_destroyed (side : Side) (index : Nat) (filter : σ) :
    (b.recast g older).note (.destroyed side index filter)
      = (b.note (.destroyed side index filter)).recast g older := rfl

theorem recast_schedule (job : Job) :
    (b.recast g older).schedule job = (b.schedule job).recast g older := by
  unfold schedule
  rw [recast_owned]
  split <;> rfl

theorem recast_raise (code : UInt16) (headers : Headers) :
    (b.recast g older).raise code headers
      = ((b.raise code headers).1, (b.raise code headers).2.recast g older) := by
  unfold raise
  rw [show (b.recast g older).closed = b.closed from rfl]
  split <;> rfl

theorem recast_claim (ending : Ending) :
    (b.recast g older).claim ending = ((b.claim ending).1, (b.claim ending).2.recast g older) := by
  unfold claim
  rw [recast_claimed]
  split
  · rfl
  · cases ending <;> rfl

theorem recast_terminate (ending : Ending) :
    (b.recast g older).terminate ending = ((b.terminate ending).1,
      (b.terminate ending).2.recast g older) := by
  unfold terminate
  rw [recast_claim]
  dsimp only
  split
  · rw [recast_schedule]
  · rfl

theorem recast_abandon : (b.recast g older).abandon = b.abandon.recast g older := by
  unfold abandon
  rw [recast_claimed]
  split <;> rfl

/-- An action through a handle. -/
theorem recast_perform {side : Side} (index : Nat) (x : Action side) :
    (b.recast g older).perform index x = (b.perform index x).recast g older := by
  cases x with
  | reply code headers =>
    simp only [perform, recast_raise]
    split
    · rw [recast_schedule]
    · rfl
  | replaceHeaders | replaceData | replaceTrailers => rfl
  | resume => exact recast_schedule g older b _
  | terminate =>
    simp only [perform, recast_owned, recast_terminate, recast_abandon]
    split <;> rfl

end

end Board

open Board

/-- **A program** does the same on top of any log. -/
theorem Program.run_recast {α : Type} {side : Side} (g : Nat) (older : List (Event σ)) (filter : σ)
    (index : Nat)
    (program : Program side α) (b : Board σ) : program.run filter index (b.recast g older)
      = ((program.run filter index b).1, (program.run filter index b).2.recast g older) := by
  induction program generalizing b with
  | done a => rfl
  | act x rest ih =>
    rw [Program.run, recast_perform, ih]
    rfl
  | look rest ih =>
    rw [Program.run, recast_looked, ih]
    rfl

theorem Program.through_recast {α : Type} {side : Side} (g : Nat) (older : List (Event σ))
    (f : Seated σ) (program : Program side α) (b : Board σ) : program.through f (b.recast g older)
      = ((program.through f b).1, (program.through f b).2.recast g older) :=
  Program.run_recast g older f.filter f.seat program b

/-! ## Introductions, passes and farewells -/

namespace Workbench

/-- The workbench on top of an older log, `g` pauses later. -/
def recast (g : Nat) (older : List (Event σ)) (w : Workbench σ) : Workbench σ :=
  { w with board := w.board.recast g older }

end Workbench

namespace FilterSet

variable (β : Behaviour σ) (g : Nat) (older : List (Event σ))

theorem introduce_recast (s : FilterSet σ) (b : Board σ) (r : Registration σ) :
    s.introduce β
      (b.recast g older) r = ((s.introduce β b r).1, (s.introduce β b r).2.recast g older) := by
  simp only [introduce, recast_added, recast_context, Program.through_recast]

theorem callRequest_recast (i : Nat) (f : Seated σ) (w : Workbench σ) :
    callRequest β i f
      (w.recast g older) = ⟨(callRequest β i f w).answer, (callRequest β i f w).filter,
      (callRequest β i f w).state.recast g older⟩ := by
  simp only [callRequest, Workbench.recast, recast_called, Program.through_recast, recast_point]
  rfl

theorem callResponse_recast (i : Nat) (f : Seated σ) (w : Workbench σ) :
    callResponse β i f (w.recast g older) = ⟨(callResponse β i f w).answer,
      (callResponse β i f w).filter, (callResponse β i f w).state.recast g older⟩ := by
  have hput (b : Board σ) (p : Parts) :
      (b.recast g older).putReplaced p
        = ((b.putReplaced p).1, (b.putReplaced p).2.recast g older) := rfl
  simp only [callResponse, Workbench.recast, hput, recast_called, Program.through_recast,
    recast_context, recast_point]
  split <;> rfl

theorem passRequests_recast (point : RequestPoint) (start : Nat) (convert : Converter)
    (s : FilterSet σ) (w : Workbench σ) :
    passRequests β point start convert s (w.recast g older)
      = let r := passRequests β point start convert s w
        ⟨r.result, r.filters, r.bench.recast g older⟩ := by
  have hpass := Chain.passFrom_map point start convert (Workbench.recast g older)
    (callRequest_recast β g older)
    none 0 s.requests { w with board := { w.board with point := some point } }
  unfold passRequests Chain.pass
  rw [show ({ w.recast g older with board := { (w.recast g older).board with point := some point } }
    :
    Workbench σ) = Workbench.recast g older { w with board := { w.board with point := some point } }
      from rfl,
    hpass]
  dsimp only
  split <;> rfl

theorem passResponses_recast (point : ResponsePoint) (start : Nat) (convert : Converter)
    (s : FilterSet σ) (w : Workbench σ) :
    passResponses β point start convert s (w.recast g older)
      = let r := passResponses β point start convert s w
        ⟨r.result, r.filters, r.bench.recast g older⟩ := by
  unfold passResponses Chain.pass
  rw [Chain.passFrom_map _ _ _ (Workbench.recast g older) (callResponse_recast β g older)]

theorem destroyFrom_recast {π : Type} (side : Side) (index : Nat) (chain : Chain (Seated σ) π)
    (b : Board σ) : destroyFrom β side index chain (b.recast g older)
      = let r := destroyFrom β side index chain b
        (r.1, r.2.1, r.2.2.recast g older) := by
  induction chain generalizing index b with
  | nil => rfl
  | cons e rest ih =>
    simp only [destroyFrom, recast_destroyed, Program.through_recast]
    split
    · rfl
    · rw [ih]

theorem destroy_recast (s : FilterSet σ) (b : Board σ) :
    destroy β s (b.recast g older) =
      let r := destroy β s b
      (r.1, r.2.1, r.2.2.recast g older) := by
  simp only [destroy, destroyFrom_recast]
  split <;> rfl

end FilterSet

/-! ## Streams -/

namespace Stream

/-- The stream on top of an older log, `g` pauses later. -/
def recast (g : Nat) (older : List (Event σ)) (s : Stream σ) : Stream σ :=
  { s with generation := g + s.generation, board := s.board.recast g older }

variable (g : Nat) (older : List (Event σ)) (s : Stream σ)

@[simp] theorem recast_board : (s.recast g older).board = s.board.recast g older := rfl
@[simp] theorem recast_claimed : (s.recast g older).claimed = s.claimed := rfl
@[simp] theorem recast_phase : (s.recast g older).phase = s.phase := rfl
@[simp] theorem recast_pausedBy : (s.recast g older).pausedBy = s.pausedBy := rfl
@[simp] theorem recast_jumpsLeft : (s.recast g older).jumpsLeft = s.jumpsLeft := rfl
@[simp] theorem recast_host : (s.recast g older).host = s.host := rfl
@[simp] theorem recast_work : (s.recast g older).work = s.work := rfl

theorem recast_forwarded (host : Host) (m : Message) (x : Forwarding) :
    (s.recast g older).note (.forwarded host m x) = (s.note (.forwarded host m x)).recast g older :=
      rfl

variable (β : Behaviour σ)

theorem addFilter_recast (r : Registration σ) :
    (s.recast g older).addFilter β r = (s.addFilter β r).recast g older := by
  simp only [addFilter, FilterSet.add, recast_board, FilterSet.introduce_recast]
  rfl

theorem release_recast (ending : Ending) : (s.recast g older).release β ending
    = ((s.release β ending).1, (s.release β ending).2.recast g older) := by
  simp only [release, recast, FilterSet.destroy_recast]
  split <;> rfl

theorem finish_recast (ending : Ending) : (s.recast g older).finish β ending
    = ((s.finish β ending).1, (s.finish β ending).2.recast g older) := by
  unfold finish
  rw [recast_board, recast_claim]
  dsimp only
  split
  · exact release_recast g older { s with board := (s.board.claim ending).2 } β ending
  · rfl

theorem terminate_recast (ending : Ending) : (s.recast g older).terminate ending
    = ((s.terminate ending).1, (s.terminate ending).2.recast g older) := by
  simp only [terminate, recast_board, recast_terminate]
  rfl

theorem noteAbort_recast (cause : Abort) :
    (s.recast g older).noteAbort cause = (s.noteAbort cause).recast g older := by
  cases cause <;> rfl

theorem pause_recast (index : Nat) : (s.recast g older).pause index
    = ((s.pause index).1, (s.pause index).2.recast g older) := by
  unfold pause
  rw [recast_claimed]
  split
  · rfl
  · dsimp only
    rw [show (s.recast g older).settings = s.settings from rfl]
    split <;> rfl

theorem shortcut_recast :
    (s.recast g older).shortcut = (s.shortcut.1, s.shortcut.2.recast g older) := by
  simp only [shortcut, takeReply, recast_board, recast_reply]
  split <;> rfl

theorem conclude_recast (result : Except Panic Outcome) : (s.recast g older).conclude result
    = ((s.conclude result).1, (s.conclude result).2.recast g older) := by
  rcases result with p | _ | n | q | cause
  case ok.completed =>
    rw [conclude, conclude, shortcut_recast, recast_board, recast_reply]
    split <;> rfl
  case ok.stopped =>
    rw [conclude, conclude, shortcut_recast, pause_recast, recast_board, recast_reply]
    split <;> rfl
  case ok.aborted => exact Prod.ext rfl (noteAbort_recast g older s cause)
  all_goals rfl

theorem filterRequest_recast (point : RequestPoint) (start : Nat) :
    (s.recast g older).filterRequest β point start
      = ((s.filterRequest β point start).1, (s.filterRequest β point start).2.recast g older) := by
  have hpass := FilterSet.passRequests_recast β g older point start s.settings.convert s.filters
    ⟨s.board, s.request.parts⟩
  have hconclude (s : Stream σ) : s.filterRequest β point start
      = let r := s.filters.passRequests β point start s.settings.convert ⟨s.board, s.request.parts⟩
        conclude { s with
          filters := r.filters, board := r.bench.board, request := r.bench.parts.message }
            r.result := rfl
  rw [hconclude, hconclude, ← conclude_recast]
  dsimp only
  rw [show FilterSet.passRequests β point start (s.recast g older).settings.convert
    (s.recast g older).filters
    ⟨(s.recast g older).board, (s.recast g older).request.parts⟩ = _ from hpass]
  rfl

theorem passResponse_recast (point : ResponsePoint) (start : Nat) (convert : Converter) :
    (s.recast g older).passResponse β point start convert
      = ((s.passResponse β point start convert).1, (s.passResponse β point start convert).2.recast g
        older) := by
  have hpass := FilterSet.passResponses_recast β g older point start convert s.filters
    ⟨s.board, s.response.parts⟩
  unfold passResponse
  rw [show FilterSet.passResponses β point start convert (s.recast g older).filters
    ⟨(s.recast g older).board, (s.recast g older).response.parts⟩ = _ from hpass]
  rfl

theorem filterResponse_recast (start : Nat) : (s.recast g older).filterResponse β start
    = ((s.filterResponse β start).1, (s.filterResponse β start).2.recast g older) := by
  have hclosed :
    ({ s.recast g older with board := (s.recast g older).board.closeReply.2 } : Stream σ)
      = recast g older { s with board := s.board.closeReply.2 } := rfl
  unfold filterResponse
  dsimp only
  rw [hclosed, passResponse_recast]
  dsimp only
  generalize passResponse β .beforeSend start .keep { s with board := s.board.closeReply.2 } = r
  rcases r with ⟨p | _ | n | q | cause, s'⟩
  case ok.stopped => exact pause_recast g older s' n
  case ok.aborted => exact Prod.ext rfl (noteAbort_recast g older s' cause)
  all_goals rfl

theorem runResponseFilters_recast (message : Message) (convert : Converter) :
    (s.recast g older).runResponseFilters β .beforeSend message convert
      = ((s.runResponseFilters β .beforeSend message convert).1,
        (s.runResponseFilters β .beforeSend message convert).2.recast g older) := by
  have hgiven : ({ s.recast g older with response := message } : Stream σ)
      = recast g older { s with response := message } := rfl
  unfold runResponseFilters
  dsimp only
  rw [hgiven, passResponse_recast]
  dsimp only
  generalize passResponse β .beforeSend 0 convert { s with response := message } = r
  rcases r with ⟨p | _ | n | q | cause, s'⟩
  case ok.aborted =>
    dsimp only
    rw [noteAbort_recast, finish_recast]
    dsimp only
    split <;> rfl
  all_goals rfl

theorem answer_recast (x : Handover) :
    Turn.answer (s.recast g older) x = (Turn.answer s x).recast g older := by
  cases x with
  | kept | dropped => rfl
  | responded m =>
    exact congrArg (fun b => { s.recast g older with board := b })
      (recast_schedule g older s.board _)
  | failed failure => exact congrArg Prod.snd (terminate_recast g older s .hostFailure)

end Stream

/-! ## Turns -/

/-- **The collaborators answer alike** in states that `E` relates, and leave such states behind. -/
structure Surroundings.Alike (c : Surroundings σ ε) (E : ε → ε → Prop) : Prop where
  reload : ∀ {e e'}, E e e' → ∀ r, (c.reload e' r).1 = (c.reload e r).1 ∧
    E (c.reload e r).2 (c.reload e' r).2
  choose : ∀ {e e'}, E e e' → ∀ route headers, (c.choose e' route headers).1
    = (c.choose e route headers).1 ∧
    E (c.choose e route headers).2 (c.choose e' route headers).2
  forward : ∀ {e e'}, E e e' → ∀ id host m, (c.forward e' id host m).1 = (c.forward e id host m).1 ∧
    E (c.forward e id host m).2 (c.forward e' id host m).2
  write : ∀ {e e'}, E e e' → ∀ id m, (c.write e' id m).1 = (c.write e id m).1 ∧
    E (c.write e id m).2 (c.write e' id m).2

/-- In one state they do. -/
theorem Surroundings.alike_eq (c : Surroundings σ ε) : c.Alike (· = ·) := by
  constructor <;> (rintro e _ rfl; intros; exact ⟨rfl, rfl⟩)

namespace Turn

open FilterProxy.Stream

/-- The second turn is the first on top of an older log, in a related state. -/
structure Recast (E : ε → ε → Prop) (g : Nat) (older : List (Event σ))
    (t t' : Turn σ ε) : Prop where
  stream : t'.stream = t.stream.recast g older
  env : E t.env t'.env

/-- Two pieces of work come to the same, and leave such turns. -/
structure Same {α : Type} (E : ε → ε → Prop) (g : Nat) (older : List (Event σ))
    (r r' : α × Turn σ ε) : Prop where
  fst : r'.1 = r.1
  snd : Recast E g older r.2 r'.2

/-- How a drive goes on, for `n` phases more, once `phase` came to a step. -/
def onward (c : Surroundings σ ε) (n : Nat) (phase : Phase) (r : Step × Turn σ ε) :
    Option Panic × Turn σ ε :=
  match r.1 with
  | .next => driveFor c n 0 (r.2.advance phase)
  | .goto target => driveFor c n 0 (r.2.goto target)
  | .jump target =>
    match r.2.stream.jumpsLeft with
    | 0 => r.2.alone (·.finish c.behaviour .tooManyJumps)
    | rest + 1 => driveFor c n 0 (r.2.jump target rest)
  | .rest => (none, r.2)
  | .finish ending => r.2.alone (·.finish c.behaviour ending)
  | .escape p => (some p, r.2)

/-- **A drive executes a phase and goes on**, unless the stream was claimed or is done. -/
theorem driveFor_succ (c : Surroundings σ ε) (n start : Nat) (t : Turn σ ε) :
    t.driveFor c (n + 1) start = if t.stream.claimed ∨ t.stream.phase = .done then (none, t)
      else onward c n t.stream.phase (t.execute c start) := rfl

namespace Recast

variable {E : ε → ε → Prop} {g : Nat} {older : List (Event σ)} {c : Surroundings σ ε}
  {t t' : Turn σ ε}

theorem claimed (h : Recast E g older t t') : t'.stream.claimed = t.stream.claimed := by
  rw [h.stream, Stream.recast_claimed]

theorem phase (h : Recast E g older t t') : t'.stream.phase = t.stream.phase := by
  rw [h.stream, recast_phase]

theorem pausedBy (h : Recast E g older t t') : t'.stream.pausedBy = t.stream.pausedBy := by
  rw [h.stream, recast_pausedBy]

/-- What concerns the stream alone comes to the same. -/
theorem alone {α : Type} (h : Recast E g older t t') {f : Stream σ → α × Stream σ}
    (hf : f (t.stream.recast g older) = ((f t.stream).1, (f t.stream).2.recast g older)) :
    Same E g older (t.alone f) (t'.alone f) := by
  rcases t' with ⟨s', env'⟩
  obtain ⟨rfl, henv⟩ := h
  refine ⟨?_, ?_, henv⟩
  · exact (congrArg Prod.fst hf :)
  · exact (congrArg Prod.snd hf :)

theorem matchRoute (hc : c.Alike E) (h : Recast E g older t t') :
    Same E g older (t.matchRoute c) (t'.matchRoute c) := by
  rcases t' with ⟨s', env'⟩
  obtain ⟨rfl, henv⟩ := h
  obtain ⟨heq, hleft⟩ := hc.reload henv c.routing
  unfold Turn.matchRoute
  dsimp only at heq ⊢
  rw [heq, show (t.stream.recast g older).request = t.stream.request from rfl]
  split <;> exact ⟨rfl, rfl, hleft⟩

theorem chooseHost (hc : c.Alike E) (h : Recast E g older t t') :
    Same E g older (t.chooseHost c) (t'.chooseHost c) := by
  rcases t' with ⟨s', env'⟩
  obtain ⟨rfl, henv⟩ := h
  unfold Turn.chooseHost
  rw [recast_board, recast_route]
  split
  · exact ⟨rfl, rfl, henv⟩
  · obtain ⟨heq, hleft⟩ := hc.choose henv _ (t.stream.request.headers.getD {})
    dsimp only at heq ⊢
    rw [show (t.stream.recast g older).request = t.stream.request from rfl, heq]
    split <;> exact ⟨rfl, rfl, hleft⟩

theorem forward (hc : c.Alike E) (h : Recast E g older t t') :
    Same E g older (t.forward c) (t'.forward c) := by
  rcases t' with ⟨s', env'⟩
  obtain ⟨rfl, henv⟩ := h
  unfold Turn.forward
  rw [recast_host]
  split
  · exact ⟨rfl, rfl, henv⟩
  · obtain ⟨heq, hleft⟩ := hc.forward henv t.stream.board.context.id _ t.stream.request
    dsimp only at heq ⊢
    rw [show (t.stream.recast g older).request = t.stream.request from rfl, recast_board,
      recast_context, heq, recast_forwarded, answer_recast]
    split <;> exact ⟨rfl, rfl, hleft⟩

theorem respond (hc : c.Alike E) (h : Recast E g older t t') :
    Same E g older (t.respond c) (t'.respond c) := by
  rcases t' with ⟨s', env'⟩
  obtain ⟨rfl, henv⟩ := h
  unfold Turn.respond
  dsimp only [putReplaced]
  -- only a response with a code leaves its code behind; the rest is the same
  have hparts : (t.stream.recast g older).board.replaced.over
    (t.stream.recast g older).response.parts
      = t.stream.board.replaced.over t.stream.response.parts := rfl
  rw [hparts]
  cases (t.stream.board.replaced.over t.stream.response.parts).message.code?
  all_goals
    obtain ⟨heq, hleft⟩ := hc.write henv t.stream.board.context.id
      (t.stream.board.replaced.over t.stream.response.parts).message
    dsimp only at heq ⊢
    rw [recast_board, recast_context, heq]
    split <;> exact ⟨rfl, rfl, hleft⟩

theorem step (hc : c.Alike E) (h : Recast E g older t t') (start : Nat) :
    Same E g older (t.step c start) (t'.step c start) := by
  have filtered (point : RequestPoint) :=
    h.alone (filterRequest_recast g older t.stream c.behaviour point start)
  unfold Turn.step
  rw [h.phase]
  split
  case h_1 => exact ⟨rfl, h⟩
  case h_2 => exact filtered .beforeRoute
  case h_3 => exact h.matchRoute hc
  case h_4 => exact filtered .afterRoute
  case h_5 => exact h.chooseHost hc
  case h_6 => exact filtered .afterHost
  case h_7 => exact h.forward hc
  case h_8 => exact ⟨rfl, h⟩
  case h_9 => exact h.alone (filterResponse_recast g older t.stream c.behaviour start)
  case h_10 => exact h.respond hc
  case h_11 => exact ⟨rfl, h⟩

/-- Work on the stream that does not read the log keeps one turn on top of the other. -/
theorem map (h : Recast E g older t t') {f : Stream σ → Stream σ}
    (hf : f (t.stream.recast g older) = (f t.stream).recast g older) :
    Recast E g older { t with stream := f t.stream } { t' with stream := f t'.stream } :=
  ⟨by rw [h.stream]; exact hf, h.env⟩

theorem onward (n : Nat)
    (ih : ∀ start {t t' : Turn σ ε}, Recast E g older t t' →
      Same E g older (t.driveFor c n start) (t'.driveFor c n start))
    (phase : Phase) {r r' : Step × Turn σ ε} (h : Same E g older r r') :
    Same E g older (Turn.onward c n phase r) (Turn.onward c n phase r') := by
  obtain ⟨hfst, hsnd⟩ := h
  unfold Turn.onward
  rw [hfst]
  split
  case h_1 => exact ih 0 (hsnd.map (f := fun s => { s.note (.stat (.phaseCompleted phase)) with
    phase := phase.next }) rfl)
  case h_2 target _ => exact ih 0 (hsnd.map (f := fun s => { s with phase := target }) rfl)
  case h_3 target _ =>
    rw [hsnd.stream, recast_jumpsLeft]
    split
    case h_1 => exact hsnd.alone (finish_recast g older _ c.behaviour .tooManyJumps)
    case h_2 rest _ => exact ih 0 (hsnd.map (f := (·.jumped target rest)) rfl)
  case h_4 => exact ⟨rfl, hsnd⟩
  case h_5 ending _ => exact hsnd.alone (finish_recast g older _ c.behaviour ending)
  case h_6 p _ => exact ⟨rfl, hsnd⟩

theorem driveFor (hc : c.Alike E) (n : Nat) :
    ∀ (start : Nat) {t t' : Turn σ ε}, Recast E g older t t' →
    Same E g older (t.driveFor c n start) (t'.driveFor c n start) := by
  induction n with
  | zero => exact fun _ _ _ h => ⟨rfl, h⟩
  | succ n ih =>
    intro start t t' h
    have hentered : Recast E g older { t with stream := t.stream.entered }
      { t' with stream := t'.stream.entered } :=
      h.map (f := Stream.entered) rfl
    rw [driveFor_succ, driveFor_succ, h.claimed, h.phase]
    split
    case isTrue => exact ⟨rfl, h⟩
    case isFalse => exact onward n ih t.stream.phase (hentered.step hc start)

theorem drive (hc : c.Alike E) (h : Recast E g older t t') (start : Nat) :
    Same E g older (t.drive c start) (t'.drive c start) := by
  unfold Turn.drive
  rw [h.stream, recast_work]
  exact h.driveFor hc _ start

/-- **A job does the same** on top of any log, and in any state in which the collaborators answer
alike. -/
theorem exec (hc : c.Alike E) (h : Recast E g older t t') (job : Job) :
    Same E g older (t.exec c job) (t'.exec c (job.delayed g)) := by
  have idle : Same (α := Option Panic) E g older (none, t) (none, t') := ⟨rfl, h⟩
  have hfinish := h.alone (finish_recast g older t.stream c.behaviour .stopTimeout)
  have hrelease (ending : Ending) := h.alone (release_recast g older t.stream c.behaviour ending)
  rcases t' with ⟨s', env'⟩
  obtain ⟨rfl, henv⟩ := h
  have driven (k : Nat) (s : Stream σ) : Same E g older (Turn.drive c k ⟨s, t.env⟩)
      (Turn.drive c k ⟨s.recast g older, env'⟩) := by
    have hover : Recast E g older ⟨s, t.env⟩ ⟨s.recast g older, env'⟩ := ⟨rfl, henv⟩
    exact hover.drive hc k
  -- whether a job concerns the stream, and where it resumes, is decided alike
  have branch {P P' : Prop} [Decidable P] [Decidable P'] {a a' b b' : Option Panic × Turn σ ε}
      (hiff : P' ↔ P) (ha : Same E g older a a') (hb : Same E g older b b') :
      Same E g older (if P then a else b) (if P' then a' else b') := by
    simp only [hiff]
    split
    · exact ha
    · exact hb
  cases job with
  | receive m => exact branch Iff.rfl idle (driven 0 { t.stream with request := m })
  | resume caller =>
    simp only [Turn.exec, Turn.resume, recast_pausedBy]
    split
    case h_1 => exact idle
    case h_2 index _ =>
      have hshortcut := driven 0 { t.stream.woken.shortcut.2 with phase := .filterResponse }
      have hstream : ({ t.stream.woken.shortcut.2 with phase := .filterResponse } :
        Stream σ).recast g older
          = { (t.stream.woken.recast g older).shortcut.2 with phase := .filterResponse } := by
        rw [shortcut_recast]
        rfl
      rw [hstream] at hshortcut
      exact branch Iff.rfl idle (branch Iff.rfl hshortcut (driven (index + 1) t.stream.woken))
  | release ending => exact hrelease ending
  | response m => exact branch Iff.rfl idle (driven 0 (t.stream.responded m))
  | timeout generation =>
    refine branch (or_congr Iff.rfl (not_congr ?_)) idle hfinish
    exact Nat.add_left_cancel_iff

end Recast

end Turn

end FilterProxy
