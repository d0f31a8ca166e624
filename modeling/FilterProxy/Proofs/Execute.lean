import FilterProxy.Stream.Drive
import FilterProxy.Proofs.Farewell

/-!
# Proofs/Execute — what executing a phase can do

`Stream.Executed` says once what a phase may come to: which events it logs (`Event.Within`), which
filters it calls, and what holds of each kind of step.  **Every phase of a stream nobody has claimed
is executed that way** (`Turn.executed_step`), so nothing later has to open a phase again.
-/

namespace FilterProxy

variable {σ ε : Type}

/-- The side whose filters a phase runs. -/
def Phase.side? : Phase → Option Side
  | .filterRequest | .filterRouted | .filterHosted => some .request
  | .filterResponse => some .response
  | _ => none

@[simp] theorem RequestPoint.side?_phase (point : RequestPoint) :
    point.phase.side? = some .request := by cases point <;> rfl

theorem Phase.exists_point {p : Phase} (h : p.side? = some .request) :
    ∃ point : RequestPoint, p = point.phase := by
  cases p with
  | filterRequest => exact ⟨.beforeRoute, rfl⟩
  | filterRouted => exact ⟨.afterRoute, rfl⟩
  | filterHosted => exact ⟨.afterHost, rfl⟩
  | _ => cases h

namespace Event

/-- Executing `phase` may log the event. -/
def Within (phase : Phase) : Event σ → Prop
  | .called side _ _ _ _ => phase.side? = some side
  | .passed point _ => phase = point.phase
  | .routed _ _ => phase = .matchRoute
  | .chosen _ _ _ => phase = .chooseHost
  | .forwarded _ _ _ => phase = .forward
  | .written _ _ => phase = .respond
  | .published s => s = .paused phase ∧ phase.side?.isSome
  | .stat (.phaseCompleted p) => p = .respond ∧ phase = .respond
  | .entered _ | .jumped _ | .destroyed _ _ _ => False
  | _ => True

/-- An event that may come from outside of the phases. -/
def isOutside : Event σ → Bool
  | .scheduled _ | .replied _ _ _ | .added _ _ _ | .looked _ _ _ _ | .claimed _ | .escaped _ => true
  | .stat (.terminated _) | .stat .cleaned | .stat .filterPanicked => true
  | _ => false

/-- A collaborator is called. -/
def isOutward : Event σ → Bool
  | .routed _ _ | .chosen _ _ _ | .forwarded _ _ _ | .written _ _ => true
  | _ => false

theorem within_of_pass {side : Side} {phase : Phase} (hs : phase.side? = some side) {e : Event σ}
    (h : e.inPass side = true ∨ e.byHandle = true) : e.Within phase := by
  cases e with
  | called s i f c p =>
    rcases h with h | h
    · obtain rfl : s = side := by simpa [inPass] using h
      exact hs
    · cases h
  | stat s => cases s <;> first | trivial | (rcases h with h | h <;> cases h)
  | _ => first | trivial | (rcases h with h | h <;> cases h)

theorem isOutward_of_pass {side : Side} {e : Event σ}
    (h : e.inPass side = true ∨ e.byHandle = true) : e.isOutward = false := by
  cases e <;> first | rfl | (rcases h with h | h <;> cases h)

theorem call?_of_pass {side side' : Side} (hs : side ≠ side') {e : Event σ}
    (h : e.inPass side = true ∨ e.byHandle = true) : e.call? side' = none := by
  cases e with
  | called s i f c p =>
    rcases h with h | h
    · obtain rfl : s = side := by simpa [inPass] using h
      simp [call?, hs]
    · cases h
  | _ => rfl

theorem within_of_isOutside {phase : Phase} {e : Event σ} (h : e.isOutside = true) :
    e.Within phase := by
  cases e with
  | stat s => cases s <;> trivial
  | _ => trivial

theorem isOutside_of_byHandle {e : Event σ} (h : e.byHandle = true) : e.isOutside = true := by
  cases e with
  | stat s => cases s <;> first | rfl | cases h
  | _ => first | rfl | cases h

theorem isOutside_of_isIntroduction {e : Event σ} (h : e.isIntroduction = true) :
    e.isOutside = true := by
  cases e <;> first | rfl | cases h

theorem isOutside_of_handle {e : Event σ} (h : e.isLook = true ∨ e.byHandle = true) :
    e.isOutside = true := by
  rcases h with h | h
  · cases e <;> first | rfl | cases h
  · exact isOutside_of_byHandle h

theorem isOutward_of_isOutside {e : Event σ} (h : e.isOutside = true) : e.isOutward = false := by
  cases e <;> first | rfl | cases h

theorem call?_of_isOutside (side : Side) {e : Event σ} (h : e.isOutside = true) :
    e.call? side = none := by
  cases e <;> first | rfl | cases h

theorem call?_of_within {phase : Phase} (side : Side) (hs : phase.side? = none) {e : Event σ}
    (h : e.Within phase) : e.call? side = none := by
  cases e with
  | called s i f c p => rw [show phase.side? = some s from h] at hs; cases hs
  | _ => rfl

end Event

/-- Ending a stream from outside logs nothing else. -/
theorem Board.terminate_log (b : Board σ) (ending : Ending) (ho : b.owned = true) :
    ∃ new, (b.terminate ending).2.log = new ++ b.log ∧ ∀ e ∈ new, e.isOutside = true := by
  cases hc : b.claimed with
  | true => exact ⟨[], by rw [terminate_of_claimed hc]; rfl, by simp⟩
  | false =>
    refine ⟨.scheduled (.release ending) :: claimEvents ending, by
      rw [terminate_of_unclaimed ho hc]; rfl, List.forall_mem_cons.mpr ⟨rfl, fun e he => ?_⟩⟩
    rcases mem_claimEvents he with rfl | rfl | rfl <;> rfl

namespace FilterSet

/-- The same filters, each at its place, on its seat and bound to its point. -/
structure Fixed (s s' : FilterSet σ) : Prop where
  requests : s'.requests.map (·.point) = s.requests.map (·.point)
  responses : s'.responses.map (·.point) = s.responses.map (·.point)
  seats : ∀ side, s'.seats side = s.seats side

theorem Fixed.refl (s : FilterSet σ) : s.Fixed s := ⟨rfl, rfl, fun _ => rfl⟩

theorem Fixed.trans {s₁ s₂ s₃ : FilterSet σ} (h : s₁.Fixed s₂) (h' : s₂.Fixed s₃) :
    s₁.Fixed s₃ where
  requests := h'.requests.trans h.requests
  responses := h'.responses.trans h.responses
  seats side := (h'.seats side).trans (h.seats side)

/-- A pass calls filters where they are. -/
theorem RequestPass.fixed {point : RequestPoint} {start : Nat} {s : FilterSet σ} {b : Board σ}
    {r : SetPassed σ} {new : List (Event σ)} {is : List Nat}
    (h : RequestPass point start s b r new is) :
    s.Fixed r.filters := ⟨h.points, by rw [h.responses], h.seats⟩

theorem ResponsePass.fixed {point : ResponsePoint} {start : Nat} {s : FilterSet σ} {b : Board σ}
    {r : SetPassed σ} {new : List (Event σ)} {is : List Nat}
    (h : ResponsePass point start s b r new is) :
    s.Fixed r.filters := ⟨by rw [h.requests], h.points, h.seats⟩

/-- The filter at `index` is one that `phase` runs. -/
def Bound (s : FilterSet σ) (phase : Phase) (index : Nat) : Prop :=
  (∃ point : RequestPoint, phase = point.phase ∧
    (s.requests.map (·.point))[index]? = some point) ∨
  phase = .filterResponse ∧ index < s.responses.length

theorem Fixed.bound_iff {s s' : FilterSet σ} (h : s.Fixed s') {phase : Phase} {index : Nat} :
    s'.Bound phase index ↔ s.Bound phase index := by
  have hlen : s'.responses.length = s.responses.length := by
    simpa using congrArg List.length h.responses
  rw [Bound, Bound, h.requests, hlen]

theorem Fixed.size {s s' : FilterSet σ} (h : s.Fixed s') (side : Side) :
    s'.size side = s.size side := by
  rcases side with _ | _
  · simpa [FilterSet.size] using congrArg List.length h.requests
  · simpa [FilterSet.size] using congrArg List.length h.responses

/-- **Every filter speaks for the place it is at.** -/
def InPlace (s : FilterSet σ) : Prop := ∀ side, s.seats side = List.range (s.size side)

/-- A filter that is enlisted sits where its side ended. -/
theorem InPlace.enlist {s : FilterSet σ} (h : s.InPlace) (r : Registration σ) :
    (s.enlist r).InPlace := by
  intro side
  have hside := h side
  cases r <;> cases side <;> simp_all [FilterSet.enlist, seats, FilterSet.size, List.range_succ]

theorem InPlace.fixed {s s' : FilterSet σ} (h : s.InPlace) (hf : s.Fixed s') : s'.InPlace :=
  fun side => by
  rw [hf.seats, hf.size, h]

theorem seat_of_range {π : Type} {chain : Chain (Seated σ) π}
    (h : chain.map (·.filter.seat) = List.range chain.length) {i : Nat} {f : Seated σ}
    (hf : (chain[i]?).map (·.filter) = some f) : f.seat = i := by
  obtain ⟨e, he, rfl⟩ := Option.map_eq_some_iff.mp hf
  have hseat := congrArg (·[i]?) h
  rw [List.getElem?_map, he, List.getElem?_range (List.getElem?_eq_some_iff.mp he).1] at hseat
  exact Option.some.inj hseat

theorem InPlace.seat_request {s : FilterSet σ} (h : s.InPlace) {i : Nat} {f : Seated σ}
    (hf : (s.requests[i]?).map (·.filter) = some f) : f.seat = i := seat_of_range (h .request) hf

theorem InPlace.seat_response {s : FilterSet σ} (h : s.InPlace) {i : Nat} {f : Seated σ}
    (hf : (s.responses[i]?).map (·.filter) = some f) : f.seat = i := seat_of_range (h .response) hf

end FilterSet

namespace Stream

open Board FilterSet

/-- A release tells filters, but neither moves nor drops any. -/
theorem release_fixed (β : Behaviour σ) (s : Stream σ) (ending : Ending)
    (ho : s.board.owned = true) : s.filters.Fixed (s.release β ending).2.filters := by
  obtain ⟨count, hp⟩ := parting_destroy β s.filters s.board ho
  rw [release_eq]
  exact ⟨hp.points.1, hp.points.2, hp.seats⟩

theorem finish_fixed (β : Behaviour σ) (s : Stream σ) (ending : Ending)
    (ho : s.board.owned = true) : s.filters.Fixed (s.finish β ending).2.filters := by
  cases hc : s.board.claimed with
  | true => rw [finish_of_claimed β hc]; exact .refl _
  | false =>
    rw [finish_of_unclaimed β hc]
    exact release_fixed β { s with board := (s.board.claim ending).2 } ending
      ((Move.claim _ _).owned.trans ho)

/-- **What executing a phase does to a stream** before it is decided how to go on: it logs `new` and
calls the filters at the positions `is`. -/
structure Worked (start : Nat) (s s' : Stream σ) (new : List (Event σ)) (is : List Nat) :
    Prop where
  moves : Moves s.board s'.board
  log : s'.board.log = new ++ s.board.log
  within : ∀ e ∈ new, e.Within s.phase
  once : new.countP Event.isOutward ≤ 1
  calls : ∀ side, calls side new = if s.phase.side? = some side then is.reverse else []
  rising : is.Pairwise (· < ·)
  bound : ∀ i ∈ is, start ≤ i ∧ s.filters.Bound s.phase i
  fixed : s.filters.Fixed s'.filters
  phase : s'.phase = s.phase
  jumpsLeft : s'.jumpsLeft = s.jumpsLeft

/-- No pause was begun or ended. -/
structure Awake (s s' : Stream σ) : Prop where
  pausedBy : s'.pausedBy = s.pausedBy
  generation : s'.generation = s.generation

/-- **What a phase may come to.** -/
inductive Executed (start : Nat) (s : Stream σ) :
    Step → Stream σ → List (Event σ) → List Nat → Prop
  | next {s' new is} (h : Worked start s s' new is) (ha : Awake s s')
      (hp : s.phase ∉ [.awaitResponse, .respond, .done]) : Executed start s .next s' new is
  /-- A direct reply was taken. -/
  | reply {s' new is} (h : Worked start s s' new is) (ha : Awake s s')
      (hp : s.phase.side? = some .request)
      (hr : s.board.Books → ∃ code headers, .replied code headers true ∈ s'.board.log) :
      Executed start s (.goto .filterResponse) s' new is
  | jump {s' new is q} {point : RequestPoint} (h : Worked start s s' new is) (ha : Awake s s')
      (hp : s.phase = point.phase) (hq : q = .matchRoute ∨ q = .chooseHost)
      (hr : .passed point (.ok (.resumeAt q)) ∈ new) : Executed start s (.jump q) s' new is
  /-- The filter at `n`, the last one called, stopped the stream. -/
  | pause {s' new is n} (h : Worked start s s' new is) (hp : s.phase.side?.isSome)
      (hn : n ∈ is ∧ ∀ i ∈ is, i ≤ n) (hpaused : s'.pausedBy = some n)
      (hgeneration : s'.generation = s.generation + 1)
      (hr : .published (.paused s.phase) ∈ new) (hc : s'.board.claimed = false) :
      Executed start s .rest s' new is
  | rest {s' new is} (h : Worked start s s' new is) (ha : Awake s s')
      (hc : s.phase = .awaitResponse ∨ s'.board.claimed = true) : Executed start s .rest s' new is
  | finish {s' new is ending} (h : Worked start s s' new is) (ha : Awake s s')
      (hp : s.phase ≠ .init) : Executed start s (.finish ending) s' new is
  | escape {s' new is panic} (h : Worked start s s' new is) (ha : Awake s s')
      (hp : s.phase ≠ .init) : Executed start s (.escape panic) s' new is

/-- Recording a panic moves the board alone, as anything from outside may. -/
theorem noteAbort_spec (s : Stream σ) (cause : Abort) :
    ∃ new, (s.noteAbort cause).board.log = new ++ s.board.log ∧
      (∀ e ∈ new, e.isOutside = true) ∧ Moves s.board (s.noteAbort cause).board ∧
      s.noteAbort cause = { s with board := (s.noteAbort cause).board } := by
  cases cause with
  | verdict index => exact ⟨[], rfl, by simp, .refl, rfl⟩
  | panic index text =>
    exact ⟨[.stat .filterPanicked], rfl, by simp [Event.isOutside], .single (.note _ rfl), rfl⟩

namespace Worked

variable {start : Nat} {s s' : Stream σ} {new : List (Event σ)} {is : List Nat}

/-- A phase without filters calls none. -/
theorem silent (hs : s.phase.side? = none) (moves : Moves s.board s'.board)
    (log : s'.board.log = new ++ s.board.log) (within : ∀ e ∈ new, e.Within s.phase)
    (once : new.countP Event.isOutward ≤ 1) (fixed : s.filters.Fixed s'.filters)
    (phase : s'.phase = s.phase) (jumpsLeft : s'.jumpsLeft = s.jumpsLeft) :
    Worked start s s' new [] where
  moves := moves
  log := log
  within := within
  once := once
  calls side := by
    rw [hs, if_neg nofun]
    exact List.filterMap_eq_nil_iff.mpr fun e he => Event.call?_of_within side hs (within e he)
  rising := .nil
  bound := by simp
  fixed := fixed
  phase := phase
  jumpsLeft := jumpsLeft

/-- Work is told by four fields. -/
theorem congr (h : Worked start s s' new is) {t : Stream σ} (hb : t.board = s'.board)
    (hf : t.filters = s'.filters) (hp : t.phase = s'.phase) (hj : t.jumpsLeft = s'.jumpsLeft) :
    Worked start s t new is :=
  { h with
    moves := hb ▸ h.moves
    log := hb ▸ h.log
    fixed := hf ▸ h.fixed
    phase := hp.trans h.phase
    jumpsLeft := hj.trans h.jumpsLeft }

/-- An edited board is no more work. -/
theorem edit (h : Worked start s s' new is) {b : Board σ} (he : s'.board.Edits b) :
    Worked start s { s' with board := b } new is :=
  { h with moves := h.moves.tail (.edit he), log := he.log.trans h.log }

/-- One more event is logged. -/
theorem log_one (h : Worked start s s' new is) {b : Board σ} {e : Event σ} (hm : Move s'.board b)
    (hlog : b.log = e :: s'.board.log) (hw : e.Within s.phase) (ho : e.isOutward = false)
    (hc : ∀ side, e.call? side = none) : Worked start s { s' with board := b } (e :: new) is :=
  { h with
    moves := h.moves.tail hm
    log := by rw [List.cons_append, ← h.log]; exact hlog
    within := by
      rintro f hf
      rcases List.mem_cons.mp hf with rfl | hf
      · exact hw
      · exact h.within f hf
    once := by rw [List.countP_cons, ho]; exact h.once
    calls := fun side => by rw [calls_cons, hc, ← h.calls side]; rfl }

theorem noteAbort (h : Worked start s s' new is) (cause : Abort) :
    ∃ new', Worked start s (s'.noteAbort cause) new' is := by
  cases cause with
  | verdict index => exact ⟨new, h⟩
  | panic index text =>
    exact ⟨_, h.log_one (e := .stat .filterPanicked) (.note _ rfl) rfl trivial rfl fun _ => rfl⟩

end Worked

theorem Awake.noteAbort {s s' : Stream σ} (h : Awake s s') (cause : Abort) :
    Awake s (s'.noteAbort cause) := by
  cases cause <;> exact ⟨h.pausedBy, h.generation⟩

/-- **A filter's stop** pauses the stream, unless it was ended meanwhile. -/
theorem Worked.executed_pause {start n : Nat} {s s' : Stream σ} {new : List (Event σ)}
    {is : List Nat} (h : Worked start s s' new is) (ha : Awake s s') (hp : s.phase.side?.isSome)
    (hn : n ∈ is ∧ ∀ i ∈ is, i ≤ n) :
    ∃ new, Executed start s (s'.pause n).1 (s'.pause n).2 new is := by
  cases hc : s'.board.claimed
  case true =>
    have hc' : s'.claimed = true := hc
    refine ⟨new, ?_⟩
    rw [pause, if_pos hc']
    exact .rest h ha (.inr hc)
  have hnc : ¬ s'.claimed := by simp [claimed, hc]
  have hwithin : Event.Within (σ := σ) s.phase (.published (.paused s'.phase)) :=
    ⟨congrArg _ h.phase, hp⟩
  have hpub := h.log_one (b := s'.board.publish (.paused s'.phase)) (.publish _ (by simp) hc) rfl
    hwithin rfl fun _ => rfl
  have hphase := h.phase
  have hgeneration : s'.generation + 1 = s.generation + 1 := congrArg (· + 1) ha.generation
  rw [pause, if_neg hnc]
  dsimp only
  cases ht : s'.settings.stopTimeout with
  | none =>
    refine ⟨_, .pause (n := n) (hpub.congr rfl rfl rfl rfl) hp hn rfl hgeneration ?_ hc⟩
    rw [← hphase]
    exact List.mem_cons_self
  | some delay =>
    have harmed := hpub.log_one (e := .armed delay (s'.generation + 1)) (.effect _ rfl hc) rfl
      trivial rfl fun _ => rfl
    refine ⟨_, .pause (n := n) (harmed.congr rfl rfl rfl rfl) hp hn rfl hgeneration ?_ hc⟩
    rw [← hphase]
    exact List.mem_cons_of_mem _ List.mem_cons_self

/-! ## Filter phases -/

variable (β : Behaviour σ)

/-- A pass over request filters is work of their phase. -/
theorem worked_of_requestPass {point : RequestPoint} {start : Nat} {s : Stream σ}
    {r : SetPassed σ} {new : List (Event σ)} {is : List Nat} (hp : s.phase = point.phase)
    (h : RequestPass point start s.filters s.board r new is) (m : Message) :
    Worked start s { s with filters := r.filters, board := r.bench.board, request := m }
      (.passed point r.result :: new) is where
  moves := h.moves
  log := h.log
  within := by
    rintro e he
    rcases List.mem_cons.mp he with rfl | he
    · exact hp
    · exact Event.within_of_pass (by rw [hp, RequestPoint.side?_phase]) (h.kinds e he)
  once := by
    rw [List.countP_cons, List.countP_eq_zero.mpr fun e he => by
      simp [Event.isOutward_of_pass (h.kinds e he)]]
    exact Nat.zero_le _
  calls side := by
    rw [hp, RequestPoint.side?_phase, calls_cons]
    cases side with
    | request => exact h.calls
    | response => exact List.filterMap_eq_nil_iff.mpr fun e he =>
        Event.call?_of_pass (by decide) (h.kinds e he)
  rising := h.range.rising
  bound i hi := ⟨(h.range.mem i hi).1, .inl ⟨point, hp, (h.range.mem i hi).2⟩⟩
  fixed := h.fixed
  phase := rfl
  jumpsLeft := rfl

/-- A pass over response filters is work of their phase. -/
theorem worked_of_responsePass {start : Nat} {s : Stream σ} {r : SetPassed σ}
    {new : List (Event σ)} {is : List Nat} (hp : s.phase = .filterResponse)
    (h : ResponsePass .beforeSend start s.filters s.board r new is) (m : Message) :
    Worked start s { s with filters := r.filters, board := r.bench.board, response := m }
      new is where
  moves := h.moves
  log := h.log
  within e he := Event.within_of_pass (by rw [hp]; rfl) (h.kinds e he)
  once := by
    rw [List.countP_eq_zero.mpr fun e he => by simp [Event.isOutward_of_pass (h.kinds e he)]]
    exact Nat.zero_le _
  calls side := by
    rw [hp]
    cases side with
    | request => exact List.filterMap_eq_nil_iff.mpr fun e he =>
        Event.call?_of_pass (by decide) (h.kinds e he)
    | response => exact h.calls
  rising := h.range.rising
  bound i hi := by
    obtain ⟨hle, hmem⟩ := h.range.mem i hi
    refine ⟨hle, .inr ⟨hp, ?_⟩⟩
    have := (List.getElem?_eq_some_iff.mp hmem).1
    simpa using this
  fixed := h.fixed
  phase := rfl
  jumpsLeft := rfl

/-- **Request filters**: a waiting direct reply beats completion and a stop. -/
theorem executed_filterRequest {point : RequestPoint} {start : Nat} {s : Stream σ}
    (hp : s.phase = point.phase) (ho : s.board.owned = true) :
    ∃ new is, Executed start s (s.filterRequest β point start).1
      (s.filterRequest β point start).2 new is := by
  have hside : s.phase.side? = some .request := by rw [hp, RequestPoint.side?_phase]
  obtain ⟨new, is, hpass⟩ := passRequests_spec β start s.settings.convert s.filters
    ⟨s.board, s.request.parts⟩ point ho
  unfold filterRequest
  dsimp only at hpass ⊢
  generalize passRequests β point start s.settings.convert s.filters
    ⟨s.board, s.request.parts⟩ = r at hpass ⊢
  have h := worked_of_requestPass hp hpass r.bench.parts.message
  have ha : Awake s { s with
    filters := r.filters, board := r.bench.board, request := r.bench.parts.message } := ⟨rfl, rfl⟩
  have hinit : s.phase ≠ .init := by rw [hp]; cases point <;> decide
  have hreply {reply : Message} (hr : r.bench.board.reply = some reply) :
      ∃ new is, Executed start s (.goto .filterResponse) { s with
        filters := r.filters
        board := r.bench.board.takeReply.2
        request := r.bench.parts.message
        response := reply } new is := by
    have h' := h.edit (b := r.bench.board.takeReply.2) ⟨rfl, rfl, rfl, rfl, rfl, .inr rfl, id⟩
    refine ⟨_, is, .reply (h'.congr rfl rfl rfl rfl) ⟨rfl, rfl⟩ hside fun hb => ?_⟩
    obtain ⟨code, headers, _, hmem⟩ := (h.moves.books hb).signed reply hr
    exact ⟨code, headers, hmem⟩
  cases hres : r.result with
  | error p => exact ⟨_, is, .escape h ha hinit⟩
  | ok outcome =>
    cases outcome with
    | completed =>
      cases hr : r.bench.board.reply with
      | none => exact ⟨_, is, .next h ha (by rw [hp]; cases point <;> decide)⟩
      | some reply =>
        simp only [hr, Option.isSome_some, if_true, shortcut, takeReply]
        exact hreply hr
    | resumeAt q =>
      obtain ⟨hagain, hq⟩ := hpass.again q hres
      simp only [takeAgain, hagain, Option.getD_some]
      have hfixed := h.fixed
      exact ⟨_, is, .jump { h with fixed := ⟨hfixed.requests, hfixed.responses, hfixed.seats⟩ }
        ⟨rfl, rfl⟩ hp hq
        (hres ▸ List.mem_cons_self)⟩
    | stopped n =>
      cases hr : r.bench.board.reply with
      | none =>
        obtain ⟨new, h⟩ := h.executed_pause ha (by rw [hside]; rfl) (hpass.range.stopped n hres)
        exact ⟨new, is, h⟩
      | some reply =>
        simp only [hr, Option.isSome_some, if_true, shortcut, takeReply]
        exact hreply hr
    | aborted cause =>
      obtain ⟨new, h⟩ := h.noteAbort cause
      exact ⟨new, is, .finish h (ha.noteAbort cause) hinit⟩

/-- **Response filters**: direct replies are refused from here on. -/
theorem executed_filterResponse {start : Nat} {s : Stream σ} (hp : s.phase = .filterResponse)
    (ho : s.board.owned = true) :
    ∃ new is, Executed start s (s.filterResponse β start).1
      (s.filterResponse β start).2 new is := by
  obtain ⟨new, is, hpass⟩ := passResponses_spec β start .keep s.filters
    ⟨s.board.closeReply.2, s.response.parts⟩ .beforeSend ho
  have hclosed : Move s.board s.board.closeReply.2 :=
    .edit ⟨rfl, rfl, rfl, rfl, rfl, .inr rfl, fun _ => rfl⟩
  unfold filterResponse passResponse
  dsimp only at hpass ⊢
  generalize passResponses β .beforeSend start .keep s.filters
    ⟨s.board.closeReply.2, s.response.parts⟩ = r at hpass ⊢
  have hwork := worked_of_responsePass (s := { s with board := s.board.closeReply.2 }) hp hpass
    r.bench.parts.message
  have h : Worked start s { s with
      filters := r.filters, board := r.bench.board, response := r.bench.parts.message } new is :=
    { hwork with moves := hwork.moves.head hclosed }
  have ha : Awake s { s with
    filters := r.filters, board := r.bench.board, response := r.bench.parts.message } := ⟨rfl, rfl⟩
  have hnext : s.phase ∉ [.awaitResponse, .respond, .done] := by rw [hp]; decide
  have hinit : s.phase ≠ .init := by rw [hp]; decide
  cases hres : r.result with
  | error p => exact ⟨_, is, .escape h ha hinit⟩
  | ok outcome =>
    cases outcome with
    | completed => exact ⟨_, is, .next h ha hnext⟩
    | resumeAt q => exact ⟨_, is, .next h ha hnext⟩
    | stopped n =>
      obtain ⟨new, h⟩ := h.executed_pause ha (by rw [hp]; rfl) (hpass.range.stopped n hres)
      exact ⟨new, is, h⟩
    | aborted cause =>
      obtain ⟨new, h⟩ := h.noteAbort cause
      exact ⟨new, is, .finish h (ha.noteAbort cause) hinit⟩

end Stream

/-! ## Collaborators -/

namespace Turn

open Board FilterSet FilterProxy.Stream

variable (c : Surroundings σ ε) (start : Nat) {t : Turn σ ε}

/-- A stream that calls a collaborator logs the call and nothing else. -/
theorem worked_outward {s : Stream σ} {e : Event σ} (hc : s.board.claimed = false)
    (hs : s.phase.side? = none) (hw : e.Within s.phase) (he : e.isEffect = true) :
    Worked start s (s.note e) [e] [] :=
  .silent hs (.single (.effect _ he hc)) rfl (by simpa using hw)
    (by simpa using List.countP_le_length (p := Event.isOutward) (l := [e])) (.refl _) rfl rfl

theorem executed_matchRoute (hp : t.stream.phase = .matchRoute)
    (hc : t.stream.board.claimed = false) :
    ∃ new is, Executed start t.stream (t.matchRoute c).1 (t.matchRoute c).2.stream new is := by
  have h := worked_outward start hc (by rw [hp]; rfl)
    (e := .routed (t.stream.request.headers.getD {})
      ((c.reload t.env c.routing).1.find (t.stream.request.headers.getD {}))) hp rfl
  have hinit : t.stream.phase ≠ .init := by rw [hp]; decide
  unfold matchRoute
  dsimp only
  split
  case h_1 p hr => exact ⟨_, _, .escape h ⟨rfl, rfl⟩ hinit⟩
  case h_2 hr => exact ⟨_, _, .finish h ⟨rfl, rfl⟩ hinit⟩
  case h_3 route hr =>
    exact ⟨_, _, .next (h.edit ⟨rfl, rfl, rfl, rfl, rfl, .inl rfl, id⟩) ⟨rfl, rfl⟩
      (by rw [hp]; decide)⟩

theorem executed_chooseHost (hp : t.stream.phase = .chooseHost)
    (hc : t.stream.board.claimed = false) :
    ∃ new is, Executed start t.stream (t.chooseHost c).1 (t.chooseHost c).2.stream new is := by
  have hs : t.stream.phase.side? = none := by rw [hp]; rfl
  have hinit : t.stream.phase ≠ .init := by rw [hp]; decide
  unfold chooseHost
  split
  case h_1 hr =>
    exact ⟨[], [], .finish (.silent hs .refl rfl (by simp) (by simp) (.refl _) rfl rfl) ⟨rfl, rfl⟩
      hinit⟩
  case h_2 route hr =>
    have h := worked_outward start hc hs
      (e := .chosen route (t.stream.request.headers.getD {})
        (c.choose t.env route (t.stream.request.headers.getD {})).1) hp rfl
    dsimp only
    split
    case h_1 p _ => exact ⟨_, _, .escape h ⟨rfl, rfl⟩ hinit⟩
    case h_2 failure _ => exact ⟨_, _, .finish h ⟨rfl, rfl⟩ hinit⟩
    case h_3 host _ =>
      have h' := h.edit (b := { (t.stream.note (.chosen route (t.stream.request.headers.getD {})
        (c.choose t.env route (t.stream.request.headers.getD {})).1)).board with
          info := { t.stream.board.info with host := some host.address } })
        ⟨rfl, rfl, rfl, rfl, rfl, .inl rfl, id⟩
      exact ⟨_, _, .next (h'.congr rfl rfl rfl rfl) ⟨rfl, rfl⟩ (by rw [hp]; decide)⟩

/-- A response comes as a job. -/
theorem answer_responded {s : Stream σ} (ho : s.board.owned = true) (m : Message) :
    answer s (.responded m) = s.note (.scheduled (.response m)) := by
  simp [answer, schedule_of_owned ho, Stream.note]

/-- Answering a forwarded request moves the board alone, as anything from outside may. -/
theorem answer_spec (s : Stream σ) (h : Handover) (ho : s.board.owned = true) :
    ∃ new, (answer s h).board.log = new ++ s.board.log ∧ (∀ e ∈ new, e.isOutside = true) ∧
      Moves s.board (answer s h).board ∧ answer s h = { s with board := (answer s h).board } := by
  cases h with
  | kept => exact ⟨[], rfl, by simp, .refl, rfl⟩
  | dropped => exact ⟨[], rfl, by simp, .refl, rfl⟩
  | responded m =>
    rw [answer_responded ho]
    exact ⟨[.scheduled (.response m)], rfl, by simp [Event.isOutside], .single (.note _ rfl), rfl⟩
  | failed failure =>
    obtain ⟨new, hlog, hnew⟩ := terminate_log s.board .hostFailure ho
    exact ⟨new, hlog, hnew, .single (.terminate _ _ ho), rfl⟩

theorem executed_forward (hp : t.stream.phase = .forward) (hc : t.stream.board.claimed = false)
    (ho : t.stream.board.owned = true) :
    ∃ new is, Executed start t.stream (t.forward c).1 (t.forward c).2.stream new is := by
  have hs : t.stream.phase.side? = none := by rw [hp]; rfl
  have hinit : t.stream.phase ≠ .init := by rw [hp]; decide
  unfold forward
  split
  case h_1 hr =>
    exact ⟨[], [], .finish (.silent hs .refl rfl (by simp) (by simp) (.refl _) rfl rfl) ⟨rfl, rfl⟩
      hinit⟩
  case h_2 host hr =>
    dsimp only
    generalize c.forward t.env t.stream.board.context.id host t.stream.request = r
    have h := worked_outward start hc hs
      (e := .forwarded host t.stream.request r.1) hp rfl
    obtain ⟨new, hlog, hnew, hmoves, heq⟩ :=
      answer_spec (t.stream.note (.forwarded host t.stream.request r.1)) r.1.handover ho
    have h' : Worked start t.stream
        (answer (t.stream.note (.forwarded host t.stream.request r.1)) r.1.handover)
        (new ++ [.forwarded host t.stream.request r.1]) [] := by
      refine .silent hs (h.moves.trans hmoves) (by rw [hlog, List.append_assoc]; rfl) ?_ ?_ ?_ ?_ ?_
      · rintro e he
        rcases List.mem_append.mp he with he | he
        · exact Event.within_of_isOutside (hnew e he)
        · exact h.within e he
      · rw [List.countP_append, List.countP_eq_zero.mpr fun e he => by
          simp [Event.isOutward_of_isOutside (hnew e he)]]
        exact (Nat.zero_add _).symm ▸ h.once
      · rw [heq]; exact .refl _
      · rw [heq]; rfl
      · rw [heq]; rfl
    have ha : Awake t.stream
        (answer (t.stream.note (.forwarded host t.stream.request r.1)) r.1.handover) := by
      rw [heq]; exact ⟨rfl, rfl⟩
    split
    case h_1 p _ => exact ⟨_, _, .escape h' ha hinit⟩
    case h_2 _ => exact ⟨_, _, .next h' ha (by rw [hp]; decide)⟩

theorem executed_respond (hp : t.stream.phase = .respond) (hc : t.stream.board.claimed = false) :
    ∃ new is, Executed start t.stream (t.respond c).1 (t.respond c).2.stream new is := by
  have hs : t.stream.phase.side? = none := by rw [hp]; rfl
  have hinit : t.stream.phase ≠ .init := by rw [hp]; decide
  have written {board : Board σ} (hedit : t.stream.board.Edits board) (response : Message)
      (answer : Except Panic (Except Failure Unit)) :
      Worked start t.stream
        ({ t.stream with board := board, response := {} }.note (.written response answer))
        [.written response answer] [] := by
    have hwrite := worked_outward start (s := { t.stream with board := board, response := {} })
      (hedit.claimed.trans hc) hs (e := .written response answer) hp rfl
    exact { hwrite with
      moves := hwrite.moves.head (.edit hedit), log := by rw [hwrite.log, hedit.log] }
  unfold respond
  dsimp only
  -- only a response with a code leaves its code behind; the rest is the same
  cases (t.stream.board.putReplaced t.stream.response.parts).1.message.code?
  all_goals
    dsimp only
    split
    case h_1 =>
      refine ⟨_, _, .escape (written ?_ _ _) ⟨rfl, rfl⟩ hinit⟩
      exact ⟨rfl, rfl, rfl, rfl, rfl, .inl rfl, id⟩
    case h_2 =>
      refine ⟨_, _, .finish (written ?_ _ _) ⟨rfl, rfl⟩ hinit⟩
      exact ⟨rfl, rfl, rfl, rfl, rfl, .inl rfl, id⟩
    case h_3 =>
      refine ⟨_, _, .finish ((written ?_ _ _).log_one (e := .stat (.phaseCompleted .respond))
        (.note _ rfl) rfl ⟨rfl, hp⟩ rfl fun _ => rfl) ⟨rfl, rfl⟩ hinit⟩
      exact ⟨rfl, rfl, rfl, rfl, rfl, .inl rfl, id⟩

/-- **Every phase of a stream nobody has claimed is executed as told.** -/
theorem executed_step (hd : t.stream.phase ≠ .done) (hc : t.stream.board.claimed = false)
    (ho : t.stream.board.owned = true) :
    ∃ new is, Executed start t.stream (t.step c start).1 (t.step c start).2.stream new is := by
  have idle (hs : t.stream.phase.side? = none) : Worked start t.stream t.stream [] [] :=
    .silent hs .refl rfl (by simp) (by simp) (.refl _) rfl rfl
  unfold step
  split
  case h_1 hp => exact ⟨_, _, .next (idle (by rw [hp]; rfl)) ⟨rfl, rfl⟩ (by rw [hp]; decide)⟩
  case h_2 hp => exact executed_filterRequest c.behaviour hp ho
  case h_3 hp => exact executed_matchRoute c start hp hc
  case h_4 hp => exact executed_filterRequest c.behaviour hp ho
  case h_5 hp => exact executed_chooseHost c start hp hc
  case h_6 hp => exact executed_filterRequest c.behaviour hp ho
  case h_7 hp => exact executed_forward c start hp hc ho
  case h_8 hp => exact ⟨_, _, .rest (idle (by rw [hp]; rfl)) ⟨rfl, rfl⟩ (.inl hp)⟩
  case h_9 hp => exact executed_filterResponse c.behaviour hp ho
  case h_10 hp => exact executed_respond c start hp hc
  case h_11 hp => exact absurd hp hd

end Turn

end FilterProxy
