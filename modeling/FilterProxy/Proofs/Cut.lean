import FilterProxy.Proofs.Recast
import FilterProxy.Proofs.Visits

/-!
# Proofs/Cut — a turn that is cut in two

Two runs agree up to the answer of one filter, which stops the stream in one of them and lets it go
on in the other (`Turn.Cut`).  Then **the second pass goes on like one that starts behind that
filter** (`Chain.pass_of_cut`).  So the stream as the filter left it, off its log, tells both what
the second run does now and what the first one will do once it is resumed (`Turn.Severed`).
-/

namespace FilterProxy

variable {σ ε : Type}

namespace Chain

variable {φ π ω : Type}

/-- **Two ways to call differ in the answer to the last call only**: the one stops the pass there,
the other lets it walk on. -/
structure Cut (convert : Converter) (stopping going : Nat → φ → ω → Called φ ω)
    (before : List (Visit φ ω)) (v : Visit φ ω) : Prop where
  alike : ∀ u ∈ before, going u.index u.filter u.state = u.left
  /-- No wish to go back was passed over. -/
  wishless : ∀ u ∈ before, u.wish? = none
  stop : v.left.answer = .ok .stop
  go : going v.index v.filter v.state = ⟨.ok .proceed, v.left.filter, v.left.state⟩
  convert_stop : convert .stop = .ok .stop
  convert_proceed : convert .proceed = .ok .proceed

variable [DecidableEq π] {point : π} {start : Nat} {convert : Converter}
  {stopping going : Nat → φ → ω → Called φ ω}

/-- Behind the start it does not matter where the pass started. -/
theorem passFrom_start {start' : Nat} (call : Nat → φ → ω → Called φ ω) (wish : Option Phase)
    (index : Nat) (chain : Chain φ π) (w : ω) (hs : start ≤ index) (hs' : start' ≤ index) :
    passFrom point start convert call wish index chain w
      = passFrom point start' convert call wish index chain w := by
  induction chain generalizing wish index w with
  | nil => rfl
  | cons e rest ih =>
    have ih (wish : Option Phase) (w : ω) :=
      ih wish (index + 1) w (Nat.le_succ_of_le hs) (Nat.le_succ_of_le hs')
    simp only [passFrom, hs, hs', true_and, ih]

/-- The one pass stops at this filter, and the other one goes on like a pass that starts behind
it. -/
theorem passFrom_cut_here {wish : Option Phase} {index : Nat} {e : Entry φ π} {w : ω}
    (rest : Chain φ π) (he : start ≤ index ∧ e.point = point)
    (hcut : Cut convert stopping going [] ⟨index, e.filter, w, stopping index e.filter w⟩) :
    let r := passFrom point start convert stopping wish index (e :: rest) w
    r.result = .ok (.stopped index) ∧ r.state = (stopping index e.filter w).state ∧
      passFrom point start convert going wish index (e :: rest) w
        = passFrom point (index + 1) convert going wish index r.chain r.state := by
  have hgo : going index e.filter w = ⟨.ok .proceed, _, _⟩ := hcut.go
  have hstop : halts convert index (stopping index e.filter w).answer
    = some (.ok (.stopped index)) := by
    rw [show (stopping index e.filter w).answer = .ok .stop from hcut.stop, halts,
      hcut.convert_stop]
    rfl
  rw [passFrom_halt he hstop, passFrom_walk he (congrArg Called.answer hgo) hcut.convert_proceed,
    hgo]
  refine ⟨rfl, rfl, ?_⟩
  rw [passFrom_skip fun h => Nat.not_succ_le_self index h.1]
  dsimp only
  rw [show (Verdict.proceed.target? <|> wish) = wish from rfl]
  rw [passFrom_start going wish (index + 1) rest _ (Nat.le_succ_of_le he.1)
    (Nat.le_refl (index + 1))]

/-- **A pass that walks on where another one stops goes on like a pass that starts behind it.** -/
theorem passFrom_of_cut {v : Visit φ ω} :
    ∀ (wish : Option Phase) (index : Nat) (chain : Chain φ π) (w : ω)
    (before : List (Visit φ ω)), visitsFrom point start convert stopping wish index chain w
      = before ++ [v] →
      Cut convert stopping going before v →
      let r := passFrom point start convert stopping wish index chain w
      r.result = .ok (.stopped v.index) ∧ r.state = v.left.state ∧ index ≤ v.index ∧
        passFrom point start convert going wish index chain w
          = passFrom point (v.index + 1) convert going wish index r.chain r.state
  | wish, index, [], w, before, hv, _ => by
    cases List.append_ne_nil_of_right_ne_nil before (List.cons_ne_nil v []) hv.symm
  | wish, index, e :: rest, w, before, hv, hcut => by
    by_cases he : start ≤ index ∧ e.point = point
    case neg =>
      rw [visitsFrom_skip he] at hv
      obtain ⟨hresult, hstate, hle, hrest⟩ := passFrom_of_cut wish (index + 1) rest w before hv hcut
      rw [passFrom_skip he, passFrom_skip he, hrest]
      refine ⟨hresult, hstate, Nat.le_of_succ_le hle, ?_⟩
      rw [passFrom_skip (by omega)]
    rcases halts_or_walks convert index (stopping index e.filter w).answer
      with ⟨result, hh⟩ | ⟨raw, ha, hc⟩
    case inl =>
      -- the call that halts the pass is the last one, which stops it
      rw [visitsFrom_halt he hh] at hv
      obtain ⟨rfl, hlast⟩ := List.append_eq_singleton_iff.mp hv.symm |>.resolve_right (by simp)
      obtain rfl := (List.cons.inj hlast).1
      obtain ⟨hresult, hstate, hrest⟩ := passFrom_cut_here rest he hcut
      exact ⟨hresult, hstate, Nat.le_refl _, hrest⟩
    case inr =>
      rw [visitsFrom_walk he ha hc] at hv
      cases before with
      | nil =>
        obtain ⟨rfl, -⟩ := List.cons.inj hv
        obtain rfl := Except.ok.inj (ha.symm.trans hcut.stop)
        cases hc.symm.trans hcut.convert_stop
      | cons u before =>
        obtain ⟨rfl, hvisits⟩ := List.cons.inj hv
        obtain ⟨halike, hlater⟩ := List.forall_mem_cons.mp hcut.alike
        obtain ⟨hwish, hwishless⟩ := List.forall_mem_cons.mp hcut.wishless
        have halike : going index e.filter w = stopping index e.filter w := halike
        have hwish : (raw.target? <|> wish) = wish := by
          rw [show raw.target? = none by rw [← hwish, Visit.wish?, ha]]
          rfl
        rw [hwish] at hvisits
        obtain ⟨hresult, hstate, hle, hrest⟩ := passFrom_of_cut wish (index + 1) rest _
          before hvisits
          { hcut with alike := hlater, wishless := hwishless }
        rw [passFrom_walk he ha hc, passFrom_walk he (halike ▸ ha) hc, halike, hwish, hrest]
        refine ⟨hresult, hstate, Nat.le_of_succ_le hle, ?_⟩
        rw [passFrom_skip (by omega)]

/-- **A pass that walks on where another one stops does what the other one and a pass behind it
do.** -/
theorem pass_of_cut {chain : Chain φ π} {w : ω} {before : List (Visit φ ω)} {v : Visit φ ω}
    (hv : chain.visits point start convert stopping w = before ++ [v])
    (hcut : Cut convert stopping going before v) :
    ∃ chain' : Chain φ π,
      chain.pass point start convert stopping w = ⟨.ok (.stopped v.index), chain', v.left.state⟩ ∧
      chain.pass point start convert going w = chain'.pass point
        (v.index + 1) convert going v.left.state := by
  obtain ⟨hresult, hstate, -, hrest⟩ := passFrom_of_cut none 0 chain w before hv hcut
  have hpass : chain.pass point start convert stopping w = ⟨_, _, _⟩ := rfl
  refine ⟨(chain.pass point start convert stopping w).chain, ?_, hstate ▸ hrest⟩
  rw [hpass, ← hresult, ← hstate]

end Chain

/-! ## What a callback leaves on the board -/

namespace Board

/-- The board of a stream whose filters read `point` as long as nobody claims it.  No reply was
logged last: its job was. -/
structure Attends (point : Option RequestPoint) (b : Board σ) : Prop where
  owned : b.owned = true
  point : b.claimed = false → b.point = point
  latest : b.log.head?.any Event.isReply = false

namespace Attends

variable {point : Option RequestPoint} {b : Board σ}

theorem note (h : b.Attends point) {e : Event σ} (he : e.isReply = false) :
    (b.note e).Attends point :=
  ⟨h.owned, h.point, he⟩

theorem schedule (h : b.Attends point) (job : Job) : (b.schedule job).Attends point := by
  rw [schedule_of_owned h.owned]
  exact h.note rfl

theorem perform (h : b.Attends point) {side : Side} (index : Nat) (x : Action side) :
    (b.perform index x).Attends point := by
  cases x with
  | reply code headers =>
    cases hc : b.closed with
    | true =>
      simp only [Board.perform, raise, hc, if_true]
      exact h.note rfl
    | false =>
      simp only [Board.perform, raise, hc, Bool.false_eq_true, if_false, if_true]
      rw [schedule_of_owned]
      · exact ⟨h.owned, h.point, rfl⟩
      · exact h.owned
  | replaceHeaders | replaceData | replaceTrailers => exact ⟨h.owned, h.point, h.latest⟩
  | resume => exact h.schedule _
  | terminate =>
    simp only [Board.perform, h.owned, if_true]
    cases hc : b.claimed with
    | true =>
      rw [terminate_of_claimed hc]
      exact h
    | false =>
      rw [terminate_of_unclaimed h.owned hc]
      exact ⟨h.owned, fun hclaimed => absurd hclaimed.symm Bool.false_ne_true, rfl⟩

theorem run {α : Type} {side : Side} (h : b.Attends point) (filter : σ) (index : Nat)
    (program : Program side α) :
    (program.run filter index b).2.Attends point := by
  induction program generalizing b with
  | done a => exact h
  | act x rest ih => exact ih (h.perform index x)
  | look rest ih => exact ih _ (h.note rfl)

end Attends

end Board

namespace FilterSet

open Board

variable {point : Option RequestPoint} {w : Workbench σ}

/-- **A filter that is called stays on its seat.** -/
theorem seat_left {π : Type} [DecidableEq π] {p : π} {start : Nat} {convert : Converter}
    {call : Nat → Seated σ → Workbench σ → Chain.Called (Seated σ) (Workbench σ)}
    (hcall : ∀ i f w, (call i f w).filter.seat = f.seat) {chain : Chain (Seated σ) π}
    {before : List (Chain.Visit (Seated σ) (Workbench σ))}
    {v : Chain.Visit (Seated σ) (Workbench σ)}
    (hv : chain.visits p start convert call w = before ++ [v]) :
      v.left.filter.seat = v.filter.seat := by
  have hmeets := Chain.meets_pass p start convert call chain w
  rw [hv] at hmeets
  rw [hmeets.threaded.left_eq, hcall]

theorem attends_callRequest (β : Behaviour σ) (h : w.board.Attends point) (i : Nat) (f : Seated σ) :
    (callRequest β i f w).state.board.Attends point :=
  (h.note rfl).run f.filter f.seat _

theorem attends_callResponse (β : Behaviour σ) (h : w.board.Attends point) (i : Nat)
    (f : Seated σ) :
    (callResponse β i f w).state.board.Attends point := by
  have hput : (w.board.putReplaced w.parts).2.Attends point := ⟨h.owned, h.point, h.latest⟩
  have hcalled :=
    hput.note (e := .called .response i f.filter w.board.point (w.board.putReplaced w.parts).1) rfl
  have hrun := hcalled.run f.filter f.seat
    (β.onResponse f.filter w.board.context (w.board.putReplaced w.parts).1)
  unfold callResponse
  dsimp only
  split
  · exact hrun
  · exact ⟨hrun.owned, hrun.point, hrun.latest⟩

theorem attends_pass {π : Type} [DecidableEq π] (p : π) (start : Nat) (convert : Converter)
    {φ : Type} {call : Nat → φ → Workbench σ → Chain.Called φ (Workbench σ)}
    (hcall : ∀ {w}, w.board.Attends point → ∀ i f, (call i f w).state.board.Attends point)
    (chain : Chain φ π) (h : w.board.Attends point) :
    (chain.pass p start convert call w).state.board.Attends point := by
  obtain ⟨is, hp⟩ : ∃ is, Chain.Passes p start convert call none 0 chain w is _ :=
    Chain.passes_passFrom none 0 chain w
  exact hp.keeps (P := fun w => w.board.Attends point) (fun i f _ hw => hcall hw i f) h

end FilterSet

/-! ## The stream where it is cut -/

/-- What is noted of a pass of the phase that the filter at a position stopped. -/
def Phase.stopped (p : Phase) (i : Nat) : List (Event σ) :=
  match p with
  | .filterRequest => [.passed .beforeRoute (.ok (.stopped i))]
  | .filterRouted => [.passed .afterRoute (.ok (.stopped i))]
  | .filterHosted => [.passed .afterHost (.ok (.stopped i))]
  | _ => []

namespace Stream

variable (s : Stream σ)

/-- **What a filter that stops the stream and then has it go on adds to the log**, latest first: the
stopped pass, the pause with its time limit, the call to go on, and the phase entered once more. -/
def interlude (side : Side) (i : Nat) : List (Event σ) :=
  .entered s.phase :: .published .running :: .scheduled (.resume (some (side, i))) ::
    ((s.settings.stopTimeout.map fun delay => .armed delay (s.generation + 1)).toList ++
      .published (.paused s.phase) :: s.phase.stopped i)

/-- The stream without its log. -/
def bare : Stream σ := { s with board := { s.board with log := [] } }

theorem bare_recast_zero : s.bare.recast 0 s.board.log = s := by
  rw [recast, Nat.zero_add]
  rfl

/-- The stream once a pass over request filters has come as far as this. -/
def inRequests (chain : Chain (Seated σ) RequestPoint) (w : Workbench σ) : Stream σ :=
  { s with
    filters := { s.filters with requests := chain }, board := w.board, request := w.parts.message }

/-- The stream once a pass over response filters has come as far as this. -/
def inResponses (chain : Chain (Seated σ) ResponsePoint) (w : Workbench σ) : Stream σ :=
  { s with
    filters := { s.filters with responses := chain }, board := w.board,
    response := w.parts.message }

/-- The stream once its pass was stopped by the filter at `i`; handles read `point` from now on. -/
def stoppedAt (i : Nat) (point : Option RequestPoint) : Stream σ :=
  { s with board := { s.board with point := point, log := s.phase.stopped i ++ s.board.log } }

/-- The stream once it rests at that filter. -/
def pausedAt (i : Nat) (point : Option RequestPoint) : Stream σ := ((s.stoppedAt i point).pause i).2

/-- The filter at `i` calls for the stream to go on. -/
def beckoned (side : Side) (i : Nat) : Stream σ :=
  { s with board := s.board.schedule (.resume (some (side, i))) }

variable {s}

/-- A stream that rests at a filter is as it was otherwise. -/
theorem pausedAt_keeps (hc : s.board.claimed = false) (i : Nat) (point : Option RequestPoint) :
    (s.pausedAt i point).pausedBy = some i ∧ (s.pausedAt i point).board.claimed = false ∧
      (s.pausedAt i point).board.reply = s.board.reply ∧ (s.pausedAt i point).phase = s.phase ∧
      (s.pausedAt i point).jumpsLeft = s.jumpsLeft := by
  rw [pausedAt, pause_of_unclaimed (s := s.stoppedAt i point) i hc]
  cases (s.stoppedAt i point).settings.stopTimeout <;> exact ⟨rfl, hc, rfl, rfl, rfl⟩

/-- **A pause that the filter itself ends leaves nothing behind** but its number, the log, and the
point that handles read. -/
theorem entered_woken (hc : s.board.claimed = false) (ho : s.board.owned = true)
    (hb : s.pausedBy = none)
    (hs : s.board.status = .running) (side : Side) (i : Nat) (point : Option RequestPoint) :
    ((s.pausedAt i point).beckoned side i).woken.entered
      = let y := s.bare.recast 1 (s.interlude side i ++ s.board.log)
        { y with board := { y.board with point := point } } := by
  rw [pausedAt, pause_of_unclaimed (s := s.stoppedAt i point) i hc]
  rcases s with ⟨settings, ⟨context, owned, _, claimed, _, _, _, _, _, status, log⟩, _,
    phase, _, _, _, _,
    pausedBy, n⟩
  subst hb hs ho
  simp only [beckoned, stoppedAt, woken, entered, halted, bare, recast, Board.recast, interlude,
    Nat.add_comm 1 n]
  cases settings.stopTimeout with
  | none => simp [Board.schedule, Board.publish, note, Board.note]
  | some delay => simp [Board.schedule, Board.publish, note, Board.note]

/-- A pass of request filters sets their point itself. -/
theorem filterRequest_point (β : Behaviour σ) (point : RequestPoint) (k : Nat) (s : Stream σ)
    (q : Option RequestPoint) :
    ({ s with board := { s.board with point := q } } : Stream σ).filterRequest β point k
      = s.filterRequest β point k := rfl

/-- **Request filters that go on behind one of them** do what they do from there in the stream as it
left it. -/
theorem filterRequest_inRequests (β : Behaviour σ) (point : RequestPoint) {k n : Nat}
    {chain : Chain (Seated σ) RequestPoint} {w : Workbench σ} (hc : w.board.point = some point)
    (hpass : s.filters.requests.pass point k s.settings.convert (FilterSet.callRequest β)
        ⟨{ s.board with point := some point }, s.request.parts⟩
      = chain.pass point n s.settings.convert (FilterSet.callRequest β) w) :
    s.filterRequest β point k = (s.inRequests chain w).filterRequest β point n := by
  have hconclude (s : Stream σ) (k : Nat) : s.filterRequest β point k
      = let r := s.filters.passRequests β point k s.settings.convert ⟨s.board, s.request.parts⟩
        conclude { s with
          filters := r.filters, board := r.bench.board, request := r.bench.parts.message }
            r.result := rfl
  have hw : w = { w with board := { w.board with point := some point } } := by rw [← hc]
  have hset : s.filters.passRequests β point k s.settings.convert ⟨s.board, s.request.parts⟩
      = FilterSet.passRequests β point n s.settings.convert
        { s.filters with requests := chain } w := by
    unfold FilterSet.passRequests
    dsimp only
    rw [hpass, ← hw]
  rw [hconclude, hconclude, hset]
  rfl

theorem filterResponse_inResponses (β : Behaviour σ) {k n : Nat}
    {chain : Chain (Seated σ) ResponsePoint} {w : Workbench σ}
    (hclosed : w.board.closed = true) (hr : w.board.reply = none)
    (hpass : s.filters.responses.pass .beforeSend k .keep (FilterSet.callResponse β)
        ⟨s.board.closeReply.2, s.response.parts⟩
      = chain.pass .beforeSend n .keep (FilterSet.callResponse β) w) :
    s.filterResponse β k = (s.inResponses chain w).filterResponse β n := by
  have hw : w = ⟨w.board.closeReply.2, w.parts⟩ := by
    rw [Board.closeReply, ← hr, ← hclosed]
  have hset : FilterSet.passResponses β .beforeSend k .keep s.filters
    ⟨s.board.closeReply.2, s.response.parts⟩
      = FilterSet.passResponses β .beforeSend n .keep { s.filters with responses := chain }
        ⟨w.board.closeReply.2, w.parts⟩ := by
    unfold FilterSet.passResponses
    dsimp only
    rw [hpass, ← hw]
  unfold filterResponse passResponse
  dsimp only
  rw [hset]
  rfl

/-- Response filters that one of them stops pause the stream. -/
theorem filterResponse_stopped (β : Behaviour σ) {k i : Nat}
    {chain : Chain (Seated σ) ResponsePoint} {w : Workbench σ}
    (hpass : s.filters.responses.pass .beforeSend k .keep (FilterSet.callResponse β)
      ⟨s.board.closeReply.2, s.response.parts⟩ = ⟨.ok (.stopped i), chain, w⟩) :
    s.filterResponse β k = (s.inResponses chain w).pause i := by
  unfold filterResponse passResponse FilterSet.passResponses
  dsimp only
  rw [hpass]
  rfl

/-- Request filters leave a board that later ones and handles find as it was… -/
theorem attends_requests (β : Behaviour σ) {point : RequestPoint} {k : Nat} {s : Stream σ}
    (ho : s.board.owned = true) {r : Chain.Passed (Seated σ) RequestPoint (Workbench σ)}
    (hr : s.filters.requests.pass point k s.settings.convert (FilterSet.callRequest β)
      ⟨{ s.entered.board with point := some point }, s.request.parts⟩ = r) :
    r.state.board.Attends (some point) ∧ r.state.board.status = s.board.status := by
  have hattends := FilterSet.attends_pass point k s.settings.convert
    (FilterSet.attends_callRequest β)
    s.filters.requests (w := ⟨{ s.entered.board with point := some point }, s.request.parts⟩)
      ⟨ho, fun _ => rfl, rfl⟩
  have hstirred := FilterSet.stirred_pass point k s.settings.convert
    (FilterSet.walked_callRequest β)
    s.filters.requests ⟨{ s.entered.board with point := some point }, s.request.parts⟩ ho
  rw [hr] at hattends hstirred
  exact ⟨hattends, hstirred.constant.2.1⟩

/-- …and response filters likewise, on which no reply is taken any more. -/
theorem attends_responses (β : Behaviour σ) {k : Nat} {s : Stream σ} (ho : s.board.owned = true)
    {r : Chain.Passed (Seated σ) ResponsePoint (Workbench σ)}
    (hr : s.filters.responses.pass .beforeSend k .keep (FilterSet.callResponse β)
      ⟨s.entered.board.closeReply.2, s.response.parts⟩ = r) :
    r.state.board.Attends s.board.point ∧ r.state.board.status = s.board.status ∧
      r.state.board.closed = true := by
  have hattends := FilterSet.attends_pass .beforeSend k .keep (FilterSet.attends_callResponse β)
    s.filters.responses
    (w := ⟨s.entered.board.closeReply.2, s.response.parts⟩) ⟨ho, fun _ => rfl, rfl⟩
  have hstirred := FilterSet.stirred_pass ResponsePoint.beforeSend k .keep
    (FilterSet.walked_callResponse β)
    s.filters.responses ⟨s.entered.board.closeReply.2, s.response.parts⟩ ho
  rw [hr] at hattends hstirred
  obtain ⟨hclosed, hstatus, -⟩ := hstirred.constant
  exact ⟨hattends, hstatus, hclosed⟩

end Stream

/-! ## Turns -/

namespace Turn

open Board FilterSet FilterProxy.Stream

/-- **Two turns that differ in one answer**: in the surroundings `c₁` the filter of `v` stops the
pass that the stream makes to execute its phase, in the surroundings `c` it does not.  What it
leaves is the same, with nobody having claimed the stream and no direct reply waiting. -/
inductive Cut (c₁ c : Surroundings σ ε) (k : Nat) (t : Turn σ ε) :
    Side → Chain.Visit (Seated σ) (Workbench σ) → Prop
  | request {point : RequestPoint} {before v} (hp : t.stream.phase = point.phase)
      (hv : t.stream.filters.requests.visits point k t.stream.settings.convert
        (callRequest c₁.behaviour)
        ⟨{ t.stream.entered.board with point := some point }, t.stream.request.parts⟩
          = before ++ [v])
      (hcut : Chain.Cut t.stream.settings.convert (callRequest c₁.behaviour)
        (callRequest c.behaviour) before v)
      (hc : v.left.state.board.claimed = false) (hr : v.left.state.board.reply = none) :
        Cut c₁ c k t .request v
  | response {before v} (hp : t.stream.phase = .filterResponse)
      (hv : t.stream.filters.responses.visits .beforeSend k .keep (callResponse c₁.behaviour)
        ⟨t.stream.entered.board.closeReply.2, t.stream.response.parts⟩ = before ++ [v])
      (hcut : Chain.Cut .keep (callResponse c₁.behaviour) (callResponse c.behaviour) before v)
      (hc : v.left.state.board.claimed = false) (hr : v.left.state.board.reply = none) :
        Cut c₁ c k t .response v

/-- **A turn cut in two at `z`**, the stream as the filter left it.  In the surroundings `c₁` the
stream rests in a pause.  In `c` it does what `z` does with the filters behind, now or once the
filter called for it to go on. -/
structure Severed (c₁ c : Surroundings σ ε) (k : Nat) (t : Turn σ ε) (side : Side)
    (v : Chain.Visit (Seated σ) (Workbench σ)) (z : Stream σ)
    (point : Option RequestPoint) : Prop where
  board : z.board = v.left.state.board
  owned : z.board.owned = true
  unclaimed : z.board.claimed = false
  reply : z.board.reply = none
  latest : z.board.log.head?.any Event.isReply = false
  settings : z.settings = t.stream.settings
  phase : z.phase = t.stream.phase
  jumpsLeft : z.jumpsLeft = t.stream.jumpsLeft
  generation : z.generation = t.stream.generation
  pausesAt : pausesAt t.stream.phase side = true
  stopped : t.execute c₁ k = (.rest, { t with stream := z.pausedAt v.index point })
  straight : t.execute c k = ({ t with stream := z } : Turn σ ε).step c (v.index + 1)
  again : ({ t with stream := ((z.pausedAt v.index point).beckoned side v.index).woken } :
    Turn σ ε).execute c
      (v.index + 1)
    = ({ t with stream := z.bare.recast 1 (z.interlude side v.index ++ z.board.log) } :
      Turn σ ε).step c
      (v.index + 1)

variable {c₁ c : Surroundings σ ε} {k : Nat} {t : Turn σ ε} {side : Side}
  {v : Chain.Visit (Seated σ) (Workbench σ)}

/-- A stream that the filter called back executes its phase like one that was never stopped there,
if its step does not read the point. -/
theorem execute_beckoned (c : Surroundings σ ε) {z : Stream σ} (hc : z.board.claimed = false)
    (ho : z.board.owned = true) (hb : z.pausedBy = none) (hs : z.board.status = .running)
    (side : Side) (i : Nat) (point : Option RequestPoint) (env : ε)
    (hpoint : ∀ y : Stream σ, y.phase = z.phase → y.board.point = z.board.point →
      Turn.step c (i + 1) ⟨{ y with board := { y.board with point := point } }, env⟩
        = Turn.step c (i + 1) ⟨y, env⟩) :
    Turn.execute c (i + 1) ⟨((z.pausedAt i point).beckoned side i).woken, env⟩
      = Turn.step c (i + 1) ⟨z.bare.recast 1 (z.interlude side i ++ z.board.log), env⟩ := by
  unfold execute
  dsimp only
  rw [entered_woken hc ho hb hs]
  exact hpoint (z.bare.recast 1 (z.interlude side i ++ z.board.log)) rfl rfl

theorem severed_request {point : RequestPoint}
    {before : List (Chain.Visit (Seated σ) (Workbench σ))}
    (ho : t.stream.board.owned = true) (hb : t.stream.pausedBy = none)
    (hs : t.stream.board.status = .running) (hp : t.stream.phase = point.phase)
    (hv : t.stream.filters.requests.visits point k t.stream.settings.convert
      (callRequest c₁.behaviour)
      ⟨{ t.stream.entered.board with point := some point }, t.stream.request.parts⟩ = before ++ [v])
    (hcut : Chain.Cut t.stream.settings.convert (callRequest c₁.behaviour)
      (callRequest c.behaviour) before v)
    (hc : v.left.state.board.claimed = false) (hr : v.left.state.board.reply = none) :
    ∃ z, t.Severed c₁ c k .request v z none := by
  obtain ⟨chain, hfirst, hpass⟩ := Chain.pass_of_cut hv hcut
  obtain ⟨hattends, hstatus⟩ := attends_requests c₁.behaviour ho hfirst
  have hz : (t.stream.inRequests chain v.left.state).phase = point.phase := hp
  have hnoted : (t.stream.phase.stopped v.index : List (Event σ))
    = [.passed point (.ok (.stopped v.index))] := by
    rw [hp]
    cases point <;> rfl
  have hpassed : (t.stream.pass c₁.behaviour point k).result = .ok (.stopped v.index) ∧
      t.stream.passed c₁.behaviour point k = (t.stream.inRequests chain v.left.state).stoppedAt
        v.index none := by
    unfold Stream.passed Stream.pass passRequests
    simp only [stoppedAt, inRequests, hnoted]
    rw [show t.stream.entered.filters.requests = t.stream.filters.requests from rfl, hfirst]
    exact ⟨rfl, rfl⟩
  refine ⟨t.stream.inRequests chain v.left.state, ?_⟩
  exact
    { board := rfl
      owned := hattends.owned
      unclaimed := hc
      reply := hr
      latest := hattends.latest
      settings := rfl
      phase := rfl
      jumpsLeft := rfl
      generation := rfl
      pausesAt := by rw [hp]; cases point <;> rfl
      stopped := by
        have hreply : ((t.stream.inRequests chain v.left.state).stoppedAt v.index none).board.reply
          = none := hr
        rw [execute_filters c₁ hp, filterRequest_entered, hpassed.1, hpassed.2, conclude, hreply,
          if_neg (show ¬ (none : Option Message).isSome = true from Bool.false_ne_true)]
        exact Prod.ext (pause_fst v.index _) rfl
      straight := by
        rw [execute_filters c hp,
          step_filters c (t := ⟨t.stream.inRequests chain v.left.state, t.env⟩) hz]
        rw [filterRequest_inRequests (s := t.stream.entered) c.behaviour point
          (hattends.point hc) hpass]
        rfl
      again := by
        refine execute_beckoned c (z := t.stream.inRequests chain v.left.state) hc hattends.owned hb
          (hstatus.trans hs) .request v.index none t.env fun y hy _ => ?_
        have hy : y.phase = point.phase := hy.trans hz
        rw [step_filters c (t := ⟨y, t.env⟩) hy]
        rw [step_filters c (t := ⟨{ y with board := { y.board with point := none } }, t.env⟩) hy]
        unfold alone
        dsimp only
        rw [filterRequest_point] }

theorem severed_response {before : List (Chain.Visit (Seated σ) (Workbench σ))}
    (ho : t.stream.board.owned = true) (hb : t.stream.pausedBy = none)
    (hs : t.stream.board.status = .running) (hp : t.stream.phase = .filterResponse)
    (hv : t.stream.filters.responses.visits .beforeSend k .keep (callResponse c₁.behaviour)
      ⟨t.stream.entered.board.closeReply.2, t.stream.response.parts⟩ = before ++ [v])
    (hcut : Chain.Cut .keep (callResponse c₁.behaviour) (callResponse c.behaviour) before v)
    (hc : v.left.state.board.claimed = false) (hr : v.left.state.board.reply = none) :
    ∃ z, t.Severed c₁ c k .response v z z.board.point := by
  obtain ⟨chain, hfirst, hpass⟩ := Chain.pass_of_cut hv hcut
  obtain ⟨hattends, hstatus, hclosed⟩ := attends_responses c₁.behaviour ho hfirst
  have hz : (t.stream.inResponses chain v.left.state).phase = .filterResponse := hp
  have hnoted : ((t.stream.inResponses chain v.left.state).phase.stopped v.index : List (Event σ))
    = [] := by
    rw [hz]
    rfl
  have hpaused : (t.stream.inResponses chain v.left.state).stoppedAt v.index
      (t.stream.inResponses chain v.left.state).board.point
        = t.stream.inResponses chain v.left.state := by
    rw [stoppedAt, hnoted]
    rfl
  refine ⟨t.stream.inResponses chain v.left.state, ?_⟩
  exact
    { board := rfl
      owned := hattends.owned
      unclaimed := hc
      reply := hr
      latest := hattends.latest
      settings := rfl
      phase := rfl
      jumpsLeft := rfl
      generation := rfl
      pausesAt := by rw [hp]; rfl
      stopped := by
        rw [execute_filterResponse c₁ hp, filterResponse_stopped (s := t.stream.entered)
          c₁.behaviour hfirst,
          pausedAt, hpaused]
        exact Prod.ext (pause_fst v.index _) rfl
      straight := by
        rw [execute_filterResponse c hp]
        rw [step_filterResponse c (t := ⟨t.stream.inResponses chain v.left.state, t.env⟩) hz]
        rw [filterResponse_inResponses (s := t.stream.entered) c.behaviour hclosed hr hpass]
        rfl
      again := execute_beckoned c (z := t.stream.inResponses chain v.left.state) hc
        hattends.owned hb
        (hstatus.trans hs) .response v.index _ t.env fun y _ hy => by rw [← hy] }

/-- **Two turns that differ in one answer part at the stream as the filter left it.** -/
theorem Cut.exists_severed (h : t.Cut c₁ c k side v) (ho : t.stream.board.owned = true)
    (hb : t.stream.pausedBy = none) (hs : t.stream.board.status = .running) :
    ∃ z point, t.Severed c₁ c k side v z point := by
  cases h with
  | request hp hv hcut hc hr =>
    exact (severed_request ho hb hs hp hv hcut hc hr).imp fun z hz => ⟨none, hz⟩
  | response hp hv hcut hc hr =>
    exact (severed_response ho hb hs hp hv hcut hc hr).imp fun z hz => ⟨z.board.point, hz⟩

end Turn

end FilterProxy
