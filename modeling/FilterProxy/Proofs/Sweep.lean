import FilterProxy.Proofs.Outcome
import FilterProxy.Proofs.Visits
import Mathlib.Data.List.Sort

/-!
# Proofs/Sweep — a turn at a phase of filters sweeps them

The filters that a phase runs stand at **positions** in their chain (`FilterSet.positions`), and
filters that are added stand behind them (`FilterSet.Extends`).  **A turn at the phase calls the
first of its positions** from the start of the turn on, and leads on to the next phase only behind
the last of them (`Turn.Sweeps`).
-/

namespace FilterProxy

variable {σ ε : Type}

open Board FilterSet FilterProxy.Stream Life

/-! ## Positions -/

namespace FilterSet

/-- The positions of the filters that a phase runs, from `k` on, in order. -/
def positions (s : FilterSet σ) (k : Nat) : Phase → List Nat
  | .filterRequest => s.requests.positions .beforeRoute k
  | .filterRouted => s.requests.positions .afterRoute k
  | .filterHosted => s.requests.positions .afterHost k
  | .filterResponse => s.responses.positions .beforeSend k
  | _ => []

variable {s s' s'' : FilterSet σ} {k n i : Nat} {p : Phase}

theorem positions_phase (s : FilterSet σ) (k : Nat) (point : RequestPoint) :
    s.positions k point.phase = s.requests.positions point k := by cases point <;> rfl

theorem pairwise_positions (s : FilterSet σ) (k : Nat) (p : Phase) :
    (s.positions k p).Pairwise (· < ·) := by
  cases p <;> first | exact Chain.pairwise_positions _ | exact .nil

theorem mem_positions : i ∈ s.positions k p ↔ k ≤ i ∧ s.Bound p i := by
  by_cases hp : ∃ point : RequestPoint, p = point.phase
  · obtain ⟨point, rfl⟩ := hp
    rw [positions_phase, Chain.mem_positions, Bound]
    refine and_congr_right fun _ => ⟨fun h => .inl ⟨point, rfl, h⟩, ?_⟩
    rintro (⟨point', heq, h⟩ | ⟨heq, -⟩)
    · cases point <;> cases point' <;> first | exact h | cases heq
    · cases point <;> cases heq
  · have hnot (point : RequestPoint) : p ≠ point.phase := fun h => hp ⟨point, h⟩
    cases p with
    | filterRequest => exact absurd rfl (hnot .beforeRoute)
    | filterRouted => exact absurd rfl (hnot .afterRoute)
    | filterHosted => exact absurd rfl (hnot .afterHost)
    | filterResponse =>
      rw [positions, Chain.mem_positions, Bound]
      refine and_congr_right fun _ => ⟨fun h => .inr ⟨rfl, ?_⟩, ?_⟩
      · simpa using (List.getElem?_eq_some_iff.mp h).1
      · rintro (⟨point, heq, -⟩ | ⟨-, hlt⟩)
        · exact absurd heq (hnot point)
        · simp [List.getElem?_eq_getElem hlt]
    | _ => simp [positions, Bound, hnot]

/-- The positions before the start of a turn, and those from there on. -/
theorem positions_split (s : FilterSet σ) (k : Nat) (p : Phase) :
    (s.positions 0 p).filter (· < k) ++ s.positions k p = s.positions 0 p := by
  refine List.Pairwise.eq_of_mem_iff (r := (· < ·)) ?_ (s.pairwise_positions 0 p) fun i => ?_
  · refine List.pairwise_append.mpr ⟨(s.pairwise_positions 0 p).filter _,
      s.pairwise_positions k p, ?_⟩
    intro i hi j hj
    have hik : i < k := by simpa using (List.mem_filter.mp hi).2
    exact Nat.lt_of_lt_of_le hik (mem_positions.mp hj).1
  · simp only [List.mem_append, List.mem_filter, mem_positions, decide_eq_true_eq]
    constructor
    · rintro (⟨h, -⟩ | h)
      · exact h
      · exact ⟨Nat.zero_le _, h.2⟩
    · intro h
      by_cases hik : i < k
      · exact .inl ⟨h, hik⟩
      · exact .inr ⟨Nat.le_of_not_lt hik, h.2⟩

/-- Filters may have been added, each behind those of its side. -/
structure Extends (s s' : FilterSet σ) : Prop where
  requests : s.requests.map (·.point) <+: s'.requests.map (·.point)
  responses : s.responses.map (·.point) <+: s'.responses.map (·.point)

theorem Fixed.extends (h : s.Fixed s') : s.Extends s' :=
  ⟨h.requests ▸ List.prefix_refl _, h.responses ▸ List.prefix_refl _⟩

theorem Extends.trans (h : s.Extends s') (h' : s'.Extends s'') : s.Extends s'' :=
  ⟨h.requests.trans h'.requests, h.responses.trans h'.responses⟩

theorem extends_enlist (s : FilterSet σ) (r : Registration σ) : s.Extends (s.enlist r) := by
  cases r with
  | request f p => exact ⟨by simp [enlist], List.prefix_refl _⟩
  | response f p => exact ⟨List.prefix_refl _, by simp [enlist]⟩

/-- A filter stays bound. -/
theorem Extends.bound (h : s.Extends s') (hi : s.Bound p i) : s'.Bound p i := by
  rcases hi with ⟨point, hp, hi⟩ | ⟨hp, hi⟩
  · refine .inl ⟨point, hp, ?_⟩
    obtain ⟨hlt, hat⟩ := List.getElem?_eq_some_iff.mp hi
    exact (List.prefix_iff_getElem?.mp h.requests i hlt).trans (congrArg some hat)
  · have hle := h.responses.length_le
    rw [List.length_map, List.length_map] at hle
    exact .inr ⟨hp, Nat.lt_of_lt_of_le hi hle⟩

/-- **No filter was put in** before one that was there. -/
theorem Extends.bound_iff (h : s.Extends s') (hn : s.Bound p n) (hi : i ≤ n) :
    s'.Bound p i ↔ s.Bound p i := by
  refine ⟨?_, h.bound⟩
  rintro (⟨point, hp, hi'⟩ | ⟨hp, -⟩)
  · rcases hn with ⟨_, -, hn⟩ | ⟨hp', -⟩
    · have hlt := Nat.lt_of_le_of_lt hi (List.getElem?_eq_some_iff.mp hn).1
      have hat := (List.prefix_iff_getElem?.mp h.requests i hlt).symm.trans hi'
      exact .inl ⟨point, hp, (List.getElem?_eq_getElem hlt).trans hat⟩
    · rw [hp] at hp'
      cases point <;> cases hp'
  · rcases hn with ⟨point, hp', -⟩ | ⟨-, hn⟩
    · rw [hp] at hp'
      cases point <;> cases hp'
    · exact .inr ⟨hp, Nat.lt_of_le_of_lt hi hn⟩

end FilterSet

/-! ## One turn -/

namespace Stream

variable {β : Behaviour σ} {s s' : Stream σ} {k n : Nat}

/-- A pause calls no filter. -/
theorem calls_pause (side : Side) (n : Nat) (s : Stream σ) :
    calls side (s.pause n).2.board.log = calls side s.board.log := by
  cases hc : s.board.claimed with
  | true => rw [pause_of_claimed n hc]
  | false =>
    rw [pause_of_unclaimed n hc]
    cases s.settings.stopTimeout <;> rfl

theorem calls_noteAbort (side : Side) (cause : Abort) (s : Stream σ) :
    calls side (s.noteAbort cause).board.log = calls side s.board.log := by
  cases cause <;> rfl

/-- What is concluded from a pass calls no filter. -/
theorem Concludes.calls_eq {result : Except Panic Outcome} {step : Step}
    (h : s.Concludes result step s') (side : Side) :
    calls side s'.board.log = calls side s.board.log := by
  cases h with
  | pause => exact calls_pause side _ s
  | abort cause => exact calls_noteAbort side cause s
  | _ => rfl

/-- Only a pass that is completed leads on to the next phase. -/
theorem Concludes.completed {result : Except Panic Outcome} (h : s.Concludes result .next s') :
    result = .ok .completed := by
  cases h
  rfl

/-- The pass over the filters of a chain that the stream makes to execute its phase of response
filters. -/
def sendPass (β : Behaviour σ) (k : Nat) (s : Stream σ) : Chain.Passed (Seated σ) ResponsePoint
    (Workbench σ) :=
  s.filters.responses.pass .beforeSend k .keep (callResponse β)
    ⟨s.entered.board.closeReply.2, s.response.parts⟩

/-- The phase of response filters calls those its pass calls, and leads on once its pass is
completed or ended in a wish. -/
theorem filterResponse_entered (β : Behaviour σ) (k : Nat) (s : Stream σ) :
    calls .response (s.entered.filterResponse β k).2.board.log
        = calls .response (s.sendPass β k).state.board.log ∧
      ((s.entered.filterResponse β k).1 = .next →
        (s.sendPass β k).result = .ok .completed ∨ ∃ q, (s.sendPass β k).result = .ok
        (.resumeAt q)) := by
  have hpass : s.entered.filters.responses.pass .beforeSend k .keep (callResponse β)
      ⟨s.entered.board.closeReply.2, s.entered.response.parts⟩ = s.sendPass β k := rfl
  unfold filterResponse passResponse passResponses
  dsimp only
  rw [hpass]
  rcases s.sendPass β k with ⟨_ | _ | n | q | cause, chain, state⟩
  case ok.stopped =>
    exact ⟨calls_pause .response n _, fun h => absurd ((pause_fst n _).symm.trans h) nofun⟩
  case ok.aborted => exact ⟨calls_noteAbort .response cause _, nofun⟩
  case ok.completed => exact ⟨rfl, fun _ => .inl rfl⟩
  case ok.resumeAt => exact ⟨rfl, fun _ => .inr ⟨q, rfl⟩⟩
  case error => exact ⟨rfl, nofun⟩

end Stream

namespace Turn

variable (c : Surroundings σ ε) (side : Side) (k : Nat) (t : Turn σ ε)

/-- **The positions called** as the stream executes its phase, in order. -/
def called : List Nat := (calls side (lately (t.execute c k).2.stream.board.log)).reverse

/-- A response filter wished to go back, which ends its pass but counts as completion. -/
def Wishes : Prop := side = .response ∧ ∃ q, (t.stream.sendPass c.behaviour k).result = .ok
    (.resumeAt q)

/-- **What a turn at a phase of filters does**: it calls the first of the positions bound to the
phase, from its start on, and leads on to the next phase only behind the last of them. -/
structure Sweeps : Prop where
  called : t.called c side k <+: t.stream.filters.positions k t.stream.phase
  none_to_call : t.called c side k = [] → t.stream.filters.positions k t.stream.phase = []
  all : (t.execute c k).1 = .next → ¬ t.Wishes c side k →
    t.called c side k = t.stream.filters.positions k t.stream.phase
  /-- A pause is at the filter called last. -/
  paused : ∀ n, (t.execute c k).2.stream.pausedBy = some n →
    n ∈ t.called c side k ∧ ∀ i ∈ t.called c side k, i ≤ n

variable {c side k t}

/-- A pass over the filters of one side, whose calls are logged. -/
theorem exists_visits {π : Type} [DecidableEq π] (point : π) (k : Nat) (convert : Converter)
    {φ : Type} {call : Nat → φ → Workbench σ → Chain.Called φ (Workbench σ)}
    (hwalked : ∀ i f w, Walked side w.board (call i f w).state.board)
    (hcalls : ∀ i f w, w.board.owned = true →
      calls side (call i f w).state.board.log = i :: calls side w.board.log)
    (chain : Chain φ π) {w : Workbench σ} (ho : w.board.owned = true) :
    ∃ is, calls side (chain.pass point k convert call w).state.board.log = is.reverse
      ++ calls side w.board.log ∧
      is <+: chain.positions point k ∧ (is = [] → chain.positions point k = []) ∧
      ((chain.pass point k convert call w).result = .ok .completed →
        is = chain.positions point k) := by
  have hmeets := Chain.meets_pass point k convert call chain w
  refine ⟨_, hmeets.threaded.observe (P := fun v => v.board.owned = true)
    (fun v => calls side v.board.log) (fun i f v hv => ?_) hcalls ho, hmeets.called, fun hnil => ?_,
    hmeets.all_of_completed⟩
  · exact ((hwalked i f v).moves (fun _ => Event.isQuiet_of_inPass) hv).owned.trans hv
  · exact hmeets.none_to_call (List.map_eq_nil_iff.mp hnil)

/-- What the phase calls is what its pass calls. -/
theorem exists_calls (ho : t.stream.board.owned = true) (hs : t.stream.phase.side? = some side) :
    ∃ is, calls side (t.execute c k).2.stream.board.log = is.reverse
      ++ calls side t.stream.board.log ∧
      is <+: t.stream.filters.positions k t.stream.phase ∧
      (is = [] → t.stream.filters.positions k t.stream.phase = []) ∧
      ((t.execute c k).1 = .next → ¬ t.Wishes c side k →
        is = t.stream.filters.positions k t.stream.phase) := by
  cases side with
  | request =>
    obtain ⟨point, hp⟩ := Phase.exists_point hs
    obtain ⟨is, hlog, hbegins, hnone, hall⟩ := exists_visits point k t.stream.settings.convert
      (walked_callRequest c.behaviour) (calls_callRequest c.behaviour) t.stream.filters.requests
      (w := ⟨{ t.stream.entered.board with point := some point }, t.stream.request.parts⟩) ho
    have hconcludes : (t.stream.passed c.behaviour point k).Concludes
      (t.stream.pass c.behaviour point k).result _ _ := concludes_filterRequest ho
    rw [execute_filters c hp, hp, positions_phase]
    refine ⟨is, ?_, hbegins, hnone, fun hnext _ => hall ?_⟩
    · rw [hconcludes.calls_eq, ← show _ = is.reverse ++ calls .request t.stream.board.log from hlog]
      unfold Stream.passed Stream.pass passRequests
      dsimp only
      split <;> rfl
    · have hresult := (hnext ▸ hconcludes).completed
      unfold Stream.pass passRequests at hresult
      dsimp only at hresult
      split at hresult
      case h_1 p hp => cases hresult
      case h_2 outcome ho => exact ho.trans hresult
  | response =>
    have hp : t.stream.phase = .filterResponse := by
      revert hs
      cases t.stream.phase <;> first | exact fun _ => rfl | nofun
    obtain ⟨is, hlog, hbegins, hnone, hall⟩ := exists_visits ResponsePoint.beforeSend k .keep
      (walked_callResponse c.behaviour) (calls_callResponse c.behaviour) t.stream.filters.responses
      (w := ⟨t.stream.entered.board.closeReply.2, t.stream.response.parts⟩) ho
    obtain ⟨hcalls, hstep⟩ := filterResponse_entered c.behaviour k t.stream
    rw [execute_filterResponse c hp, hp]
    refine ⟨is, hcalls.trans hlog, hbegins, hnone, fun hnext hwish => ?_⟩
    rcases hstep hnext with hdone | hback
    · exact hall hdone
    · exact absurd ⟨rfl, hback⟩ hwish

/-- **Every turn at a phase of filters sweeps them.** -/
theorem sweeps (hl : t.stream.Live) (ho : t.stream.board.owned = true)
    (hb : t.stream.pausedBy = none)
    (hs : t.stream.phase.side? = some side) : t.Sweeps c side k := by
  obtain ⟨is, hlog, hbegins, hnone, hall⟩ := exists_calls (c := c) (k := k) ho hs
  obtain ⟨step, t', hexec⟩ : ∃ step t', t.execute c k = (step, t') := ⟨_, _, rfl⟩
  obtain ⟨new, is', hx⟩ := executed_execute hl ho hexec
  have hcalls : calls side new = is'.reverse := by
    rw [hx.worked.calls side]
    exact if_pos hs
  have hcalled : t.called c side k = is' := by
    rw [called, hexec, hx.lately, hcalls, List.reverse_reverse]
  obtain rfl : is = is' := by
    rw [hexec, hx.log, calls, List.filterMap_append, ← calls, ← calls] at hlog
    have hnew := List.append_cancel_right hlog
    rw [calls, List.filterMap_append, ← calls, hcalls, List.filterMap_cons_none rfl,
      List.filterMap_nil, List.append_nil] at hnew
    exact (List.reverse_injective hnew).symm
  rw [← hcalled] at hbegins hnone hall
  refine ⟨hbegins, hnone, hall, fun n hn => ?_⟩
  rw [hcalled]
  rw [hexec] at hn
  cases hx with
  | pause hw hp hlast hpaused =>
    obtain rfl := Option.some.inj (hpaused.symm.trans hn)
    exact hlast
  | _ hw ha => rw [ha.pausedBy, entered_pausedBy, hb] at hn; cases hn

end Turn

end FilterProxy
