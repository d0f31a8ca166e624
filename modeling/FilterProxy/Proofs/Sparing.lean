import FilterProxy.Proofs.Deeds

/-!
# Proofs/Sparing — filters that are called once

The phases run the request filters that come before a route once, and the response filters once:
those two phases are never gone back to, and a pause is taken up behind the filter that stopped the
pass.  So **no such filter is called twice**, but for direct runs (`Reached.sparing`): as long as a
filter's phase is ahead, nobody called it.
-/

namespace FilterProxy

variable {σ ε : Type}

/-- The phase of a side that comes once. -/
def Side.home : Side → Phase
  | .request => .filterRequest
  | .response => .filterResponse

@[simp] theorem Side.side?_home (side : Side) : side.home.side? = some side := by cases side <;> rfl

theorem RequestPoint.side_eq {point : RequestPoint} {side : Side}
    (h : point.phase.side? = some side) : side = .request :=
  Option.some.inj (h.symm.trans point.side?_phase)

/-- Nobody called the filter but direct runs. -/
def Life.Unused (l : Life σ) (side : Side) (i : Nat) : Prop :=
  (calls side l.log).count i = l.byDirect side i

/-- The phase of the filter at `i` is still to come, or is to be executed, or taken up again, with
filters up to `i`. -/
def Stream.Ahead (start : Option Nat) (s : Stream σ) (side : Side) (i : Nat) : Prop :=
  s.phase < side.home ∨ s.phase = side.home ∧ match start with
    | some k => k ≤ i
    | none => ∃ k, s.pausedBy = some k ∧ k < i

/-- **What holds of the filters called once**: no phase called one twice, nor any that is ahead, nor
one that is yet to be added. -/
structure Life.Sparing (start : Option Nat) (l : Life σ) : Prop where
  once : ∀ side i, l.stream.filters.Bound side.home i →
    (calls side l.log).count i ≤ l.byDirect side i + 1
  ahead : (start = none → l.stream.board.claimed = false) → ∀ side i,
    l.stream.filters.Bound side.home i → l.stream.Ahead start side i → l.Unused side i
  beyond : ∀ side i, l.stream.filters.size side ≤ i → l.Unused side i

namespace FilterSet

variable {s : FilterSet σ} {side : Side} {i : Nat}

theorem Bound.lt_size {p : Phase} (h : s.Bound p i) (hp : p.side? = some side) :
    i < s.size side := by
  rcases h with ⟨point, rfl, hi⟩ | ⟨rfl, hi⟩
  · obtain rfl := RequestPoint.side_eq hp
    simpa [size] using (List.getElem?_eq_some_iff.mp hi).1
  · obtain rfl : Side.response = side := Option.some.inj hp
    exact hi

/-- Another phase of the side runs other filters. -/
theorem Bound.eq_home {p : Phase} (h : s.Bound p i) (hp : p.side? = some side)
    (hi : s.Bound side.home i) : p = side.home := by
  rcases h with ⟨point, rfl, h⟩ | ⟨rfl, -⟩
  · obtain rfl := RequestPoint.side_eq hp
    rcases hi with ⟨point', hpoint', hi⟩ | ⟨hi, -⟩
    · obtain rfl : point = point' := Option.some.inj (h.symm.trans hi)
      exact hpoint'.symm
    · cases hi
  · obtain rfl : Side.response = side := Option.some.inj hp
    rfl

theorem size_le_enlist (s : FilterSet σ) (r : Registration σ) (side : Side) :
    s.size side ≤ (s.enlist r).size side := by
  cases r <;> cases side <;> simp [size, enlist]

/-- A filter that was there before is bound as it was. -/
theorem Bound.of_enlist {r : Registration σ} {p : Phase} (h : (s.enlist r).Bound p i)
    (hi : i < s.size side) (hp : p.side? = some side) : s.Bound p i := by
  rcases h with ⟨point, rfl, h⟩ | ⟨rfl, h⟩
  · obtain rfl := RequestPoint.side_eq hp
    refine .inl ⟨point, rfl, ?_⟩
    cases r with
    | request f q =>
      rw [enlist, List.map_append,
        List.getElem?_append_left (by rw [List.length_map]; exact hi)] at h
      exact h
    | response f q => exact h
  · obtain rfl : Side.response = side := Option.some.inj hp
    exact .inr ⟨rfl, hi⟩

end FilterSet

namespace Stream

variable {start : Nat} {s s' : Stream σ} {new : List (Event σ)} {is : List Nat}

/-- Only its home phase calls the filter. -/
theorem Worked.count_calls (h : Worked start s s' new is) {side : Side} {i : Nat}
    (hi : s.filters.Bound side.home i) :
    (FilterProxy.calls side new).count i = if s.phase = side.home then is.count i else 0 := by
  rw [h.calls side]
  by_cases hside : s.phase.side? = some side
  case neg =>
    have hp : s.phase ≠ side.home := fun hp => hside (by rw [hp, Side.side?_home])
    rw [if_neg hside, if_neg hp]
    rfl
  rw [if_pos hside, List.count_reverse]
  split
  case isTrue => rfl
  case isFalse hp =>
    exact List.count_eq_zero.mpr fun hmem => hp ((h.bound i hmem).2.eq_home hside hi)

namespace Ahead

variable {side : Side} {i : Nat}

/-- What is ahead at the response filters was ahead at every phase before. -/
theorem lt_of_late (h : s'.Ahead (some start) side i) (hp : s'.phase = .filterResponse)
    {p : Phase} (hlt : p < .filterResponse) : p < side.home := by
  rcases h with hlate | ⟨hhome, -⟩
  · rw [hp] at hlate
    cases side <;> exact absurd hlate (by decide)
  · rw [← hhome, hp]
    exact hlt

theorem lt_of_next (h : s'.Ahead (some start) side i) {p : Phase} (hp : s'.phase = p.next)
    (hd : p ≠ .done) : p < side.home := by
  have hle : s'.phase.number ≤ side.home.number := by
    rcases h with hlt | ⟨hhome, -⟩
    · exact Nat.le_of_lt hlt
    · exact Nat.le_of_eq (congrArg Phase.number hhome)
  rw [hp, Phase.number_next hd] at hle
  exact hle

/-- **Going back never goes back to the first request filters.** -/
theorem lt_of_jump (h : s'.Ahead (some start) side i) (point : RequestPoint)
    (hp : s'.phase = .matchRoute ∨ s'.phase = .chooseHost) : point.phase < side.home := by
  cases side with
  | request =>
    rcases h with hlt | ⟨hhome, -⟩
    · rcases hp with hp | hp <;> rw [hp] at hlt <;> exact absurd hlt (by decide)
    · rcases hp with hp | hp <;> rw [hp] at hhome <;> cases hhome
  | response => cases point <;> decide

/-- What is ahead of a stream that stays at its phase was ahead before, and was not called. -/
theorem of_stay {step : Step} (hx : Executed start s.entered step s' new is)
    (hb : s.pausedBy = none) (h : s'.Ahead none side i) :
    s.phase < side.home ∨ s.phase = side.home ∧ start ≤ i ∧ i ∉ is := by
  have hphase : s'.phase = s.phase := hx.phase
  rw [Ahead, hphase] at h
  rcases h with hlt | ⟨hhome, k, hk, hki⟩
  · exact .inl hlt
  refine .inr ⟨hhome, ?_⟩
  cases hx with
  | @pause _ _ _ n hw hp hn hpaused hgeneration hr hc =>
    -- the pause is of the filter called last
    obtain rfl : n = k := Option.some.inj (hpaused.symm.trans hk)
    exact ⟨Nat.le_trans (hw.bound n hn.1).1 (Nat.le_of_lt hki),
      fun hmem => absurd (hn.2 i hmem) (Nat.not_le.mpr hki)⟩
  | _ hw ha =>
    rw [ha.pausedBy, entered_pausedBy, hb] at hk
    cases hk

end Ahead

end Stream

namespace Life.Sparing

open FilterProxy.Stream

variable {start start' : Option Nat} {l l' : Life σ}

/-- Whatever calls no filter, or calls one directly, spares those that were spared. -/
theorem keep (h : l.Sparing start) (hf : l.stream.filters.Fixed l'.stream.filters)
    (hcalls : ∀ side i, (calls side l'.log).count i + l.byDirect side i
      = (calls side l.log).count i + l'.byDirect side i)
    (ha : (start' = none → l'.stream.board.claimed = false) →
      (start = none → l.stream.board.claimed = false) ∧
        ∀ side i, l'.stream.Ahead start' side i → l.stream.Ahead start side i) :
    l'.Sparing start' where
  once side i hi := by
    have := h.once side i (hf.bound_iff.mp hi)
    have := hcalls side i
    omega
  ahead hc side i hi hahead := by
    obtain ⟨hc, ha⟩ := ha hc
    have hunused := h.ahead hc side i (hf.bound_iff.mp hi) (ha side i hahead)
    have := hcalls side i
    unfold Unused at hunused ⊢
    omega
  beyond side i hi := by
    have hunused := h.beyond side i (hf.size side ▸ hi)
    have := hcalls side i
    unfold Unused at hunused ⊢
    omega

/-- On a life somebody claimed nothing is ahead. -/
theorem keep_claimed (h : l.Sparing start) (hf : l.stream.filters.Fixed l'.stream.filters)
    (hcalls : ∀ side i, (calls side l'.log).count i + l.byDirect side i
      = (calls side l.log).count i + l'.byDirect side i)
    (hc : l'.stream.board.claimed = true) : l'.Sparing none := by
  refine h.keep hf hcalls fun hc' => ?_
  rw [hc' rfl] at hc
  cases hc

/-- A filter that is added was not called yet. -/
theorem add (h : l.Sparing none) (r : Registration σ) :
    (l.become (l.stream.enlist r)).Sparing none := by
  have hnew {side i} (hi : ¬ i < l.stream.filters.size side) : l.Unused side i :=
    h.beyond side i (Nat.le_of_not_lt hi)
  refine ⟨fun side i hi => ?_, fun hc side i hi hahead => ?_, fun side i hi => ?_⟩
  · by_cases hlt : i < l.stream.filters.size side
    · exact h.once side i (hi.of_enlist hlt side.side?_home)
    · exact Nat.le_succ_of_le (Nat.le_of_eq (hnew hlt))
  · by_cases hlt : i < l.stream.filters.size side
    · exact h.ahead hc side i (hi.of_enlist hlt side.side?_home) hahead
    · exact hnew hlt
  · exact h.beyond side i (Nat.le_trans (l.stream.filters.size_le_enlist r side) hi)

/-- **Executing a phase** calls those filters only that were ahead. -/
theorem executed {k : Nat} {s : Stream σ} {step : Step} {new : List (Event σ)} {is : List Nat}
    (h : l.Sparing (some k)) (hx : Executed k l.stream.entered step s new is)
    (hf : l'.stream.filters = s.filters) (hd : l'.direct = l.direct)
    (hcalls : ∀ side, calls side l'.log = calls side new ++ calls side l.log)
    (ha : (start' = none → l'.stream.board.claimed = false) → ∀ side i,
      l'.stream.Ahead start' side i → l.stream.phase < side.home ∨
        l.stream.phase = side.home ∧ k ≤ i ∧ i ∉ is) : l'.Sparing start' := by
  have hfixed : l.stream.filters.Fixed l'.stream.filters := hf ▸ hx.worked.fixed
  have hdirect (side i) : l'.byDirect side i = l.byDirect side i := by
    cases side with
    | request => rfl
    | response => exact congrFun hd i
  have hcount {side i} (hi : l.stream.filters.Bound side.home i) :
      (calls side l'.log).count i
        = (if l.stream.phase = side.home then is.count i else 0) + (calls side l.log).count i := by
    rw [hcalls, List.count_append, hx.worked.count_calls hi]
    rfl
  refine ⟨fun side i hi => ?_, fun hc side i hi hahead => ?_, fun side i hi => ?_⟩
  · have hi := hfixed.bound_iff.mp hi
    have hold := h.once side i hi
    rw [hcount hi, hdirect]
    split
    case isFalse => omega
    case isTrue hp =>
      by_cases hmem : i ∈ is
      · -- a filter that is called was ahead
        have hle := (hx.worked.bound i hmem).1
        have hunused : l.Unused side i := h.ahead (by simp) side i hi (.inr ⟨hp, hle⟩)
        have hnodup := List.nodup_iff_count.mp (hx.worked.rising.imp Nat.ne_of_lt) i
        unfold Unused at hunused
        omega
      · rw [List.count_eq_zero.mpr hmem]
        omega
  · have hi := hfixed.bound_iff.mp hi
    unfold Unused
    rw [hcount hi, hdirect]
    rcases ha hc side i hahead with hlt | ⟨hp, hle, hmem⟩
    · have hne : l.stream.phase ≠ side.home := fun hp => Nat.lt_irrefl _ (hp ▸ hlt)
      rw [if_neg hne, Nat.zero_add]
      exact h.ahead (by simp) side i hi (.inl hlt)
    · rw [if_pos hp, List.count_eq_zero.mpr hmem, Nat.zero_add]
      exact h.ahead (by simp) side i hi (.inr ⟨hp, hle⟩)
  · have hi : l.stream.filters.size side ≤ i := hfixed.size side ▸ hi
    have hmem : i ∉ calls side new := by
      rw [hx.worked.calls side]
      split
      case isFalse => simp
      case isTrue hside =>
        intro hmem
        have hbound := (hx.worked.bound i (List.mem_reverse.mp hmem)).2
        exact Nat.not_lt.mpr hi (hbound.lt_size hside)
    unfold Unused
    rw [hcalls, List.count_append, List.count_eq_zero.mpr hmem, Nat.zero_add, hdirect]
    exact h.beyond side i hi

end Life.Sparing

namespace Reached

open Board FilterSet FilterProxy.Stream Life

theorem count_calls_eq {l l' : Life σ} {side : Side} (hlog : calls side l'.log = calls side l.log)
    (hd : l'.direct = l.direct) (i : Nat) : (calls side l'.log).count i + l.byDirect side i
      = (calls side l.log).count i + l'.byDirect side i := by
  rw [hlog]
  cases side with
  | request => rfl
  | response => exact congrArg (_ + ·) (congrFun hd i).symm

/-- Where no call is logged. -/
theorem count_calls_of_append {l l' : Life σ} (new : List (Event σ)) (hlog : l'.log = new ++ l.log)
    (hnew : ∀ side, ∀ e ∈ new, e.call? side = none) (hd : l'.direct = l.direct) (side : Side)
    (i : Nat) : (calls side l'.log).count i + l.byDirect side i
      = (calls side l.log).count i + l'.byDirect side i := by
  refine count_calls_eq ?_ hd i
  rw [hlog, calls_append (hnew side)]

theorem calls_executed {start : Nat} {s s' : Stream σ} {step : Step} {new : List (Event σ)} {is}
    (hx : Executed start s.entered step s' new is) (side : Side) :
    calls side s'.board.log = calls side new ++ calls side s.board.log := by
  rw [hx.worked.log, calls, List.filterMap_append]
  rfl

/-- **Every life is sparing.** -/
theorem sparing {start : Option Nat} {l : Life σ} (h : Reached start l) : l.Sparing start := by
  induction h with
  | fresh id settings =>
    have hunused (side i) : (Life.fresh (σ := σ) id settings).Unused side i := by cases side <;> rfl
    exact ⟨fun side i _ => Nat.le_succ_of_le (Nat.le_of_eq (hunused side i)),
      fun _ side i _ _ => hunused side i, fun side i _ => hunused side i⟩
  | add h r ih => exact ih.add r
  | @outside l b new h hm hlog hnew ih =>
    refine ih.keep (.refl _) (count_calls_of_append new hlog ?_ rfl) fun hc =>
      ⟨fun _ => hm.unclaimed (hc rfl), fun _ _ => id⟩
    exact fun side e he => Event.call?_of_isOutside side (hnew e he)
  | @direct l r new is h hp m ih =>
    exact ih.keep hp.fixed (calls_directly hp m) fun hc =>
      ⟨fun _ => hp.moves.unclaimed (hc rfl), fun _ _ => id⟩
  | @finish l h β ending ih =>
    have ho := h.orderly.books.owned
    obtain ⟨new, hlog, hnew⟩ := finish_log β ending l.stream ho
    refine ih.keep_claimed (finish_fixed β l.stream ending ho)
      (count_calls_of_append new hlog ?_ rfl) (claimed_finish β ending ho)
    exact fun side e he => Event.call?_of_isEnding side (hnew e he)
  | take h hp hr ih =>
    exact ih.keep (.refl _) (fun _ => count_calls_eq rfl rfl) fun hc => ⟨hc, fun _ _ => id⟩
  | @release l p ending h hp hj β ih =>
    have hcondemned := h.orderly.condemned_due hp hj
    have ho := hcondemned.books.owned
    obtain ⟨new, hlog, hnew⟩ := release_log β ending l.stream ho
    refine ih.keep_claimed (release_fixed β l.stream ending ho)
      (count_calls_of_append new hlog ?_ rfl) (claimed_release β ending ho hcondemned.claimed)
    exact fun side e he => Event.call?_of_isEnding side (hnew e he)
  | @receive l h hc hp m ih =>
    refine ih.keep (.refl _) (fun _ => count_calls_eq rfl rfl) fun _ =>
      ⟨fun _ => hc, fun side i _ => .inl ?_⟩
    rw [hp]
    cases side <;> decide
  | @resume l index h hc hp ih =>
    exact ih.keep (.refl _) (fun _ => count_calls_eq rfl rfl) fun _ =>
      ⟨fun _ => hc, fun side i hahead => hahead.imp_right fun hhome =>
        ⟨hhome.1, index, hp, hhome.2⟩⟩
  | @reroute l index reply h hc hp hlt hr ih =>
    exact ih.keep (.refl _) (fun _ => count_calls_eq rfl rfl) fun _ =>
      ⟨fun _ => hc, fun side i hahead => .inl (hahead.lt_of_late rfl hlt)⟩
  | @response l h hc hp m ih =>
    exact ih.keep (.refl _) (fun _ => count_calls_eq rfl rfl) fun _ =>
      ⟨fun _ => hc, fun side i hahead => .inl (hahead.lt_of_late rfl (by rw [hp]; decide))⟩
  | halt h hc ih => exact ih.keep_claimed (.refl _) (fun _ => count_calls_eq rfl rfl) hc
  | @stay start l step s new is h hl hx hlast ih =>
    exact ih.executed hx rfl rfl (calls_executed hx) fun _ side i hahead =>
      hahead.of_stay hx h.poised.2
  | @next start l s new is h hl hx ih =>
    refine ih.executed hx rfl rfl (fun side => calls_executed hx side) fun _ side i hahead =>
      .inl (hahead.lt_of_next ?_ hl.notDone)
    exact congrArg Phase.next hx.phase
  | @goto start l q s new is h hl hx ih =>
    refine ih.executed hx rfl rfl (fun side => calls_executed hx side) fun _ side i hahead =>
      .inl ?_
    cases hx with
    | reply hw ha hp hr =>
      obtain ⟨point, hpoint⟩ := Phase.exists_point hp
      refine hahead.lt_of_late rfl ?_
      rw [show l.stream.phase = point.phase from hpoint]
      cases point <;> decide
  | @jump start l q s new is rest h hl hx hj ih =>
    refine ih.executed hx rfl rfl (fun side => calls_executed hx side) fun _ side i hahead =>
      .inl ?_
    cases hx with
    | @jump _ _ _ _ point hw ha hp hq hr =>
      rw [show l.stream.phase = point.phase from hp]
      exact hahead.lt_of_jump point hq

end Reached

end FilterProxy
