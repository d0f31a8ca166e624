import FilterProxy.Proofs.Visits

/-!
# Proofs/Wish — a pass goes back where a filter wished, unless the converter wishes otherwise

The target a pass goes back to is read off two places: off the **converted** verdict of the call
that halts it, or, behind the last position, off the **raw** verdicts of all calls.  Only the second
is a wish the filters made themselves.  So a converter that makes a wish of its own
(`Visit.Overruled`) can send a pass where no filter wished to go, and one that only ever passes
wishes on or drops them (`Converter.RespectsWishes`) never can.
-/

namespace FilterProxy

namespace Converter

/-- Every wish to go back that it hands on is the filter's own. -/
def RespectsWishes (convert : Converter) : Prop :=
  ∀ raw verdict target, convert raw = .ok verdict → verdict.target? = some target →
    raw.target? = some target

theorem respectsWishes_keep : keep.RespectsWishes := by
  rintro raw verdict target ⟨⟩ htarget
  exact htarget

/-- A policy that walks on past wishes hands none on. -/
theorem respectsWishes_walkOn : (total Verdict.walkOn).RespectsWishes := by
  rintro raw verdict target ⟨⟩ htarget
  cases raw <;> cases htarget

end Converter

namespace Chain

variable {φ π ω : Type}

/-- **The last wish to go back that the filters made themselves.** -/
def lastWish (visits : List (Visit φ ω)) : Option Phase := (visits.filterMap (·.wish?)).getLast?

/-- The converter hands on a wish for `target` that the filter did not make. -/
def Visit.Overruled (convert : Converter) (target : Phase) (v : Visit φ ω) : Prop :=
  ∃ raw verdict, v.left.answer = .ok raw ∧ convert raw = .ok verdict ∧
    verdict.target? = some target ∧
    raw.target? ≠ some target

theorem Visit.wish?_of_answer {v : Visit φ ω} {raw : Verdict} (h : v.left.answer = .ok raw) :
    v.wish? = raw.target? := by rw [Visit.wish?, h]

/-- The last call decides, if it wishes at all. -/
theorem lastWish_concat (before : List (Visit φ ω)) (v : Visit φ ω) :
    lastWish (before ++ [v]) = (v.wish? <|> lastWish before) := by
  unfold lastWish
  rw [List.filterMap_append]
  cases hv : v.wish? with
  | none => simp [hv]
  | some target => simp [hv]

theorem lastWish_concat_eq_some {before : List (Visit φ ω)} {v : Visit φ ω} {target : Phase} :
    lastWish (before ++ [v]) = some target ↔
      v.wish? = some target ∨ v.wish? = none ∧ lastWish before = some target := by
  rw [lastWish_concat]
  cases v.wish? <;> simp

/-! ## What decides a pass -/

section

variable {convert : Converter} {positions : List Nat} {visits : List (Visit φ ω)}
  {result : Except Panic Outcome}

/-- A pass does not walk on behind a call that halts it. -/
theorem Visit.not_walked_of_halts {v : Visit φ ω} {index : Nat}
    (h : halts convert index v.left.answer = some result) : ¬ v.Walked convert := by
  rintro ⟨raw, ha, hc⟩
  rw [ha, halts, hc] at h
  cases h

/-- A call that halts a pass with a target was converted into a wish for it. -/
theorem back_of_halts {index : Nat} {answer : Except Panic Verdict} {target : Phase}
    (h : halts convert index answer = some (.ok (.resumeAt target))) :
    ∃ raw verdict, answer = .ok raw ∧ convert raw = .ok verdict ∧
      verdict.target? = some target := by
  cases answer with
  | error p => cases h
  | ok raw =>
    rw [halts] at h
    cases hc : convert raw with
    | error p => rw [hc] at h; cases h
    | ok verdict =>
      rw [hc] at h
      refine ⟨raw, verdict, rfl, hc, ?_⟩
      cases verdict <;> cases h <;> rfl

/-- No call completes a pass by halting it. -/
theorem halts_ne_completed {index : Nat} {answer : Except Panic Verdict} :
    halts convert index answer ≠ some (.ok .completed) := by
  intro h
  cases answer with
  | error p => cases h
  | ok raw =>
    rw [halts] at h
    cases hc : convert raw with
    | error p => rw [hc] at h; cases h
    | ok verdict => rw [hc] at h; cases verdict <;> cases h

/-- **A pass walks on behind every call, or its last call halts it.**  Behind the last position the
filters' own wishes decide. -/
theorem Concludes.walks_or_halts (h : Concludes convert positions visits result) :
    ((∀ u ∈ visits, u.Walked convert) ∧ visits.map (·.index) = positions ∧
        result = .ok (atEnd (lastWish visits))) ∨
      ∃ before v, visits = before ++ [v] ∧ (∀ u ∈ before, u.Walked convert) ∧
        halts convert v.index v.left.answer = some result := by
  cases h with
  | panic hw ha => exact .inr ⟨_, _, rfl, hw, by rw [ha]; rfl⟩
  | stop hw ha hc => exact .inr ⟨_, _, rfl, hw, by rw [ha, halts, hc]; rfl⟩
  | terminate hw ha hc => exact .inr ⟨_, _, rfl, hw, by rw [ha, halts, hc]; rfl⟩
  | @back _ _ _ verdict _ hw ha hc ht =>
    refine .inr ⟨_, _, rfl, hw, ?_⟩
    rw [ha, halts, hc]
    cases verdict <;> cases ht <;> rfl
  | escape hw ha hc => exact .inr ⟨_, _, rfl, hw, by rw [ha, halts, hc]⟩
  | exhausted hw hall =>
    refine .inl ⟨hw, hall, ?_⟩
    unfold lastWish
    cases (visits.filterMap (·.wish?)).getLast? <;> rfl

/-- …so the call made last let it walk on like the others, or halted it. -/
theorem Concludes.last_walks_or_halts {before : List (Visit φ ω)} {v : Visit φ ω}
    (h : Concludes convert positions (before ++ [v]) result) :
    ((∀ u ∈ before ++ [v], u.Walked convert) ∧ (before ++ [v]).map (·.index) = positions) ∨
      (∀ u ∈ before, u.Walked convert) ∧ halts convert v.index v.left.answer = some result := by
  rcases h.walks_or_halts with ⟨hw, hall, -⟩ | ⟨before', v', heq, hw, hhalts⟩
  · exact .inl ⟨hw, hall⟩
  · obtain rfl : v = v' := List.singleton_inj.mp (List.append_inj_right' heq rfl)
    obtain rfl := List.append_inj_left' heq rfl
    exact .inr ⟨hw, hhalts⟩

/-- **Where a pass that goes back takes its target from.** -/
theorem Concludes.target {target : Phase}
    (h : Concludes convert positions visits (.ok (.resumeAt target))) :
    ((∀ u ∈ visits, u.Walked convert) ∧ lastWish visits = some target) ∨
      ∃ before v raw verdict, visits = before ++ [v] ∧ v.left.answer = .ok raw ∧
      convert raw = .ok verdict ∧
        verdict.target? = some target := by
  rcases h.walks_or_halts with ⟨hw, -, hend⟩ | ⟨before, v, hvisits, -, hhalts⟩
  · refine .inl ⟨hw, ?_⟩
    cases hwish : lastWish visits with
    | none => rw [hwish] at hend; cases hend
    | some q => rw [hwish] at hend; cases hend; rfl
  · obtain ⟨raw, verdict, ha, hc, ht⟩ := back_of_halts hhalts
    exact .inr ⟨before, v, raw, verdict, hvisits, ha, hc, ht⟩

end

/-! ## Whose wish it is -/

/-- A pass whose last call is not overruled goes back where its filters last wished. -/
theorem Concludes.lastWish_iff {convert : Converter} {positions : List Nat}
    {visits : List (Visit φ ω)}
    {target : Phase} (h : Concludes convert positions visits (.ok (.resumeAt target))) :
    lastWish visits = some target ↔ ∀ before v, visits = before ++ [v] →
      v.Overruled convert target →
      v.wish? = none ∧ lastWish before = some target := by
  constructor
  · rintro hwish before v rfl ⟨raw, verdict, ha, -, -, hraw⟩
    exact (lastWish_concat_eq_some.mp hwish).resolve_left fun hv =>
      hraw (Visit.wish?_of_answer ha ▸ hv)
  · intro hlast
    rcases h.target with ⟨-, hwish⟩ | ⟨before, v, raw, verdict, rfl, ha, hc, ht⟩
    · exact hwish
    · refine lastWish_concat_eq_some.mpr ?_
      by_cases hraw : raw.target? = some target
      · exact .inl ((Visit.wish?_of_answer ha).trans hraw)
      · exact .inr (hlast before v rfl ⟨raw, verdict, ha, hc, ht, hraw⟩)

/-- The pass over one filter, whatever it answers. -/
theorem pass_single (convert : Converter) {raw verdict : Verdict} {target : Phase}
    (hc : convert raw = .ok verdict) (ht : verdict.target? = some target) :
    let call (_ : Nat) (_ _ : Unit) : Called Unit Unit := ⟨.ok raw, (), ()⟩
    (pass () 0 convert call [⟨(), ()⟩] ()).result = .ok (.resumeAt target) ∧
      lastWish (visits () 0 convert call [⟨(), ()⟩] ()) = raw.target? := by
  intro call
  have he : 0 ≤ 0 ∧ (⟨(), ()⟩ : Entry Unit Unit).point = () := ⟨Nat.le_refl 0, rfl⟩
  have hh : halts convert 0 (call 0 () ()).answer = some (.ok (.resumeAt target)) := by
    simp only [call, halts, hc]
    cases verdict <;> cases ht <;> rfl
  constructor
  · rw [pass, passFrom_halt he hh]
  · have hvisits : visitsFrom () 0 convert call none 0 [⟨(), ()⟩] ()
      = [⟨0, (), (), call 0 () ()⟩] :=
      visitsFrom_halt he hh
    rw [visitsFrom] at hvisits
    rw [visits, pass, hvisits]
    simp [lastWish, Visit.wish?, call]

/-- **Whose wish a pass follows.**  A pass that goes back goes where its filters last wished
themselves, unless the converter overrules its last call; and it always does so just when the
converter makes no wish of its own. -/
theorem follows_own_wish_iff (convert : Converter) :
    (∀ {φ π ω : Type} [DecidableEq π] (point : π) (start : Nat) (call : Nat → φ → ω → Called φ ω)
      (chain : Chain φ π) (w : ω) (target : Phase),
        (chain.pass point start convert call w).result = .ok (.resumeAt target) →
          (lastWish (chain.visits point start convert call w) = some target ↔
            ∀ before v, chain.visits point start convert call w = before ++ [v] →
              v.Overruled convert target → v.wish? = none ∧ lastWish before = some target)) ∧
      ((∀ {φ π ω : Type} [DecidableEq π] (point : π) (start : Nat) (call : Nat → φ → ω → Called φ ω)
        (chain : Chain φ π) (w : ω) (target : Phase),
          (chain.pass point start convert call w).result = .ok (.resumeAt target) →
            lastWish (chain.visits point start convert call w) = some target) ↔
              convert.RespectsWishes) := by
  have hpass {φ π ω : Type} [DecidableEq π] (point : π) (start : Nat)
    (call : Nat → φ → ω → Called φ ω)
      (chain : Chain φ π) (w : ω) (target : Phase)
      (hresult : (chain.pass point start convert call w).result = .ok (.resumeAt target)) :=
    (hresult ▸ (meets_pass point start convert call chain w).concludes).lastWish_iff
  refine ⟨hpass, ?_, ?_⟩
  · intro hown raw verdict target hc ht
    obtain ⟨hresult, hwish⟩ := pass_single convert hc ht
    exact hwish ▸ hown _ _ _ _ _ _ hresult
  · intro hrespects _ _ _ _ point start call chain w target hresult
    refine (hpass point start call chain w target hresult).mpr fun before v _ hover => ?_
    obtain ⟨raw, verdict, -, hc, ht, hraw⟩ := hover
    exact absurd (hrespects raw verdict target hc ht) hraw

/-- A filter that is nothing but its answer. -/
def echo (_ : Nat) (filter : Verdict) (_ : Unit) : Called Verdict Unit := ⟨.ok filter, filter, ()⟩

/-- Under the policy that walks on, the wish of the first filter is followed behind the last. -/
theorem wish_outlives_walkOn :
    let chain : Chain Verdict Unit := [⟨.rematch, ()⟩, ⟨.proceed, ()⟩]
    (chain.pass () 0 (.total Verdict.walkOn) echo ()).result = .ok (.resumeAt .matchRoute) ∧
      lastWish (chain.visits () 0 (.total Verdict.walkOn) echo ()) = some .matchRoute :=
  ⟨rfl, (follows_own_wish_iff _).2.mpr Converter.respectsWishes_walkOn _ _ _ _ _ _ rfl⟩

/-- A policy that chooses a host where a filter wished to match a route sends the pass where nobody
wished, and one that matches a route where a filter let the message through does so although nobody
wished at all. -/
theorem wish_of_converter :
    let rechoosing : Converter := .total fun
      | .rematch => .rechoose
      | v => v
    let rematching : Converter := .total fun
      | .proceed => .rematch
      | v => v
    ((pass () 0 rechoosing echo [⟨.rematch, ()⟩] ()).result = .ok (.resumeAt .chooseHost) ∧
        lastWish (visits () 0 rechoosing echo [⟨.rematch, ()⟩] ()) = some .matchRoute) ∧
      (pass () 0 rematching echo [⟨.proceed, ()⟩] ()).result = .ok (.resumeAt .matchRoute) ∧
        lastWish (visits () 0 rematching echo [⟨.proceed, ()⟩] ()) = none :=
  ⟨⟨rfl, rfl⟩, rfl, rfl⟩

end Chain

end FilterProxy
