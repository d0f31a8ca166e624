import FilterProxy.Proofs.Board.Moves

/-!
# Proofs/Board/Touch — what filters do to a board

A filter reaches its board in three ways: it acts through its handle, its replacements are put in,
and events about it are noted.  Each is a **touch**.  Programs are made of touches, and so are
passes and farewells; a touch changes neither the status nor who may reply, and what it logs is
known.
-/

namespace FilterProxy

variable {σ : Type}

namespace Event

/-- A filter looks through its handle. -/
def isLook : Event σ → Bool
  | .looked _ _ _ _ => true
  | _ => false

theorem isQuiet_of_isLook {e : Event σ} (h : e.isLook = true) : e.isQuiet = true := by
  cases e <;> first | rfl | cases h

/-- A filter is given its handle, or one looks. -/
def isIntroduction : Event σ → Bool
  | .added _ _ _ => true
  | e => e.isLook

theorem isQuiet_of_isIntroduction {e : Event σ} (h : e.isIntroduction = true) :
    e.isQuiet = true := by
  cases e <;> first | rfl | cases h

theorem isIntroduction_of_isLook {e : Event σ} (h : e.isLook = true) : e.isIntroduction = true := by
  cases e <;> first | rfl | cases h

end Event

namespace Board

/-- One thing a filter of `side` does to a board.  The events noted about it satisfy `A`. -/
inductive Touch (side : Side) (A : Event σ → Prop) : Board σ → Board σ → Prop
  | act (b) (index : Nat) (x : Action side) : Touch side A b (b.perform index x)
  | put (b) (p : Parts) : Touch side A b (b.putReplaced p).2
  | note (b) {e} (h : A e) : Touch side A b (b.note e)

/-- What filters of `side` do to a board in the course of some work. -/
abbrev Touched (side : Side) (A : Event σ → Prop) : Board σ → Board σ → Prop :=
  Relation.ReflTransGen (Touch side A)

/-! ## Actions through a handle -/

section

variable {b : Board σ} {side : Side} (index : Nat) (x : Action side)

/-- An action is made of moves. -/
theorem moves_perform (ho : b.owned = true) : Moves b (b.perform index x) := by
  cases x with
  | reply code headers =>
    cases hc : b.closed
    · have ho' : (b.raise code headers).2.owned = true := by simp [raise, hc, note, ho]
      have h : b.perform index (.reply code headers)
          = (b.raise code headers).2.note (.scheduled (.resume none)) := by
        simp [perform, raise, hc, schedule, note, ho]
      rw [h]
      exact .tail (.single (.raise b code headers)) (.note _ rfl)
    · have h : b.perform index (.reply code headers) = (b.raise code headers).2 := by
        simp [perform, raise, hc]
      exact h ▸ .single (.raise b code headers)
  | replaceHeaders h => exact .single (.edit ⟨rfl, rfl, rfl, rfl, rfl, .inl rfl, id⟩)
  | replaceData d => exact .single (.edit ⟨rfl, rfl, rfl, rfl, rfl, .inl rfl, id⟩)
  | replaceTrailers t => exact .single (.edit ⟨rfl, rfl, rfl, rfl, rfl, .inl rfl, id⟩)
  | resume =>
    have h : b.perform index (.resume : Action side)
        = b.note (.scheduled (.resume (some (side, index)))) := schedule_of_owned ho _
    exact h ▸ .single (.note b rfl)
  | terminate =>
    have h : b.perform index (.terminate : Action side) = (b.terminate .filterTerminated).2 := by
      simp [perform, ho]
    exact h ▸ .single (.terminate b _ ho)

/-- An action logs only what handles may log. -/
theorem log_perform (ho : b.owned = true) :
    ∃ new, (b.perform index x).log = new ++ b.log ∧ ∀ e ∈ new, e.byHandle = true := by
  cases x with
  | reply code headers =>
    cases hc : b.closed
    · exact ⟨[.scheduled (.resume none), .replied code headers true],
        by simp [perform, raise, hc, schedule, note, ho], by simp [Event.byHandle]⟩
    · exact ⟨[.replied code headers false], by simp [perform, raise, hc, note],
        by simp [Event.byHandle]⟩
  | replaceHeaders h => exact ⟨[], rfl, by simp⟩
  | replaceData d => exact ⟨[], rfl, by simp⟩
  | replaceTrailers t => exact ⟨[], rfl, by simp⟩
  | resume =>
    exact ⟨[.scheduled (.resume (some (side, index)))], by simp [perform, ho, note],
      by simp [Event.byHandle]⟩
  | terminate =>
    cases hc : b.claimed
    · refine ⟨.scheduled (.release .filterTerminated) :: claimEvents .filterTerminated, ?_, ?_⟩
      · simp [perform, ho, terminate_of_unclaimed ho hc]
      · simp [claimEvents, Ending.isAbort, Event.byHandle]
    · exact ⟨[], by simp [perform, ho, hc], by simp⟩

end

/-! ## Programs -/

/-- **A program touches its board** only by actions and looks. -/
theorem touched_run {α : Type} {side : Side} (filter : σ) (index : Nat) (program : Program side α)
    (b : Board σ) : Touched side (·.isLook = true) b (program.run filter index b).2 := by
  induction program generalizing b with
  | done a => exact .refl
  | act x rest ih => exact .head (.act b index x) (ih _)
  | look rest ih => exact .head (.note b rfl) (ih _ _)

namespace Touched

variable {side : Side} {A : Event σ → Prop} {b b' : Board σ}

theorem mono {A' : Event σ → Prop} (hA : ∀ e, A e → A' e) (h : Touched side A b b') :
    Touched side A' b b' := by
  refine Relation.ReflTransGen.mono (fun _ _ ht => ?_) _ _ h
  cases ht with
  | act index x => exact .act _ index x
  | put p => exact .put _ p
  | note h => exact .note _ (hA _ h)

theorem moves (hA : ∀ e, A e → e.isQuiet = true) (h : Touched side A b b') (ho : b.owned = true) :
    Moves b b' := by
  induction h with
  | refl => exact .refl
  | @tail b₁ b₂ _ ht ih =>
    have ho₁ : b₁.owned = true := ih.owned.trans ho
    cases ht with
    | act index x => exact ih.trans (moves_perform index x ho₁)
    | put p => exact ih.tail (.edit ⟨rfl, rfl, rfl, rfl, rfl, .inl rfl, id⟩)
    | note h => exact ih.tail (.note _ (hA _ h))

/-- What was logged either came through a handle or is about the filter. -/
theorem log (hA : ∀ e, A e → e.isQuiet = true) (h : Touched side A b b') (ho : b.owned = true) :
    ∃ new, b'.log = new ++ b.log ∧ ∀ e ∈ new, A e ∨ e.byHandle = true := by
  induction h with
  | refl => exact ⟨[], rfl, by simp⟩
  | @tail b₁ b₂ hb ht ih =>
    obtain ⟨new, hnew, hkind⟩ := ih
    have ho₁ : b₁.owned = true := (moves hA hb ho).owned.trans ho
    cases ht with
    | act index x =>
      obtain ⟨new', hnew', hkind'⟩ := log_perform index x ho₁
      refine ⟨new' ++ new, by rw [hnew', hnew, List.append_assoc], fun e he => ?_⟩
      rcases List.mem_append.mp he with he | he
      · exact .inr (hkind' e he)
      · exact hkind e he
    | put p => exact ⟨new, hnew, hkind⟩
    | @note e he =>
      refine ⟨e :: new, by rw [Board.note, hnew]; rfl, fun f hf => ?_⟩
      rcases List.mem_cons.mp hf with rfl | hf
      · exact .inl he
      · exact hkind f hf

/-- A projection that reads neither is blind to the work. -/
theorem filterMap {α : Type} {f : Event σ → Option α} (hA : ∀ e, A e → e.isQuiet = true)
    (hf : ∀ e, A e ∨ e.byHandle = true → f e = none) (h : Touched side A b b')
    (ho : b.owned = true) : b'.log.filterMap f = b.log.filterMap f := by
  obtain ⟨new, hlog, hkind⟩ := h.log hA ho
  rw [hlog, List.filterMap_append, List.filterMap_eq_nil_iff.mpr fun e he => hf e (hkind e he)]
  rfl

end Touched

end Board

end FilterProxy
