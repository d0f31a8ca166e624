import FilterProxy.Proofs.Farewell

/-!
# Proofs/Board/Stir — what is done to a board, to the last field

A move leaves open what becomes of the direct reply.  A **stir** does not: a reply is raised,
cleanup is claimed, fields are edited that no reply depends on, or an event is noted by which no
stream moves.  **Programs, introductions, passes and farewells are made of stirs** (`stirred_run`,
`stirred_passRequests`, …), so what every stir keeps they keep.
-/

namespace FilterProxy

variable {σ : Type}

namespace Event

/-- The event neither publishes, claims or replies, nor leads the stream anywhere. -/
def isNote : Event σ → Bool
  | .published _ | .entered _ | .jumped _ | .replied _ _ _ | .claimed _ | .forwarded _ _ _ => false
  | .scheduled (.response _) | .passed _ (.ok (.resumeAt _)) => false
  | .stat .cleaned | .stat (.terminated _) => false
  | _ => true

theorem isNote_of_isLook {e : Event σ} (h : e.isLook = true) : e.isNote = true := by
  cases e <;> first | rfl | cases h

theorem isNote_of_isIntroduction {e : Event σ} (h : e.isIntroduction = true) : e.isNote = true := by
  cases e <;> first | rfl | cases h

theorem isNote_of_inPass {side : Side} {e : Event σ} (h : e.inPass side = true) :
    e.isNote = true := by
  cases e <;> first | rfl | cases h

theorem isNote_of_inFarewell {side : Side} {e : Event σ} (h : e.inFarewell side = true) :
    e.isNote = true := by
  cases e <;> first | rfl | cases h

theorem isNote_passed {point : RequestPoint} {result : Except Panic Outcome}
    (h : ∀ q, result ≠ .ok (.resumeAt q)) : (passed point result : Event σ).isNote = true := by
  rcases result with _ | _ | _ | q | _
  case ok.resumeAt => exact absurd rfl (h q)
  all_goals rfl

end Event

namespace Board

/-- One thing that filters, jobs or the outside do to a board. -/
inductive Stir : Board σ → Board σ → Prop
  | edit (b) (point : Option RequestPoint) (route : Option Route) (info : Info)
      (replaced : Replaced) : Stir b { b with point, route, info, replaced }
  | raise (b) (code : UInt16) (headers : Headers) : Stir b (b.raise code headers).2
  | claim (b) (ending : Ending) : Stir b (b.claim ending).2
  | note (b) {e} (h : e.isNote = true) : Stir b (b.note e)

/-- What is done to a board in the course of some work. -/
abbrev Stirred : Board σ → Board σ → Prop := Relation.ReflTransGen Stir

namespace Stirred

variable {b b' : Board σ}

/-- **What every stir keeps, all of them keep.** -/
theorem keeps {K : Board σ → Prop} (hK : ∀ b b', Stir b b' → K b → K b') (h : Stirred b b')
    (hb : K b) : K b' := by
  induction h with
  | refl => exact hb
  | tail _ h ih => exact hK _ _ h ih

/-- **Nobody else closes the way for replies, publishes a status or disowns the board.** -/
theorem constant (h : Stirred b b') :
    b'.closed = b.closed ∧ b'.status = b.status ∧ b'.owned = b.owned := by
  refine h.keeps (K := fun b' => b'.closed = b.closed ∧ b'.status = b.status ∧ b'.owned = b.owned)
    (fun b₁ b₂ hs hb => ?_) ⟨rfl, rfl, rfl⟩
  cases hs with
  | raise code headers => unfold Board.raise; split <;> exact hb
  | claim ending => cases hc : b₁.claimed <;> simpa [claim_of_unclaimed, hc, clear] using hb
  | _ => exact hb

theorem owned (h : Stirred b b') (ho : b.owned = true) : b'.owned = true := h.constant.2.2.trans ho

/-- Nobody takes a claim back. -/
theorem claimed (h : Stirred b b') (hc : b.claimed = true) : b'.claimed = true := by
  refine h.keeps (K := fun b => b.claimed = true) (fun b₁ b₂ hs hc => ?_) hc
  cases hs with
  | raise code headers => unfold Board.raise; split <;> exact hc
  | claim ending => rw [claim_of_claimed hc]; exact hc
  | _ => exact hc

theorem unclaimed (h : Stirred b b') (hc : b'.claimed = false) : b.claimed = false :=
  Bool.eq_false_iff.mpr fun hc' => by
    rw [h.claimed hc'] at hc
    cases hc

end Stirred

/-! ## Handles and programs -/

variable {b : Board σ}

theorem stirred_schedule (ho : b.owned = true) {job : Job} (hj : ∀ m, job ≠ .response m) :
    Stirred b (b.schedule job) := by
  rw [schedule_of_owned ho]
  refine .single (.note b ?_)
  rcases job with _ | _ | _ | m | _
  case response => exact absurd rfl (hj m)
  all_goals rfl

theorem stirred_terminate (ho : b.owned = true) (ending : Ending) :
    Stirred b (b.terminate ending).2 := by
  have hclaim : Stirred b (b.claim ending).2 := .single (.claim b ending)
  unfold Board.terminate
  dsimp only
  split
  · exact hclaim.trans (stirred_schedule (hclaim.owned ho) nofun)
  · exact hclaim

theorem stirred_perform {side : Side} (index : Nat) (x : Action side) (ho : b.owned = true) :
    Stirred b (b.perform index x) := by
  cases x with
  | reply code headers =>
    have hraise : Stirred b (b.raise code headers).2 := .single (.raise b code headers)
    unfold Board.perform
    dsimp only
    split
    · exact hraise.trans (stirred_schedule (hraise.owned ho) nofun)
    · exact hraise
  | replaceHeaders h => exact .single (.edit b _ _ _ _)
  | replaceData d => exact .single (.edit b _ _ _ _)
  | replaceTrailers t => exact .single (.edit b _ _ _ _)
  | resume => exact stirred_schedule ho nofun
  | terminate =>
    have h : b.perform index (.terminate : Action side) = (b.terminate .filterTerminated).2 := by
      simp [perform, ho]
    exact h ▸ stirred_terminate ho _

/-- **Touches are stirs**, if the events noted are. -/
theorem Touched.stirred {side : Side} {A : Event σ → Prop} {b' : Board σ}
    (hA : ∀ e, A e → e.isNote = true) (h : Touched side A b b') (ho : b.owned = true) :
    Stirred b b' := by
  induction h with
  | refl => exact .refl
  | @tail b₁ b₂ _ ht ih =>
    cases ht with
    | act index x => exact ih.trans (stirred_perform index x (ih.owned ho))
    | put p => exact ih.tail (.edit _ _ _ _ _)
    | note h => exact ih.tail (.note _ (hA _ h))

theorem stirred_run {α : Type} {side : Side} (filter : σ) (index : Nat) (program : Program side α)
    (ho : b.owned = true) : Stirred b (program.run filter index b).2 :=
  (touched_run filter index program b).stirred (fun _ => Event.isNote_of_isLook) ho

end Board

/-! ## Introductions, passes and farewells -/

namespace FilterSet

open Board

variable (β : Behaviour σ)

theorem stirred_introduce (s : FilterSet σ) {b : Board σ} (ho : b.owned = true)
    (r : Registration σ) :
    Stirred b (s.introduce β b r).2 :=
  (touched_introduce β s b r).stirred (fun _ => Event.isNote_of_isIntroduction) ho

/-- A pass stirs the board if every call does. -/
theorem stirred_pass {π : Type} [DecidableEq π] {side : Side} (point : π) (start : Nat)
    (convert : Converter) {φ : Type} {call : Nat → φ → Workbench σ → Chain.Called φ (Workbench σ)}
    (hwalked : ∀ i f w, Walked side w.board (call i f w).state.board) (chain : Chain φ π)
    (w : Workbench σ) (ho : w.board.owned = true) :
    Stirred w.board (chain.pass point start convert call w).state.board := by
  obtain ⟨is, hp⟩ : ∃ is, Chain.Passes point start convert call none 0 chain w is _ :=
    Chain.passes_passFrom none 0 chain w
  exact hp.keeps (P := fun v => Stirred w.board v.board)
    (fun i f v hv => hv.trans
      ((hwalked i f v).stirred (fun _ => Event.isNote_of_inPass) (hv.owned ho))) .refl

/-- **A pass over request filters** stirs the board and then notes what it came to. -/
theorem stirred_passRequests (point : RequestPoint) (start : Nat) (convert : Converter)
    (s : FilterSet σ) (w : Workbench σ) (ho : w.board.owned = true) :
    let r := passRequests β point start convert s w
    ∃ b, Stirred w.board b ∧ r.bench.board = b.note (.passed point r.result) := by
  have hpoint : Stirred w.board { w.board with point := some point } := .single (.edit _ _ _ _ _)
  have hpass := stirred_pass point start convert (walked_callRequest β) s.requests
    { w with board := { w.board with point := some point } } ho
  unfold passRequests
  dsimp only
  split
  · exact ⟨_, hpoint.trans hpass, rfl⟩
  · exact ⟨_, (hpoint.trans hpass).tail (.edit _ none _ _ _), rfl⟩

theorem stirred_passResponses (point : ResponsePoint) (start : Nat) (convert : Converter)
    (s : FilterSet σ) (w : Workbench σ) (ho : w.board.owned = true) :
    Stirred w.board (passResponses β point start convert s w).bench.board :=
  stirred_pass point start convert (walked_callResponse β) s.responses w ho

theorem stirred_destroyFrom {π : Type} (side : Side) (index : Nat) (chain : Chain (Seated σ) π)
    (b : Board σ) (ho : b.owned = true) : Stirred b (destroyFrom β side index chain b).2.2 := by
  obtain ⟨count, h⟩ := round_destroyFrom β side index chain b ho
  exact Touched.stirred (fun _ => Event.isNote_of_inFarewell) h.told ho

theorem stirred_destroy (s : FilterSet σ) (b : Board σ) (ho : b.owned = true) :
    Stirred b (destroy β s b).2.2 := by
  have hrequests := stirred_destroyFrom β .request 0 s.requests b ho
  unfold destroy
  dsimp only
  split
  · exact hrequests
  · exact hrequests.trans (stirred_destroyFrom β .response 0 s.responses _ (hrequests.owned ho))

end FilterSet

namespace Stream

open Board

variable (β : Behaviour σ) (ending : Ending)

/-- **An ending stirs the board** and publishes itself at most. -/
theorem stirred_release {s : Stream σ} (ho : s.board.owned = true) :
    ∃ b, Stirred s.board b ∧ ((s.release β ending).2.board = b ∨
      (s.release β ending).2.board = b.publish (.finished ending)) := by
  refine ⟨_, FilterSet.stirred_destroy β s.filters s.board ho, ?_⟩
  rw [release_eq]
  cases (s.filters.destroy β s.board).1 with
  | some p => exact .inl rfl
  | none => exact .inr rfl

theorem stirred_finish {s : Stream σ} (ho : s.board.owned = true) :
    ∃ b, Stirred s.board b ∧ ((s.finish β ending).2.board = b ∨
      (s.finish β ending).2.board = b.publish (.finished ending)) := by
  cases hc : s.board.claimed with
  | true => exact ⟨_, .refl, .inl (by rw [finish_of_claimed β hc])⟩
  | false =>
    have hclaim : Stirred s.board (s.board.claim ending).2 := .single (.claim _ ending)
    obtain ⟨b, hb, hboard⟩ := stirred_release β ending
      (s := { s with board := (s.board.claim ending).2 }) (hclaim.owned ho)
    rw [finish_of_unclaimed β hc]
    exact ⟨b, hclaim.trans hb, hboard⟩

end Stream

end FilterProxy
