import FilterProxy.Proofs.Farewell
import FilterProxy.Proofs.Drive

/-!
# Proofs/Board/Frame — what work on a board leaves alone

Handles, filters and endings neither route a request nor name a host, and they set no time limit:
their work on a board is **framed** (`Board.Frame`).  A claim alone takes the route away, and
nothing of the frame but a claim makes a stream claimed.
-/

namespace FilterProxy

variable {σ : Type}

namespace Event

/-- The pause whose time limit is set, or is put out as a job. -/
def alarm? : Event σ → Option Nat
  | .armed _ generation => some generation
  | .scheduled (.timeout generation) => some generation
  | _ => none

/-- The event sets no time limit and calls no collaborator. -/
structure Framed (e : Event σ) : Prop where
  alarm : e.alarm? = none
  outward : e.isOutward = false

/-- The event is framed, publishes nothing and calls no request filter. -/
structure Apart (e : Event σ) : Prop extends Framed e where
  status : e.status? = none
  call : e.call? .request = none

theorem apart_of_isLook {e : Event σ} (h : e.isLook = true) : e.Apart := by
  cases e <;> first | exact ⟨⟨rfl, rfl⟩, rfl, rfl⟩ | cases h

theorem apart_of_isIntroduction {e : Event σ} (h : e.isIntroduction = true) : e.Apart := by
  cases e <;> first | exact ⟨⟨rfl, rfl⟩, rfl, rfl⟩ | cases h

theorem apart_of_inFarewell {side : Side} {e : Event σ} (h : e.inFarewell side = true) :
    e.Apart := by
  cases e <;> first | exact ⟨⟨rfl, rfl⟩, rfl, rfl⟩ | cases h

theorem framed_of_inPass {side : Side} {e : Event σ} (h : e.inPass side = true) : e.Framed := by
  cases e <;> first | exact ⟨rfl, rfl⟩ | cases h

theorem apart_of_inPass {e : Event σ} (h : e.inPass .response = true) : e.Apart := by
  cases e with
  | called side =>
    obtain rfl : side = .response := by simpa [inPass] using h
    exact ⟨⟨rfl, rfl⟩, rfl, rfl⟩
  | _ => first | exact ⟨⟨rfl, rfl⟩, rfl, rfl⟩ | cases h

theorem apart_of_mem_claimEvents {ending : Ending} {e : Event σ}
    (h : e ∈ Board.claimEvents ending) : e.Apart := by
  rcases Board.mem_claimEvents h with rfl | rfl | rfl <;> exact ⟨⟨rfl, rfl⟩, rfl, rfl⟩

end Event

namespace Board

/-- **What framed work does to a board.**  What it logs satisfies `A`. -/
structure Frame (A : Event σ → Prop) (b b' : Board σ) : Prop where
  log : ∃ new, b'.log = new ++ b.log ∧ ∀ e ∈ new, A e
  owned : b'.owned = b.owned
  /-- A claim takes the route away. -/
  route : b'.claimed = b.claimed ∧ b'.route = b.route ∨ b'.claimed = true ∧ b'.route = none
  named : b'.info.route = b.info.route ∧ b'.info.host = b.info.host

namespace Frame

variable {A : Event σ → Prop} {b b' b'' : Board σ}

theorem refl (b : Board σ) : Frame A b b :=
  ⟨⟨[], rfl, by simp⟩, rfl, .inl ⟨rfl, rfl⟩, rfl, rfl⟩

theorem trans (h : Frame A b b') (h' : Frame A b' b'') : Frame A b b'' where
  log := by
    obtain ⟨new, hlog, hnew⟩ := h.log
    obtain ⟨new', hlog', hnew'⟩ := h'.log
    refine ⟨new' ++ new, by rw [hlog', hlog, List.append_assoc], fun e he => ?_⟩
    exact (List.mem_append.mp he).elim (hnew' e) (hnew e)
  owned := h'.owned.trans h.owned
  route := by
    rcases h'.route with ⟨hc', hr'⟩ | hgone
    · rw [hc', hr']
      exact h.route
    · exact .inr hgone
  named := ⟨h'.named.1.trans h.named.1, h'.named.2.trans h.named.2⟩

theorem mono {A' : Event σ → Prop} (hA : ∀ e, A e → A' e) (h : Frame A b b') : Frame A' b b' :=
  { h with log := h.log.imp fun _ hnew => ⟨hnew.1, fun e he => hA e (hnew.2 e he)⟩ }

/-- Nobody takes a claim back. -/
theorem claimed (h : Frame A b b') (hc : b.claimed = true) : b'.claimed = true := by
  rcases h.route with ⟨hc', -⟩ | ⟨hc', -⟩
  · exact hc'.trans hc
  · exact hc'

theorem unclaimed (h : Frame A b b') (hc : b'.claimed = false) : b.claimed = false :=
  Bool.eq_false_iff.mpr fun hc' => by
    rw [h.claimed hc'] at hc
    cases hc

/-- **While nobody claims the stream its route stands.** -/
theorem route_eq (h : Frame A b b') (hc : b'.claimed = false) : b'.route = b.route := by
  rcases h.route with ⟨-, hr⟩ | ⟨hc', -⟩
  · exact hr
  · rw [hc] at hc'
    cases hc'

end Frame

/-! ## Pieces of work -/

section

variable {A : Event σ → Prop} {b : Board σ}

theorem frame_note {e : Event σ} (h : A e) : Frame A b (b.note e) :=
  ⟨⟨[e], rfl, List.forall_mem_singleton.mpr h⟩, rfl, .inl ⟨rfl, rfl⟩, rfl, rfl⟩

theorem frame_publish {s : Status} (h : A (.published s)) : Frame A b (b.publish s) :=
  ⟨⟨[.published s], rfl, List.forall_mem_singleton.mpr h⟩, rfl, .inl ⟨rfl, rfl⟩, rfl, rfl⟩

theorem frame_schedule {job : Job} (h : A (.scheduled job)) : Frame A b (b.schedule job) := by
  unfold schedule
  split
  · exact frame_note h
  · exact .refl b

theorem frame_raise (code : UInt16) (headers : Headers)
    (h : ∀ accepted, A (.replied code headers accepted)) : Frame A b (b.raise code headers).2 := by
  unfold raise
  split
  · exact frame_note (h false)
  · exact ⟨⟨[_], rfl, List.forall_mem_singleton.mpr (h true)⟩, rfl, .inl ⟨rfl, rfl⟩, rfl, rfl⟩

theorem frame_claim (ending : Ending) (h : ∀ e ∈ claimEvents ending, A e) :
    Frame A b (b.claim ending).2 := by
  cases hc : b.claimed with
  | true => rw [claim_of_claimed hc]; exact .refl b
  | false =>
    rw [claim_of_unclaimed hc]
    exact ⟨⟨claimEvents ending, rfl, h⟩, rfl, .inr ⟨rfl, rfl⟩, rfl, rfl⟩

theorem frame_terminate (ending : Ending) (h : ∀ e ∈ claimEvents ending, A e)
    (hr : A (.scheduled (.release ending))) : Frame A b (b.terminate ending).2 := by
  unfold terminate
  dsimp only
  split
  · exact (frame_claim ending h).trans (frame_schedule hr)
  · exact frame_claim ending h

/-- **An action through a handle is framed.** -/
theorem frame_perform {side : Side} (index : Nat) (x : Action side) (ho : b.owned = true) :
    Frame Event.Apart b (b.perform index x) := by
  cases x with
  | reply code headers =>
    have hraise : Frame Event.Apart b (b.raise code headers).2 :=
      frame_raise code headers fun _ => ⟨⟨rfl, rfl⟩, rfl, rfl⟩
    unfold perform
    dsimp only
    split
    · exact hraise.trans (frame_schedule ⟨⟨rfl, rfl⟩, rfl, rfl⟩)
    · exact hraise
  | replaceHeaders | replaceData | replaceTrailers =>
    exact ⟨⟨[], rfl, by simp⟩, rfl, .inl ⟨rfl, rfl⟩, rfl, rfl⟩
  | resume => exact frame_schedule ⟨⟨rfl, rfl⟩, rfl, rfl⟩
  | terminate =>
    have h : b.perform index (.terminate : Action side) = (b.terminate .filterTerminated).2 := by
      simp [perform, ho]
    exact h ▸ frame_terminate _ (fun _ => Event.apart_of_mem_claimEvents) ⟨⟨rfl, rfl⟩, rfl, rfl⟩

/-- **What filters do is framed**, if the events noted about them are. -/
theorem Touched.frame {side : Side} {b' : Board σ} (hA : ∀ e, e.Apart → A e)
    (h : Touched side A b b') (ho : b.owned = true) : Frame A b b' := by
  induction h with
  | refl => exact .refl b
  | @tail b₁ b₂ _ ht ih =>
    have ho₁ : b₁.owned = true := ih.owned.trans ho
    cases ht with
    | act index x => exact ih.trans ((frame_perform index x ho₁).mono hA)
    | put p => exact ih.trans ⟨⟨[], rfl, by simp⟩, rfl, .inl ⟨rfl, rfl⟩, rfl, rfl⟩
    | note h => exact ih.trans (frame_note h)

theorem frame_run {α : Type} {side : Side} (filter : σ) (index : Nat) (program : Program side α)
    (ho : b.owned = true) : Frame Event.Apart b (program.run filter index b).2 :=
  ((touched_run filter index program b).mono fun _ => Event.apart_of_isLook).frame (fun _ => id) ho

end

end Board

/-! ## Introductions, passes and endings -/

namespace FilterSet

open Board

variable (β : Behaviour σ)

theorem frame_introduce (s : FilterSet σ) (r : Registration σ) {b : Board σ} (ho : b.owned = true) :
    Frame Event.Apart b (s.introduce β b r).2 :=
  ((touched_introduce β s b r).mono fun _ => Event.apart_of_isIntroduction).frame (fun _ => id) ho

/-- A pass is framed if every call is. -/
theorem frame_pass {π : Type} [DecidableEq π] {side : Side} {A : Event σ → Prop} (point : π)
    (start : Nat) (convert : Converter)
    {φ : Type} {call : Nat → φ → Workbench σ → Chain.Called φ (Workbench σ)}
    (hcall : ∀ i f w, Walked side w.board (call i f w).state.board)
    (hA : ∀ e, e.inPass side = true → A e) (hA' : ∀ e, e.Apart → A e) (chain : Chain φ π)
    (w : Workbench σ) (ho : w.board.owned = true) :
    Frame A w.board (chain.pass point start convert call w).state.board := by
  obtain ⟨is, hp⟩ : ∃ is, Chain.Passes point start convert call none 0 chain w is _ :=
    Chain.passes_passFrom none 0 chain w
  exact hp.keeps (P := fun v => Frame A w.board v.board)
    (fun i f v hv => hv.trans (((hcall i f v).mono hA).frame hA' (hv.owned.trans ho))) (.refl _)

/-- **A pass over request filters** is framed, and then notes what it came to. -/
theorem frame_passRequests (point : RequestPoint) (start : Nat) (convert : Converter)
    (s : FilterSet σ) (w : Workbench σ) (ho : w.board.owned = true) :
    Frame Event.Framed w.board (passRequests β point start convert s w).bench.board := by
  have hpoint (p : Option RequestPoint) (b : Board σ) :
      Frame Event.Framed b { b with point := p } :=
    ⟨⟨[], rfl, by simp⟩, rfl, .inl ⟨rfl, rfl⟩, rfl, rfl⟩
  have hpass := frame_pass point start convert (walked_callRequest β)
    (fun _ => Event.framed_of_inPass) (fun _ => Event.Apart.toFramed) s.requests
    { w with board := { w.board with point := some point } } ho
  unfold passRequests
  dsimp only
  split
  · exact ((hpoint _ _).trans hpass).trans (frame_note ⟨rfl, rfl⟩)
  · exact (((hpoint _ _).trans hpass).trans (hpoint none _)).trans (frame_note ⟨rfl, rfl⟩)

theorem frame_passResponses (point : ResponsePoint) (start : Nat) (convert : Converter)
    (s : FilterSet σ) (w : Workbench σ) (ho : w.board.owned = true) :
    Frame Event.Apart w.board (passResponses β point start convert s w).bench.board :=
  frame_pass point start convert (walked_callResponse β) (fun _ => Event.apart_of_inPass)
    (fun _ => id) s.responses w ho

theorem frame_destroyFrom {π : Type} (side : Side) (index : Nat) (chain : Chain (Seated σ) π)
    (b : Board σ) (ho : b.owned = true) :
      Frame Event.Apart b (destroyFrom β side index chain b).2.2 := by
  obtain ⟨count, h⟩ := round_destroyFrom β side index chain b ho
  exact (Touched.mono (fun _ => Event.apart_of_inFarewell) h.told).frame (fun _ => id) ho

theorem frame_destroy (s : FilterSet σ) (b : Board σ) (ho : b.owned = true) :
    Frame Event.Apart b (destroy β s b).2.2 := by
  have hrequests := frame_destroyFrom β .request 0 s.requests b ho
  unfold destroy
  dsimp only
  split
  · exact hrequests
  · exact hrequests.trans (frame_destroyFrom β .response 0 s.responses _ (hrequests.owned.trans ho))

end FilterSet

end FilterProxy
