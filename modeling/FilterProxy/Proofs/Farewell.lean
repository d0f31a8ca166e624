import FilterProxy.Stream
import FilterProxy.Proofs.Pass

/-!
# Proofs/Farewell — how far the round of farewells gets

The round tells filters in order that the stream is gone, and **each is told once, up to the first
that panics** (`Round.farewells`).  Whether one panics is read off the filters by `Chain.Calm`, and
a release publishes its ending iff none did.
-/

namespace FilterProxy

variable {σ π : Type}

/-- A filter of `side` is told that the stream is gone, or one looks. -/
def Event.inFarewell (side : Side) : Event σ → Bool
  | .destroyed s _ _ => s = side
  | e => e.isLook

theorem Event.isQuiet_of_inFarewell {side : Side} {e : Event σ} (h : e.inFarewell side = true) :
    e.isQuiet = true := by
  cases e <;> first | rfl | cases h

theorem Event.inFarewell_of_isLook (side : Side) {e : Event σ} (h : e.isLook = true) :
    e.inFarewell side = true := by
  cases e <;> first | rfl | cases h

theorem Event.farewell?_of_isLook (side : Side) {e : Event σ}
    (h : e.isLook = true ∨ e.byHandle = true) : e.farewell? side = none := by
  cases e <;> first | rfl | (rcases h with h | h <;> cases h)

/-- What ending a stream may log. -/
def Event.isEnding : Event σ → Bool
  | .claimed _ | .stat (.terminated _) | .stat .cleaned | .published _ => true
  | .destroyed _ _ _ | .looked _ _ _ _ | .replied _ _ _ | .scheduled _ => true
  | _ => false

theorem Event.call?_of_isEnding (side : Side) {e : Event σ} (h : e.isEnding = true) :
    e.call? side = none := by
  cases e <;> first | rfl | cases h

theorem Event.isEnding_of_farewell {e : Event σ}
    (h : (∃ side, e.inFarewell side = true) ∨ e.byHandle = true) : e.isEnding = true := by
  rcases h with ⟨side, h⟩ | h
  · cases e <;> first | rfl | cases h
  · cases e with
    | stat s => cases s <;> first | rfl | cases h
    | _ => first | rfl | cases h

namespace FilterSet

open Board

variable (β : Behaviour σ)

/-- What the farewell of one filter leaves. -/
def farewell (side : Side) (index : Nat) (f : Seated σ) (b : Board σ) : Farewell σ × Board σ :=
  (β.onDestroy f.filter side).through f (b.note (.destroyed side index f.filter))

/-- **No filter of the chain panics** when it is told, one after the other. -/
def Calm (side : Side) : Nat → Chain (Seated σ) π → Board σ → Prop
  | _, [], _ => True
  | index, e :: rest, b =>
    (farewell β side index e.filter b).1.panic = none ∧
      Calm side (index + 1) rest (farewell β side index e.filter b).2

/-- What filters of `side` do to the board when they are told. -/
abbrev Told (side : Side) : Board σ → Board σ → Prop := Touched side (·.inFarewell side = true)

theorem told_farewell (side : Side) (index : Nat) (f : Seated σ) (b : Board σ) :
    Told side b (farewell β side index f b).2 :=
  .head (.note b (by simp [Event.inFarewell]))
    ((touched_run f.filter f.seat _ _).mono fun _ => Event.inFarewell_of_isLook side)

theorem farewells_farewell (side : Side) (index : Nat) (f : Seated σ) {b : Board σ}
    (ho : b.owned = true) :
    farewells side (farewell β side index f b).2.log = index :: farewells side b.log := by
  have h := (touched_run f.filter f.seat (β.onDestroy f.filter side)
    (b.note (.destroyed side index f.filter))).filterMap
      (fun _ => Event.isQuiet_of_isLook) (fun _ => Event.farewell?_of_isLook side) ho
  exact h.trans (by simp [Board.note, Event.farewell?, farewells])

/-- A round over the part of a chain from `index` on, in which `count` filters are told. -/
structure Round (side : Side) (index : Nat) (chain : Chain (Seated σ) π) (b : Board σ)
    (r : Option Panic × Chain (Seated σ) π × Board σ) (count : Nat) : Prop where
  told : Told side b r.2.2
  farewells : farewells side r.2.2.log
    = (List.range' index count).reverse ++ farewells side b.log
  count_le : count ≤ chain.length
  /-- Only a panic ends the round early. -/
  complete : r.1 = none → count = chain.length
  points : r.2.1.map (·.point) = chain.map (·.point)
  seats : r.2.1.map (·.filter.seat) = chain.map (·.filter.seat)

theorem Told.owned {side : Side} {b b' : Board σ} (h : Told side b b') (ho : b.owned = true) :
    b'.owned = true :=
  (h.moves (fun _ => Event.isQuiet_of_inFarewell) ho).owned.trans ho

/-- **Every round tells each filter once, up to the first that panics.** -/
theorem round_destroyFrom (side : Side) :
    ∀ (index : Nat) (chain : Chain (Seated σ) π) (b : Board σ),
    b.owned = true → ∃ count, Round side index chain b (destroyFrom β side index chain b) count
  | _, [], b, _ => ⟨0, .refl, rfl, Nat.le_refl _, fun _ => rfl, rfl, rfl⟩
  | index, e :: rest, b, ho => by
    have htold := told_farewell β side index e.filter b
    have hlog := farewells_farewell β side index e.filter ho
    unfold destroyFrom
    dsimp only
    split
    case h_1 p hp =>
      refine ⟨1, htold, hlog, by simp, ?_, rfl, rfl⟩
      intro h
      cases h
    case h_2 hp =>
      obtain ⟨count, h⟩ := round_destroyFrom side (index + 1) rest _ (htold.owned ho)
      refine ⟨count + 1, htold.trans h.told, ?_, Nat.succ_le_succ h.count_le, ?_,
        congrArg (_ :: ·) h.points, congrArg (_ :: ·) h.seats⟩
      · refine h.farewells.trans ?_
        rw [show FilterProxy.farewells side _ = _ from hlog, List.range'_succ, List.reverse_cons,
          List.append_assoc]
        rfl
      · exact fun hn => congrArg (· + 1) (h.complete hn)

/-- **A round ends without a panic iff every filter is calm.** -/
theorem destroyFrom_eq_none_iff (side : Side) :
    ∀ (index : Nat) (chain : Chain (Seated σ) π) (b : Board σ),
    (destroyFrom β side index chain b).1 = none ↔ Calm β side index chain b
  | _, [], _ => ⟨fun _ => trivial, fun _ => rfl⟩
  | index, e :: rest, b => by
    have ih := destroyFrom_eq_none_iff side (index + 1) rest (farewell β side index e.filter b).2
    unfold destroyFrom Calm
    dsimp only
    split
    case h_1 p hp =>
      have hp : (farewell β side index e.filter b).1.panic = some p := hp
      simp [hp]
    case h_2 hp =>
      have hp : (farewell β side index e.filter b).1.panic = none := hp
      exact ih.trans (by simp [hp])

/-! ## Both sides -/

/-- **No filter of the set panics** when it is told, request filters first. -/
def AllCalm (s : FilterSet σ) (b : Board σ) : Prop :=
  Calm β .request 0 s.requests b ∧
    Calm β .response 0 s.responses (destroyFrom β .request 0 s.requests b).2.2

/-- The farewells of a whole set, in which `count side` filters of each side are told. -/
structure Parting (s : FilterSet σ) (b : Board σ) (r : Option Panic × FilterSet σ × Board σ)
    (count : Side → Nat) : Prop where
  moves : Moves b r.2.2
  kinds : ∃ new, r.2.2.log = new ++ b.log ∧
    ∀ e ∈ new, (∃ side, e.inFarewell side = true) ∨ e.byHandle = true
  farewells : ∀ side, farewells side r.2.2.log
    = (List.range (count side)).reverse ++ farewells side b.log
  count_le : ∀ side, count side ≤ s.size side
  complete : r.1 = none → ∀ side, count side = s.size side
  points : r.2.1.requests.map (·.point) = s.requests.map (·.point) ∧
    r.2.1.responses.map (·.point) = s.responses.map (·.point)
  seats : ∀ side, r.2.1.seats side = s.seats side

/-- A round of one side tells none of the other. -/
theorem Round.other {side : Side} (side' : Side) (hs : side ≠ side') {index count : Nat}
    {chain : Chain (Seated σ) π}
    {b : Board σ} {r : Option Panic × Chain (Seated σ) π × Board σ}
    (h : Round side index chain b r count) (ho : b.owned = true) :
    FilterProxy.farewells side' r.2.2.log = FilterProxy.farewells side' b.log := by
  refine h.told.filterMap (fun _ => Event.isQuiet_of_inFarewell) (fun e he => ?_) ho
  cases e with
  | destroyed s i f =>
    rcases he with he | he
    · obtain rfl : s = side := by simpa [Event.inFarewell] using he
      simp [Event.farewell?, hs]
    · cases he
  | _ => rfl

theorem Round.moves {side : Side} {index count : Nat} {chain : Chain (Seated σ) π} {b : Board σ}
    {r : Option Panic × Chain (Seated σ) π × Board σ} (h : Round side index chain b r count)
    (ho : b.owned = true) : Moves b r.2.2 :=
  Touched.moves (fun _ => Event.isQuiet_of_inFarewell) h.told ho

theorem Round.kinds {side : Side} {index count : Nat} {chain : Chain (Seated σ) π} {b : Board σ}
    {r : Option Panic × Chain (Seated σ) π × Board σ} (h : Round side index chain b r count)
    (ho : b.owned = true) : ∃ new, r.2.2.log = new ++ b.log ∧
      ∀ e ∈ new, (∃ side, e.inFarewell side = true) ∨ e.byHandle = true := by
  obtain ⟨new, hlog, hkinds⟩ := Touched.log (fun _ => Event.isQuiet_of_inFarewell) h.told ho
  exact ⟨new, hlog, fun e he => (hkinds e he).imp_left fun h => ⟨side, h⟩⟩

/-- **A panic among the request filters leaves the response filters untold.** -/
theorem parting_destroy (s : FilterSet σ) (b : Board σ) (ho : b.owned = true) :
    ∃ count, Parting s b (destroy β s b) count := by
  obtain ⟨n, h⟩ := round_destroyFrom β .request 0 s.requests b ho
  obtain ⟨new, hnew, hkinds⟩ := h.kinds ho
  have hrequests := h.farewells
  have hresponses := h.other .response (by decide) ho
  rw [← List.range_eq_range'] at hrequests
  unfold destroy
  dsimp only
  split
  case h_1 p hp =>
    refine ⟨fun side => if side = .request then n else 0, h.moves ho, ⟨new, hnew, hkinds⟩, ?_, ?_,
      ?_, ⟨h.points, rfl⟩, ?_⟩
    · rintro (_ | _)
      · exact hrequests
      · exact hresponses
    · rintro (_ | _)
      · exact h.count_le
      · exact Nat.zero_le _
    · intro hn
      cases hn
    · rintro (_ | _)
      · exact h.seats
      · rfl
  case h_2 hp =>
    have ho' := h.told.owned ho
    obtain ⟨m, h'⟩ := round_destroyFrom β .response 0 s.responses _ ho'
    obtain ⟨new', hnew', hkinds'⟩ := h'.kinds ho'
    have hrequests' := h'.other .request (by decide) ho'
    have hresponses' := h'.farewells
    rw [← List.range_eq_range'] at hresponses'
    refine ⟨fun side => if side = .request then n else m, (h.moves ho).trans (h'.moves ho'),
      ⟨new' ++ new, by rw [List.append_assoc, ← hnew]; exact hnew', fun e he => ?_⟩, ?_, ?_, ?_,
      ⟨h.points, h'.points⟩, ?_⟩
    · exact (List.mem_append.mp he).elim (hkinds' e) (hkinds e)
    · rintro (_ | _)
      · exact hrequests'.trans hrequests
      · exact hresponses'.trans (congrArg (_ ++ ·) hresponses)
    · rintro (_ | _)
      · exact h.count_le
      · exact h'.count_le
    · rintro hn (_ | _)
      · exact h.complete hp
      · exact h'.complete hn
    · rintro (_ | _)
      · exact h.seats
      · exact h'.seats

theorem destroy_eq_none_iff (s : FilterSet σ) (b : Board σ) :
    (destroy β s b).1 = none ↔ AllCalm β s b := by
  unfold AllCalm
  rw [← destroyFrom_eq_none_iff, ← destroyFrom_eq_none_iff]
  unfold destroy
  dsimp only
  split
  case h_1 p hp => simp [hp]
  case h_2 hp => simp [hp]

end FilterSet

namespace Stream

open Board

variable (β : Behaviour σ)

/-- What a stream keeps when it lets go. -/
def relieved (s : Stream σ) (filters : FilterSet σ) (board : Board σ) : Stream σ :=
  { s with
    request := {}, response := {}, host := none, pausedBy := none, phase := .done
    filters := filters, board := board }

/-- **A release is one round of farewells**, after which the ending is published unless one
panicked. -/
theorem release_eq (ending : Ending) (s : Stream σ) :
    let d := s.filters.destroy β s.board
    s.release β ending = (d.1, s.relieved d.2.1 (match d.1 with
      | some _ => d.2.2
      | none => d.2.2.publish (.finished ending))) := by
  intro d
  cases h : d.1 with
  | some p => simp [release, show (s.filters.destroy β s.board).1 = some p from h, relieved, d]
  | none => simp [release, show (s.filters.destroy β s.board).1 = none from h, relieved, d]

theorem finish_of_claimed {s : Stream σ} (hc : s.board.claimed = true) (ending : Ending) :
    s.finish β ending = (none, s) := by simp [finish, hc]

theorem finish_of_unclaimed {s : Stream σ} (hc : s.board.claimed = false) (ending : Ending) :
    s.finish β ending = { s with board := (s.board.claim ending).2 }.release β ending := by
  simp [finish, claim_of_unclaimed hc]

/-- A release logs only what belongs to an ending. -/
theorem release_log (ending : Ending) (s : Stream σ) (ho : s.board.owned = true) :
    ∃ new, (s.release β ending).2.board.log = new ++ s.board.log ∧
      ∀ e ∈ new, e.isEnding = true := by
  obtain ⟨count, h⟩ := FilterSet.parting_destroy β s.filters s.board ho
  obtain ⟨new, hlog, hkinds⟩ := h.kinds
  have hnew : ∀ e ∈ new, e.isEnding = true := fun e he => Event.isEnding_of_farewell (hkinds e he)
  rw [release_eq]
  cases hp : (s.filters.destroy β s.board).1 with
  | some p => exact ⟨new, hlog, hnew⟩
  | none =>
    exact ⟨.published (.finished ending) :: new, congrArg (List.cons _) hlog,
      List.forall_mem_cons.mpr ⟨rfl, hnew⟩⟩

theorem finish_log (ending : Ending) (s : Stream σ) (ho : s.board.owned = true) :
    ∃ new, (s.finish β ending).2.board.log = new ++ s.board.log ∧
      ∀ e ∈ new, e.isEnding = true := by
  cases hc : s.board.claimed with
  | true => exact ⟨[], by rw [finish_of_claimed β hc]; rfl, by simp⟩
  | false =>
    have ho' : (s.board.claim ending).2.owned = true := (Move.claim _ _).owned.trans ho
    obtain ⟨new, hlog, hnew⟩ :=
      release_log β ending { s with board := (s.board.claim ending).2 } ho'
    refine ⟨new ++ claimEvents ending, ?_, fun e he => ?_⟩
    · rw [finish_of_unclaimed β hc, hlog, claim_of_unclaimed hc, List.append_assoc]
    · rcases List.mem_append.mp he with he | he
      · exact hnew e he
      · rcases mem_claimEvents he with rfl | rfl | rfl <;> rfl

theorem claimed_release (ending : Ending) {s : Stream σ} (ho : s.board.owned = true)
    (hc : s.board.claimed = true) : (s.release β ending).2.board.claimed = true := by
  obtain ⟨count, h⟩ := FilterSet.parting_destroy β s.filters s.board ho
  rw [release_eq]
  cases (s.filters.destroy β s.board).1 <;> exact h.moves.claimed hc

/-- **Whoever finishes a stream leaves it claimed**, by himself or by another. -/
theorem claimed_finish (ending : Ending) {s : Stream σ} (ho : s.board.owned = true) :
    (s.finish β ending).2.board.claimed = true := by
  cases hc : s.board.claimed with
  | true => rw [finish_of_claimed β hc]; exact hc
  | false =>
    rw [finish_of_unclaimed β hc]
    exact claimed_release β ending ((Move.claim _ _).owned.trans ho)
      (by simp [claim_of_unclaimed hc])

end Stream

end FilterProxy
