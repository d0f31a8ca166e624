import FilterProxy.Proofs.Board.Touch
import FilterProxy.Proofs.Visits

/-!
# Proofs/Sight — what handles read of the point

A board keeps the point whose request filters are being run, for handles to read.  A pass sets it
and resets it; a claim resets it as well.  All else **works** on the board (`Board.Works`): it
leaves the point alone and tells of each handle what it reads.  So in the course of some work **the
point stands until the board is claimed** (`Works.point`), wherever a handle looks (`Works.sights`).
-/

namespace FilterProxy

variable {σ : Type}

/-! ## Work -/

namespace Event

/-- The point that a handle reads, as the event tells. -/
def reading? : Event σ → Option (Option RequestPoint)
  | .called _ _ _ current _ => some current
  | .looked _ _ _ view => some view.point
  | _ => none

/-- The event may go with a change of the point. -/
def turns : Event σ → Bool
  | .entered _ | .passed _ _ | .claimed _ => true
  | _ => false

/-- The event leaves the point alone, and if a handle reads it, it is `current`. -/
structure Faithful (current : Option RequestPoint) (e : Event σ) : Prop where
  turns : e.turns = false
  reading : ∀ read, e.reading? = some read → read = current

/-- Most events tell nothing of the point. -/
theorem faithful_of_none {current : Option RequestPoint} {e : Event σ} (ht : e.turns = false)
    (hr : e.reading? = none) : e.Faithful current := ⟨ht, fun read h => by rw [hr] at h; cases h⟩

/-- A look tells what it saw… -/
theorem faithful_looked (side : Side) (index : Nat) (filter : σ) (view : View) :
    (looked side index filter view).Faithful view.point where
  turns := rfl
  reading _ h := (Option.some.inj h).symm

/-- …and a call what its handle reads. -/
theorem faithful_called (side : Side) (index : Nat) (filter : σ) (current : Option RequestPoint)
    (parts : Parts) :
    (called side index filter current parts).Faithful current where
  turns := rfl
  reading _ h := (Option.some.inj h).symm

end Event

/-- What handles read of the point. -/
def readings (log : List (Event σ)) : List (Option RequestPoint) := log.filterMap Event.reading?

theorem readings_cons (e : Event σ) (log : List (Event σ)) :
    readings (e :: log) = e.reading?.toList ++ readings log := filterMap_cons_toList e log _

namespace Board

/-- One thing done to a board beside setting its point. -/
inductive Work : Board σ → Board σ → Prop
  /-- Something else is written. -/
  | write {b b'} (hp : b'.point = b.point) (hc : b'.claimed = b.claimed) (ho : b'.owned = b.owned)
      (hl : b'.log = b.log) : Work b b'
  | note (b) {e} (he : e.Faithful b.point) : Work b (b.note e)
  | claim (b) (ending : Ending) : Work b (b.claim ending).2
  | abandon (b) (ho : b.owned = false) : Work b b.abandon

/-- What is done to a board beside setting its point. -/
abbrev Works : Board σ → Board σ → Prop := Relation.ReflTransGen Work

namespace Work

variable {b b' : Board σ}

/-- An event is noted that tells nothing of the point. -/
theorem effect (b : Board σ) {e : Event σ} (ht : e.turns = false) (hr : e.reading? = none) :
    Work b (b.note e) :=
  .note b (Event.faithful_of_none ht hr)

/-- A handle looks. -/
theorem look (b : Board σ) (side : Side) (index : Nat) (filter : σ) :
    Work b (b.note (.looked side index filter b.view)) :=
      .note b (Event.faithful_looked side index filter b.view)

theorem owned (h : Work b b') : b'.owned = b.owned := by
  cases h with
  | write _ _ ho => exact ho
  | note => rfl
  | claim ending => cases hc : b.claimed <;> simp [claim_of_unclaimed, hc, clear]
  | abandon => unfold Board.abandon; split <;> rfl

/-- Nobody takes a claim back. -/
theorem claimed (h : Work b b') (hc : b.claimed = true) : b'.claimed = true := by
  cases h with
  | write _ hc' => exact hc'.trans hc
  | note => exact hc
  | claim ending => rw [claim_of_claimed hc, hc]
  | abandon => rw [Board.abandon, if_pos hc, hc]

theorem point (h : Work b b') : b'.point = if b'.claimed = b.claimed then b.point else none := by
  cases h with
  | write hp hc => rw [if_pos hc, hp]
  | note => exact (if_pos rfl).symm
  | claim ending => cases hc : b.claimed <;> simp [claim_of_unclaimed, hc, clear]
  | abandon => cases hc : b.claimed <;> simp [Board.abandon, hc, mark, clear]

end Work

namespace Works

variable {b b' : Board σ}

theorem owned (h : Works b b') : b'.owned = b.owned := by
  induction h with
  | refl => rfl
  | tail _ h ih => exact h.owned.trans ih

theorem claimed (h : Works b b') (hc : b.claimed = true) : b'.claimed = true := by
  induction h with
  | refl => exact hc
  | tail _ h ih => exact h.claimed ih

/-- **The point stands until the board is claimed.** -/
theorem point (h : Works b b') : b'.point = if b'.claimed = b.claimed then b.point else none := by
  induction h with
  | refl => exact (if_pos rfl).symm
  | @tail b₁ b₂ hb h ih =>
    have hmono := claimed hb
    have hmono' := h.claimed
    rw [h.point, ih]
    cases hc : b.claimed <;> cases hc₁ : b₁.claimed <;> cases hc₂ : b₂.claimed <;> simp_all

end Works

/-! ## Handles and programs -/

section

variable (b : Board σ)

theorem works_schedule (job : Job) : Works b (b.schedule job) := by
  unfold schedule
  split
  · exact .single (.effect b rfl rfl)
  · exact .refl

theorem works_publish (s : Status) : Works b (b.publish s) := by
  refine .tail (b := { b with status := s }) (.single (.write rfl rfl rfl rfl)) (.effect _ rfl rfl)

theorem works_raise (code : UInt16) (headers : Headers) : Works b (b.raise code headers).2 := by
  unfold raise
  split
  · exact .single (.effect b rfl rfl)
  · refine .tail (b := { b with
      reply := some (replyMessage code headers), info := { b.info with code := some code } }) ?_ ?_
    · exact .single (.write rfl rfl rfl rfl)
    · exact .effect _ rfl rfl

theorem works_terminate (ending : Ending) : Works b (b.terminate ending).2 := by
  unfold Board.terminate
  dsimp only
  split
  · exact .head (.claim b ending) (works_schedule _ _)
  · exact .single (.claim b ending)

/-- **What is done through a handle is work.** -/
theorem works_perform {side : Side} (index : Nat) (x : Action side) :
    Works b (b.perform index x) := by
  cases x with
  | reply code headers =>
    unfold perform
    dsimp only
    split
    · exact (works_raise b code headers).trans (works_schedule _ _)
    · exact works_raise b code headers
  | replaceHeaders | replaceData | replaceTrailers => exact .single (.write rfl rfl rfl rfl)
  | resume => exact works_schedule b _
  | terminate =>
    cases ho : b.owned with
    | true =>
      rw [show b.perform index (.terminate : Action side)
        = (b.terminate .filterTerminated).2 by simp [perform, ho]]
      exact works_terminate b _
    | false =>
      rw [show b.perform index (.terminate : Action side) = b.abandon by simp [perform, ho]]
      exact .single (.abandon b ho)

end

section

variable {α : Type} {side : Side} (filter : σ) (index : Nat)

theorem works_run (program : Program side α) (b : Board σ) :
    Works b (program.run filter index b).2 := by
  induction program generalizing b with
  | done a => exact .refl
  | act x rest ih => exact (works_perform b index x).trans (ih _)
  | look rest ih => exact .head (.look b side index filter) (ih _ _)

end

end Board

/-! ## Looks -/

/-- **The boards at which a program looks**, in order. -/
def Program.glances {α : Type} {side : Side} (filter : σ) (index : Nat) :
    Program side α → Board σ → List (Board σ)
  | .done _, _ => []
  | .act x rest, b => rest.glances filter index (b.perform index x)
  | .look rest, b =>
    b :: (rest b.view).glances filter index (b.note (.looked side index filter b.view))

namespace Board

/-- What is done through a handle reads nothing. -/
theorem readings_perform {side : Side} (index : Nat) (x : Action side) (b : Board σ) :
    readings (b.perform index x).log = readings b.log := by
  have hschedule (b : Board σ) (job : Job) : readings (b.schedule job).log = readings b.log := by
    unfold schedule
    split <;> rfl
  have hclaim (ending : Ending) : readings (b.claim ending).2.log = readings b.log := by
    cases hc : b.claimed with
    | true => rw [claim_of_claimed hc]
    | false =>
      rw [claim_of_unclaimed hc]
      cases ha : ending.isAbort <;> simp [claimEvents, ha, readings_cons, Event.reading?]
  cases x with
  | reply code headers =>
    unfold perform raise
    dsimp only
    split <;> simp [hschedule, note, readings_cons, Event.reading?]
  | replaceHeaders | replaceData | replaceTrailers => rfl
  | resume => exact hschedule b _
  | terminate =>
    unfold perform Board.terminate abandon
    dsimp only
    split
    · split
      · exact (hschedule _ _).trans (hclaim _)
      · exact hclaim _
    · split <;> rfl

/-- **A program reads what it glances at.** -/
theorem readings_run {α : Type} {side : Side} (filter : σ) (index : Nat) (program : Program side α)
    (b : Board σ) :
    readings (program.run filter index b).2.log =
      ((program.glances filter index b).map (·.point)).reverse ++ readings b.log := by
  induction program generalizing b with
  | done a => rfl
  | act x rest ih => exact (ih _).trans (by rw [readings_perform]; rfl)
  | look rest ih =>
    refine (ih _ _).trans ?_
    simp [Program.glances, note, view, readings_cons, Event.reading?]

/-- A program looks at what was worked on. -/
theorem works_glances {α : Type} {side : Side} (filter : σ) (index : Nat) (program : Program side α)
    (b : Board σ) :
    ∀ b' ∈ program.glances filter index b, Works b b' := by
  induction program generalizing b with
  | done a => exact List.forall_mem_nil _
  | act x rest ih => exact fun b' hb' => (works_perform b index x).trans (ih _ b' hb')
  | look rest ih =>
    refine List.forall_mem_cons.mpr ⟨.refl, fun b' hb' => ?_⟩
    exact .head (.look b side index filter) (ih _ _ b' hb')

end Board

/-! ## Calls, passes and farewells -/

/-- What each call shows, latest first, all of them show. -/
theorem Chain.Threaded.shows {φ ω α : Type} {call : Nat → φ → ω → Called φ ω} (seen : ω → List α)
    (shown : Visit φ ω → List α)
    (hcall : ∀ i f w, seen (call i f w).state = (shown ⟨i, f, w, call i f w⟩).reverse ++ seen w)
    {visits : List (Visit φ ω)} :
    ∀ {w w'}, Threaded call w visits w' → seen w' = (visits.flatMap shown).reverse ++ seen w := by
  induction visits with
  | nil =>
    rintro w w' rfl
    rfl
  | cons v visits ih =>
    rintro w w' ⟨hstate, hleft, hrest⟩
    obtain ⟨i, f, u, left⟩ := v
    dsimp only at hstate hleft
    subst hstate hleft
    rw [ih hrest, hcall, List.flatMap_cons, List.reverse_append, List.append_assoc]

namespace Chain.Visit

variable (β : Behaviour σ) (v : Chain.Visit (Seated σ) (Workbench σ))

/-- The boards at which a request filter reads, as it is called and as its program looks. -/
def requestSights : List (Board σ) :=
  let b := v.state.board
  b :: (β.onRequest v.filter.filter b.context v.state.parts).glances v.filter.filter v.filter.seat
    (b.note (.called .request v.index v.filter.filter b.point v.state.parts))

/-- The boards at which a response filter reads, once replacements were put in. -/
def responseSights : List (Board σ) :=
  let put := v.state.board.putReplaced v.state.parts
  put.2 :: (β.onResponse v.filter.filter put.2.context put.1).glances v.filter.filter v.filter.seat
    (put.2.note (.called .response v.index v.filter.filter put.2.point put.1))

end Chain.Visit

namespace FilterSet

open Board

section

variable (β : Behaviour σ) (index : Nat) (f : Seated σ) (w : Workbench σ)

/-- To call a filter and run its program is work. -/
theorem works_callback {α : Type} (side : Side) (parts : Parts) (program : Program side α)
    (b : Board σ) :
    Works b (program.through f (b.note (.called side index f.filter b.point parts))).2 :=
  .head (.note b (Event.faithful_called ..)) (works_run f.filter f.seat program _)

theorem works_callRequest : Works w.board (callRequest β index f w).state.board :=
  works_callback index f .request w.parts _ _

theorem works_callResponse : Works w.board (callResponse β index f w).state.board := by
  have hput : Works w.board (w.board.putReplaced w.parts).2 := .single (.write rfl rfl rfl rfl)
  unfold callResponse
  dsimp only
  split
  · exact hput.trans (works_callback index f .response _ _ _)
  · exact hput.trans ((works_callback index f .response _ _ _).tail (.write rfl rfl rfl rfl))

/-- A callback reads at what was worked on. -/
theorem works_callbackSights {α : Type} (side : Side) (parts : Parts) (program : Program side α)
    (b : Board σ) :
    ∀ b' ∈ b :: program.glances f.filter f.seat (b.note
      (.called side index f.filter b.point parts)), Works b b' :=
  List.forall_mem_cons.mpr ⟨.refl, fun b' hb' =>
    .head (.note b (Event.faithful_called ..)) (works_glances f.filter f.seat program _ b' hb')⟩

/-- A callback reads at each of them. -/
theorem readings_callback {α : Type} (side : Side) (parts : Parts) (program : Program side α)
    (b : Board σ) :
    readings (program.through f (b.note (.called side index f.filter b.point parts))).2.log =
      ((b :: program.glances f.filter f.seat
        (b.note (.called side index f.filter b.point parts))).map
        (·.point)).reverse ++ readings b.log := by
  rw [Program.through, readings_run, note, readings_cons]
  simp [Event.reading?]

theorem readings_callRequest : readings (callRequest β index f w).state.board.log =
    ((Chain.Visit.requestSights β ⟨index, f, w, callRequest β index f w⟩).map (·.point)).reverse
      ++ readings w.board.log :=
  readings_callback index f .request w.parts _ _

theorem readings_callResponse : readings (callResponse β index f w).state.board.log =
    ((Chain.Visit.responseSights β ⟨index, f, w, callResponse β index f w⟩).map (·.point)).reverse
      ++ readings w.board.log := by
  have hcalled := readings_callback index f .response (w.board.putReplaced w.parts).1
    (β.onResponse f.filter (w.board.putReplaced w.parts).2.context (w.board.putReplaced w.parts).1)
    (w.board.putReplaced w.parts).2
  unfold callResponse
  dsimp only
  split <;> exact hcalled

variable (v : Chain.Visit (Seated σ) (Workbench σ))

theorem works_requestSights : ∀ b ∈ v.requestSights β, Works v.state.board b :=
  works_callbackSights v.index v.filter .request v.state.parts _ _

theorem works_responseSights : ∀ b ∈ v.responseSights β, Works v.state.board b := by
  intro b hb
  refine .head (b := (v.state.board.putReplaced v.state.parts).2) (.write rfl rfl rfl rfl) ?_
  exact works_callbackSights v.index v.filter .response _ _ _ b hb

end

variable (β : Behaviour σ) {π : Type} [DecidableEq π]

/-- A pass is work if its calls are, and so is what it does up to any of them. -/
theorem works_pass (point : π) (start : Nat) (convert : Converter)
    {φ : Type} {call : Nat → φ → Workbench σ → Chain.Called φ (Workbench σ)}
    (hcall : ∀ i f w, Works w.board (call i f w).state.board) (chain : Chain φ π)
    (w : Workbench σ) :
    Works w.board (chain.pass point start convert call w).state.board ∧
      ∀ v ∈ chain.visits point start convert call w, Works w.board v.state.board := by
  have hthreaded := (Chain.meets_pass point start convert call chain w).threaded
  have hkept (i : Nat) (f : φ) (v : Workbench σ) (hv : Works w.board v.board) :
      Works w.board (call i f v).state.board := hv.trans (hcall i f v)
  refine ⟨hthreaded.keeps hkept .refl, fun v hv => ?_⟩
  obtain ⟨before, later, heq⟩ := List.append_of_mem hv
  rw [heq] at hthreaded
  exact (hthreaded.reaches hkept .refl).1

theorem works_passResponses (point : ResponsePoint) (start : Nat) (convert : Converter)
    (s : FilterSet σ)
    (w : Workbench σ) : Works w.board (passResponses β point start convert s w).bench.board :=
  (works_pass point start convert (works_callResponse β) s.responses w).1

/-- **What is read in the course of a pass over request filters** is read at its sights… -/
theorem readings_passRequests (point : RequestPoint) (start : Nat) (convert : Converter)
    (s : FilterSet σ) (w : Workbench σ) :
    readings (passRequests β point start convert s w).bench.board.log =
      (((s.requests.visits point start convert (callRequest β)
        { w with board := { w.board with point := some point } }).flatMap (·.requestSights β)).map
          (·.point)).reverse
          ++ readings w.board.log := by
  have hpass := (Chain.meets_pass point start convert (callRequest β) s.requests
    { w with board := { w.board with point := some point } }).threaded.shows (readings ·.board.log)
      (fun v => (v.requestSights β).map (·.point)) (readings_callRequest β)
  rw [List.map_flatMap]
  unfold passRequests
  dsimp only
  split <;> exact hpass

theorem readings_passResponses (point : ResponsePoint) (start : Nat) (convert : Converter)
    (s : FilterSet σ) (w : Workbench σ) :
    readings (passResponses β point start convert s w).bench.board.log =
      (((s.responses.visits point start convert (callResponse β) w).flatMap
        (·.responseSights β)).map
        (·.point)).reverse ++ readings w.board.log := by
  rw [List.map_flatMap]
  exact (Chain.meets_pass point start convert (callResponse β) s.responses w).threaded.shows
    (readings ·.board.log)
    (fun v => (v.responseSights β).map (·.point)) (readings_callResponse β)

/-- …and **what is read there**: its point, until the board is claimed. -/
theorem sights_passRequests (point : RequestPoint) (start : Nat) (convert : Converter)
    (s : FilterSet σ) (w : Workbench σ) :
    ∀ v ∈ s.requests.visits point start convert (callRequest β)
        { w with board := { w.board with point := some point } },
      ∀ b ∈ v.requestSights β, b.point = if b.claimed = w.board.claimed then some point
        else none := by
  intro v hv b hb
  have hcalled := (works_pass point start convert (works_callRequest β) s.requests _).2 v hv
  exact Works.point (b := { w.board with point := some point })
    (hcalled.trans (works_requestSights β v b hb))

/-- **What a pass over request filters leaves**: nothing to read, unless a converter broke it off
and nobody claimed the board meanwhile. -/
theorem point_passRequests (point : RequestPoint) (start : Nat) (convert : Converter)
    (s : FilterSet σ) (w : Workbench σ) :
    let r := passRequests β point start convert s w
    (w.board.claimed = true → r.bench.board.claimed = true) ∧
      r.bench.board.point =
        if r.result.isOk = false ∧ r.bench.board.claimed = w.board.claimed then some point
          else none := by
  have hworks := (works_pass point start convert (works_callRequest β) s.requests
    { w with board := { w.board with point := some point } }).1
  unfold passRequests
  dsimp only
  generalize s.requests.pass point start convert (callRequest β) _ = r at hworks ⊢
  refine ⟨?_, ?_⟩
  · split <;> exact hworks.claimed
  · split
    case h_1 p hr => simpa [Except.isOk, Except.toBool, note] using hworks.point
    case h_2 outcome hr => simp [Except.isOk, Except.toBool, note]

/-- The boards at which a filter looks as it is given its handle. -/
def introSights (s : FilterSet σ) (b : Board σ) (r : Registration σ) : List (Board σ) :=
  (β.onAdd r.filter b.context.id r.side).glances r.filter (s.size r.side)
    (b.note (.added r.side (s.size r.side) r.filter))

theorem works_introduce (s : FilterSet σ) (b : Board σ) (r : Registration σ) :
    Works b (s.introduce β b r).2 ∧ ∀ b' ∈ s.introSights β b r, Works b b' :=
  ⟨.head (.effect b rfl rfl) (works_run _ _ _ _),
    fun b' hb' => .head (.effect b rfl rfl) (works_glances _ _ _ _ b' hb')⟩

theorem readings_introduce (s : FilterSet σ) (b : Board σ) (r : Registration σ) :
    readings (s.introduce β b r).2.log = ((s.introSights β b r).map (·.point)).reverse
      ++ readings b.log :=
  readings_run _ _ _ _

/-- The boards at which the filters of a chain look as they are told that the stream is gone. -/
def farewellSights {π : Type} (side : Side) (index : Nat) :
    Chain (Seated σ) π → Board σ → List (Board σ)
  | [], _ => []
  | e :: rest, b =>
    let f := e.filter
    let program := β.onDestroy f.filter side
    let told := b.note (.destroyed side index f.filter)
    let r := program.through f told
    program.glances f.filter f.seat told ++ match r.1.panic with
      | some _ => []
      | none => farewellSights side (index + 1) rest r.2

theorem works_destroyFrom {π : Type} (side : Side) (index : Nat) (chain : Chain (Seated σ) π)
    (b : Board σ) :
    Works b (destroyFrom β side index chain b).2.2 ∧ ∀ b' ∈ farewellSights β side index chain b,
      Works b b' := by
  induction chain generalizing index b with
  | nil => exact ⟨.refl, List.forall_mem_nil _⟩
  | cons e rest ih =>
    have htold : Works b (b.note (.destroyed side index e.filter.filter)) :=
      .single (.effect b rfl rfl)
    have hrun :=
      htold.trans (works_run e.filter.filter e.filter.seat (β.onDestroy e.filter.filter side) _)
    obtain ⟨hrest, hlater⟩ := ih (index + 1)
      ((β.onDestroy e.filter.filter side).through e.filter
        (b.note (.destroyed side index e.filter.filter))).2
    constructor
    · unfold destroyFrom
      dsimp only
      split
      · exact hrun
      · exact hrun.trans hrest
    · intro b' hb'
      rcases List.mem_append.mp hb' with hb' | hb'
      · exact htold.trans (works_glances _ _ _ _ b' hb')
      · split at hb'
        · cases hb'
        · exact hrun.trans (hlater b' hb')

theorem readings_destroyFrom {π : Type} (side : Side) (index : Nat) (chain : Chain (Seated σ) π)
    (b : Board σ) :
    readings (destroyFrom β side index chain b).2.2.log =
      ((farewellSights β side index chain b).map (·.point)).reverse ++ readings b.log := by
  induction chain generalizing index b with
  | nil => rfl
  | cons e rest ih =>
    have hrun := readings_run e.filter.filter e.filter.seat (β.onDestroy e.filter.filter side)
      (b.note (.destroyed side index e.filter.filter))
    unfold destroyFrom farewellSights
    dsimp only
    cases ((β.onDestroy e.filter.filter side).through e.filter
      (b.note (.destroyed side index e.filter.filter))).1.panic with
    | some p =>
      rw [List.append_nil]
      exact hrun
    | none =>
      rw [List.map_append, List.reverse_append, List.append_assoc]
      exact (ih _ _).trans (congrArg _ hrun)

/-- The boards at which filters look as they are told that the stream is gone. -/
def partingSights (s : FilterSet σ) (b : Board σ) : List (Board σ) :=
  let r := destroyFrom β .request 0 s.requests b
  farewellSights β .request 0 s.requests b ++ match r.1 with
    | some _ => []
    | none => farewellSights β .response 0 s.responses r.2.2

theorem works_destroy (s : FilterSet σ) (b : Board σ) :
    Works b (destroy β s b).2.2 ∧ ∀ b' ∈ s.partingSights β b, Works b b' := by
  obtain ⟨hrequests, hsights⟩ := works_destroyFrom β .request 0 s.requests b
  obtain ⟨hresponses, hsights'⟩ := works_destroyFrom β .response 0 s.responses
    (destroyFrom β .request 0 s.requests b).2.2
  constructor
  · unfold destroy
    dsimp only
    split
    · exact hrequests
    · exact hrequests.trans hresponses
  · intro b' hb'
    rcases List.mem_append.mp hb' with hb' | hb'
    · exact hsights b' hb'
    · split at hb'
      · cases hb'
      · exact hrequests.trans (hsights' b' hb')

theorem readings_destroy (s : FilterSet σ) (b : Board σ) :
    readings (destroy β s b).2.2.log = ((s.partingSights β b).map (·.point)).reverse
      ++ readings b.log := by
  have hrequests := readings_destroyFrom β .request 0 s.requests b
  unfold destroy partingSights
  dsimp only
  cases (destroyFrom β .request 0 s.requests b).1 with
  | some p =>
    rw [List.append_nil]
    exact hrequests
  | none =>
    rw [List.map_append, List.reverse_append, List.append_assoc]
    exact (readings_destroyFrom β .response 0 s.responses _).trans (congrArg _ hrequests)

end FilterSet

/-! ## Filters without a stream -/

/-- Filters and a board that no stream owns. -/
structure Detached (σ : Type) where
  filters : FilterSet σ := {}
  board : Board σ

namespace Detached

/-- What can be done with them. -/
inductive Act (σ : Type) where
  | add (r : Registration σ)
  | passRequests (point : RequestPoint) (start : Nat) (convert : Converter) (parts : Parts)
  | passResponses (point : ResponsePoint) (start : Nat) (convert : Converter) (parts : Parts)
  /-- A program runs through the kept handle of a filter. -/
  | handle (side : Side) (filter : σ) (index : Nat) (program : Program side Unit)
  | takeAgain
  /-- Whoever set the filters up writes what else the board holds. -/
  | write (route : Option Route) (info : Info) (replaced : Replaced) (reply : Option Message)
      (closed : Bool)
  | destroy

/-- The point whose request filters are run meanwhile. -/
def Act.point? : Act σ → Option RequestPoint
  | .passRequests point _ _ _ => some point
  | _ => none

variable (β : Behaviour σ)

/-- Do one thing. -/
def next (d : Detached σ) : Act σ → Detached σ
  | .add r =>
    let x := d.filters.add β d.board r
    ⟨x.1, x.2⟩
  | .passRequests point start convert parts =>
    let r := d.filters.passRequests β point start convert ⟨d.board, parts⟩
    ⟨r.filters, r.bench.board⟩
  | .passResponses point start convert parts =>
    let r := d.filters.passResponses β point start convert ⟨d.board, parts⟩
    ⟨r.filters, r.bench.board⟩
  | .handle _ filter index program => { d with board := (program.run filter index d.board).2 }
  | .takeAgain => { d with filters := d.filters.takeAgain.2 }
  | .write route info replaced reply closed =>
    { d with board := { d.board with route, info, replaced, reply, closed } }
  | .destroy =>
    let r := d.filters.destroy β d.board
    ⟨r.2.1, r.2.2⟩

/-- The boards at which handles read meanwhile. -/
def sights (d : Detached σ) : Act σ → List (Board σ)
  | .add r => d.filters.introSights β d.board r
  | .passRequests point start convert parts =>
    (d.filters.requests.visits point start convert (FilterSet.callRequest β)
      ⟨{ d.board with point := some point }, parts⟩).flatMap (·.requestSights β)
  | .passResponses point start convert parts =>
    (d.filters.responses.visits point start convert (FilterSet.callResponse β)
      ⟨d.board, parts⟩).flatMap (·.responseSights β)
  | .handle _ filter index program => program.glances filter index d.board
  | .destroy => d.filters.partingSights β d.board
  | _ => []

/-- What came of some acts, latest first. -/
def after (id : StreamId) : List (Act σ) → Detached σ
  | [] => { board := .detached id }
  | act :: earlier => (after id earlier).next β act

/-- **The point of a pass lingers**: a converter broke it off, and since it began nobody claimed the
board nor made another. -/
def Lingers (id : StreamId) : List (Act σ) → Prop
  | [] => False
  | act :: earlier =>
    let d := after β id earlier
    (d.next β act).board.claimed = d.board.claimed ∧ match act with
      | .passRequests point start convert parts =>
        (d.filters.passRequests β point start convert ⟨d.board, parts⟩).result.isOk = false
      | _ => Lingers id earlier

variable {β} {d : Detached σ} {act : Act σ}

open Board FilterSet

/-- All but a pass over request filters is work. -/
theorem works_next (ha : act.point? = none) : Works d.board (d.next β act).board := by
  cases act with
  | add r => exact (works_introduce β d.filters d.board r).1
  | takeAgain => exact .refl
  | write => exact .single (.write rfl rfl rfl rfl)
  | passRequests => cases ha
  | passResponses point start convert parts =>
    exact works_passResponses β point start convert d.filters ⟨d.board, parts⟩
  | handle side filter index program => exact works_run filter index program d.board
  | destroy => exact (works_destroy β d.filters d.board).1

/-- **What handles read meanwhile** is read at its sights… -/
theorem readings_next : readings (d.next β act).board.log =
    ((d.sights β act).map (·.point)).reverse ++ readings d.board.log := by
  cases act with
  | add r => exact readings_introduce β d.filters d.board r
  | takeAgain | write => rfl
  | passRequests point start convert parts =>
    exact readings_passRequests β point start convert d.filters ⟨d.board, parts⟩
  | passResponses point start convert parts =>
    exact readings_passResponses β point start convert d.filters ⟨d.board, parts⟩
  | handle side filter index program => exact readings_run filter index program d.board
  | destroy => exact readings_destroy β d.filters d.board

/-- …and **what is read there**: the point of the pass, or what lingers beside one, until the board
is claimed. -/
theorem point_sights : ∀ b ∈ d.sights β act,
    b.point = if b.claimed = d.board.claimed then act.point? <|> d.board.point else none := by
  intro b hb
  cases act with
  | add r => exact ((works_introduce β d.filters d.board r).2 b hb).point
  | takeAgain | write => cases hb
  | passRequests point start convert parts =>
    obtain ⟨v, hv, hb⟩ := List.mem_flatMap.mp hb
    exact sights_passRequests β point start convert d.filters ⟨d.board, parts⟩ v hv b hb
  | passResponses point start convert parts =>
    obtain ⟨v, hv, hb⟩ := List.mem_flatMap.mp hb
    have hcalled :=
      (works_pass point start convert (works_callResponse β) d.filters.responses ⟨d.board, parts⟩).2
        v hv
    exact Works.point (hcalled.trans (works_responseSights β v b hb))
  | handle side filter index program =>
    exact (works_glances filter index program d.board b hb).point
  | destroy => exact ((works_destroy β d.filters d.board).2 b hb).point

theorem lingers_cons (ha : act.point? = none) (id : StreamId) (earlier : List (Act σ)) :
    Lingers β id (act :: earlier) ↔
      ((after β id earlier).next β act).board.claimed = (after β id earlier).board.claimed ∧
        Lingers β id earlier := by
  cases act with
  | passRequests => cases ha
  | _ => rfl

/-- **What is left to read between acts**: nothing, unless the point of a pass lingers. -/
theorem point_after (id : StreamId) (acts : List (Act σ)) :
    (after β id acts).board.point = none ↔ ¬ Lingers β id acts := by
  induction acts with
  | nil => exact iff_of_true rfl not_false
  | cons act earlier ih =>
    cases ha : act.point? with
    | none =>
      have hpoint := (works_next (β := β) (d := after β id earlier) ha).point
      rw [lingers_cons ha, not_and, ← ih, after, hpoint]
      split <;> simp_all
    | some p =>
      cases act with
      | passRequests point start convert parts =>
        obtain ⟨-, hpoint⟩ := point_passRequests β point start convert (after β id earlier).filters
          ⟨(after β id earlier).board, parts⟩
        rw [Lingers, after, next, hpoint, ite_eq_right_iff]
        simp only [reduceCtorEq, imp_false]
        exact not_congr and_comm
      | _ => cases ha

end Detached

end FilterProxy
