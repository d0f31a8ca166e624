import FilterProxy.Proofs.Conclusion

/-!
# Proofs/Places — filters keep their places

A filter that is added is given the handle of the place it gets, behind those of its side.  Filters
are told apart by a **name** that their callbacks keep (`Behaviour.Keeps`).  Then **the filters of a
side stand as they were added, each with the handle of its place** (`Life.placed_after`); whoever is
called at a place is the one that was given its handle; and **what a filter does in a callback, it
does through that handle** (`Event.Own`).
-/

namespace FilterProxy

variable {σ ε ν : Type}

open Board FilterSet FilterProxy.Stream Life

/-! ## Names -/

@[simp] theorem Registration.side_withFilter (r : Registration σ) (g : σ) :
    (r.withFilter g).side = r.side := by
  cases r <;> rfl

@[simp] theorem Registration.filter_withFilter (r : Registration σ) (g : σ) :
    (r.withFilter g).filter = g := by
  cases r <;> rfl

/-- However the program runs, what it ends in satisfies `P`. -/
def Program.Ends {α : Type} {side : Side} (P : α → Prop) : Program side α → Prop
  | .done a => P a
  | .act _ rest => rest.Ends P
  | .look rest => ∀ view, (rest view).Ends P

theorem Program.Ends.run {α : Type} {side : Side} {P : α → Prop} {program : Program side α}
    (h : program.Ends P)
    (filter : σ) (index : Nat) (b : Board σ) : P (program.run filter index b).1 := by
  induction program generalizing b with
  | done a => exact h
  | act x rest ih => exact ih h _
  | look rest ih => exact ih _ (h _) _

/-- **A filter keeps its name** in every callback. -/
structure Behaviour.Keeps (β : Behaviour σ) (name : σ → ν) : Prop where
  onAdd : ∀ f id side, (β.onAdd f id side).Ends fun g => name g = name f
  onRequest : ∀ f context parts, (β.onRequest f context parts).Ends fun r => name r.filter = name f
  onResponse : ∀ f context parts, (β.onResponse f context parts).Ends fun r =>
    name r.filter = name f
  onDestroy : ∀ f side, (β.onDestroy f side).Ends fun r => name r.filter = name f

/-- Filters that cannot be told apart keep their name. -/
theorem Behaviour.keeps_unit (β : Behaviour σ) : β.Keeps fun _ => () := by
  have ends {α : Type} {side : Side} (program : Program side α) : program.Ends fun _ => True := by
    induction program with
    | done => exact trivial
    | act _ _ ih => exact ih
    | look _ ih => exact ih
  exact ⟨fun f id side => by simpa using ends (β.onAdd f id side),
    fun f context parts => by simpa using ends (β.onRequest f context parts),
    fun f context parts => by simpa using ends (β.onResponse f context parts),
    fun f side => by simpa using ends (β.onDestroy f side)⟩

/-- Whatever calls filters in the course of the deed keeps their names. -/
def Deed.Keeps (name : σ → ν) : Deed σ ε → Prop
  | .add β _ => β.Keeps name
  | .direct c _ _ | .run _ c _ => c.behaviour.Keeps name
  | _ => True

/-- The name of an entry and the place its handle speaks for. -/
def Entry.standing {π : Type} (name : σ → ν) (e : Entry (Seated σ) π) : ν × Nat :=
  (name e.filter.filter, e.filter.seat)

namespace FilterSet

/-- The filters of a side, in the order of their places. -/
def standing (name : σ → ν) (s : FilterSet σ) : Side → List (ν × Nat)
  | .request => s.requests.map (·.standing name)
  | .response => s.responses.map (·.standing name)

/-- **The filters stand with these names, each with the handle of its place.** -/
def Stands (name : σ → ν) (names : Side → List ν) (s : FilterSet σ) : Prop :=
  ∀ side, s.standing name side = (names side).zipIdx

theorem length_standing (name : σ → ν) (s : FilterSet σ) (side : Side) :
    (s.standing name side).length = s.size side := by
  cases side <;> exact List.length_map _

theorem Stands.size {name : σ → ν} {names : Side → List ν} {s : FilterSet σ}
    (h : s.Stands name names) (side : Side) : s.size side = (names side).length := by
  rw [← length_standing name, h, List.length_zipIdx]

/-- A filter that is enlisted stands behind those of its side. -/
theorem Stands.enlist {name : σ → ν} {names : Side → List ν} {s : FilterSet σ}
    (h : s.Stands name names) (r : Registration σ) :
    (s.enlist r).Stands name fun side => names side ++ if r.side = side then [name r.filter]
      else [] := by
  intro side
  have hside := h side
  have hsize := h.size side
  cases r <;> cases side <;>
    simp_all [FilterSet.enlist, standing, Entry.standing, Registration.side, Registration.filter,
      FilterSet.size, List.zipIdx_append]

end FilterSet

/-! ## Whom events address -/

/-- Who is given a handle, called or told of the end, and at which place. -/
def Event.addressee? : Event σ → Option (Side × Nat × σ)
  | .added side index filter | .called side index filter _ _ | .destroyed side index filter =>
    some (side, index, filter)
  | _ => none

/-- Through whose handle something is done: its side and place. -/
def Event.handle? : Event σ → Option (Side × Nat)
  | .looked side index _ _ | .scheduled (.resume (some (side, index))) => some (side, index)
  | _ => none

/-- The place that was addressed last. -/
def addressed? (log : List (Event σ)) : Option (Side × Nat) :=
  log.findSome? fun e => e.addressee?.map fun x => (x.1, x.2.1)

/-- If the event addresses a filter, then the one whose name stands at its place. -/
def Event.Finds (name : σ → ν) (names : Side → List ν) (e : Event σ) : Prop :=
  ∀ side i f, e.addressee? = some (side, i, f) → (names side)[i]? = some (name f)

/-- **If something is done through a handle, then through that of the filter addressed last.** -/
def Event.Own (e : Event σ) (older : List (Event σ)) : Prop :=
  ∀ x, e.handle? = some x → addressed? older = some x

/-- An event that addresses nobody and is not done through a handle. -/
def Event.isPlain (e : Event σ) : Bool := e.addressee?.isNone && e.handle?.isNone

section

variable {name : σ → ν} {names : Side → List ν} {e : Event σ} {new older : List (Event σ)}

theorem Event.finds_of_none (h : e.addressee? = none) : e.Finds name names := by
  intro side i f hf
  rw [h] at hf
  cases hf

/-- Names that are added later are not missed before. -/
theorem Event.Finds.append {more : Side → List ν} (h : e.Finds name names) :
    e.Finds name fun side => names side ++ more side := by
  intro side i f hf
  have hi := h side i f hf
  rw [List.getElem?_append_left (List.getElem?_eq_some_iff.mp hi).1]
  exact hi

theorem Event.own_of_none (h : e.handle? = none) (older : List (Event σ)) : e.Own older := by
  intro x hx
  rw [h] at hx
  cases hx

/-- Whoever was addressed last is so with more before. -/
theorem addressed?_append {x : Side × Nat} (h : addressed? new = some x) :
    addressed? (new ++ older) = some x := by
  rw [addressed?, List.findSome?_append, show new.findSome? _ = _ from h]
  rfl

theorem Throughout.append_own (hnew : Throughout Event.Own new)
    (holder : Throughout Event.Own older) :
    Throughout Event.Own (new ++ older) := by
  induction new with
  | nil => exact holder
  | cons e new ih =>
    obtain ⟨he, hnew⟩ := Throughout.cons_iff.mp hnew
    exact Throughout.cons_iff.mpr ⟨fun x hx => addressed?_append (he x hx), ih hnew⟩

theorem throughout_own (h : ∀ e ∈ new, e.handle? = none) : Throughout Event.Own new := by
  rintro newer e older rfl
  exact Event.own_of_none (h e (by simp)) older

end

/-- **What is logged on the way from one board to the other** finds everybody in his place, and is
done through the handle of whoever was addressed last. -/
def Board.Logs (name : σ → ν) (names : Side → List ν) (b b' : Board σ) : Prop :=
  ∃ new, b'.log = new ++ b.log ∧ (∀ e ∈ new, e.Finds name names) ∧ Throughout Event.Own new

namespace Board.Logs

variable {name : σ → ν} {names : Side → List ν} {b b' b'' : Board σ}

theorem of_eq (h : b'.log = b.log) : Logs name names b b' := ⟨[], h, List.forall_mem_nil _, .nil⟩

theorem trans (h : Logs name names b b') (h' : Logs name names b' b'') : Logs name names b b'' := by
  obtain ⟨new, hlog, hnew, hown⟩ := h
  obtain ⟨more, hlog', hmore, hown'⟩ := h'
  exact ⟨more ++ new, by rw [hlog', hlog, List.append_assoc],
    List.forall_mem_append.mpr ⟨hmore, hnew⟩, hown'.append_own hown⟩

/-- Plain events are logged. -/
theorem plain (new : List (Event σ)) (hlog : b'.log = new ++ b.log)
    (hnew : new.all Event.isPlain = true) :
    Logs name names b b' := by
  have hall (e : Event σ) (he : e ∈ new) : e.addressee? = none ∧ e.handle? = none := by
    simpa [Event.isPlain] using List.all_eq_true.mp hnew e he
  exact ⟨new, hlog, fun e he => Event.finds_of_none (hall e he).1, throughout_own fun e he =>
    (hall e he).2⟩

end Board.Logs

/-! ## What is done through a handle -/

/-- The event addresses nobody, and what is done through a handle is done through this one. -/
def Event.Through (side : Side) (index : Nat) (e : Event σ) : Prop :=
  e.addressee? = none ∧ ∀ x, e.handle? = some x → x = (side, index)

theorem Event.through_of_isPlain {side : Side} {index : Nat} {e : Event σ} (h : e.isPlain = true) :
    e.Through side index := by
  obtain ⟨ha, hh⟩ : e.addressee? = none ∧ e.handle? = none := by simpa [Event.isPlain] using h
  refine ⟨ha, fun x hx => ?_⟩
  rw [hh] at hx
  cases hx

/-- The events of a claim are plain. -/
theorem isPlain_claimEvents (ending : Ending) :
    (claimEvents ending : List (Event σ)).all Event.isPlain = true := by
  refine List.all_eq_true.mpr fun e he => ?_
  rcases mem_claimEvents he with rfl | rfl | rfl <;> rfl

/-- An action is done through its handle… -/
theorem Board.log_perform_through {side : Side} (index : Nat) (x : Action side) {b : Board σ}
    (ho : b.owned = true) :
    ∃ new, (b.perform index x).log = new ++ b.log ∧ ∀ e ∈ new, e.Through side index := by
  have plain {b' : Board σ} (new : List (Event σ)) (hlog : b'.log = new ++ b.log)
      (hnew : new.all Event.isPlain = true) : ∃ new, b'.log = new ++ b.log ∧ ∀ e ∈ new,
        e.Through side index :=
    ⟨new, hlog, fun e he => Event.through_of_isPlain (List.all_eq_true.mp hnew e he)⟩
  cases x with
  | reply code headers =>
    cases hc : b.closed with
    | false =>
      exact plain [.scheduled (.resume none), .replied code headers true]
        (by simp [perform, raise, hc, schedule, note, ho]) rfl
    | true => exact plain [.replied code headers false] (by simp [perform, raise, hc, note]) rfl
  | resume =>
    refine ⟨[.scheduled (.resume (some (side, index)))], by simp [perform, ho, note], ?_⟩
    exact List.forall_mem_singleton.mpr ⟨rfl, fun x hx => (Option.some.inj hx).symm⟩
  | terminate =>
    cases hc : b.claimed with
    | false =>
      exact plain (.scheduled (.release .filterTerminated) :: claimEvents .filterTerminated)
        (by simp [perform, ho, terminate_of_unclaimed ho hc]) rfl
    | true => exact plain [] (by simp [perform, ho, hc]) rfl
  | _ => exact plain [] rfl rfl

/-- …and so is a whole program. -/
theorem Program.log_run_through {α : Type} {side : Side} (filter : σ) (index : Nat)
    (program : Program side α)
    {b : Board σ} (ho : b.owned = true) : ∃ new, (program.run filter index b).2.log = new ++ b.log ∧
      ∀ e ∈ new, e.Through side index := by
  induction program generalizing b with
  | done => exact ⟨[], rfl, List.forall_mem_nil _⟩
  | act x rest ih =>
    obtain ⟨new, hlog, hnew⟩ := log_perform_through index x ho
    obtain ⟨more, hlog', hmore⟩ := ih ((moves_perform index x ho).owned.trans ho)
    exact ⟨more ++ new, by rw [Program.run, hlog', hlog, List.append_assoc],
      List.forall_mem_append.mpr ⟨hmore, hnew⟩⟩
  | look rest ih =>
    obtain ⟨more, hlog', hmore⟩ := ih b.view (b := b.note (.looked side index filter b.view)) ho
    refine ⟨more ++ [.looked side index filter b.view],
      by rw [Program.run, hlog', List.append_assoc]; rfl,
      List.forall_mem_append.mpr ⟨hmore, ?_⟩⟩
    exact List.forall_mem_singleton.mpr ⟨rfl, fun x hx => (Option.some.inj hx).symm⟩

/-- What is done through the handle of the filter addressed last. -/
theorem Throughout.own_of_through {side : Side} {index : Nat} {new older : List (Event σ)}
    (hnew : ∀ e ∈ new, e.Through side index) (hlast : addressed? older = some (side, index))
    (h : Throughout Event.Own older) : Throughout Event.Own (new ++ older) := by
  have stays {new : List (Event σ)} (hnew : ∀ e ∈ new, e.Through side index) :
      addressed? (new ++ older) = some (side, index) := by
    have hnone : new.findSome? (fun e => e.addressee?.map fun x => (x.1, x.2.1)) = none :=
      List.findSome?_eq_none_iff.mpr fun e he => by rw [(hnew e he).1]; rfl
    rw [addressed?, List.findSome?_append, hnone]
    exact hlast
  induction new with
  | nil => exact h
  | cons e new ih =>
    obtain ⟨⟨-, hhandle⟩, hrest⟩ := List.forall_mem_cons.mp hnew
    refine Throughout.cons_iff.mpr ⟨fun x hx => ?_, ih hrest⟩
    rw [hhandle x hx]
    exact stays hrest

/-- **A filter that is addressed acts through the handle of its place.** -/
theorem Board.Logs.through {α : Type} {name : σ → ν} {names : Side → List ν} {b : Board σ}
    {side : Side} {i : Nat}
    {f : σ} {e : Event σ} (he : e.addressee? = some (side, i, f))
    (hi : (names side)[i]? = some (name f))
    (filter : σ) (program : Program side α) (ho : b.owned = true) :
    Logs name names b (program.run filter i (b.note e)).2 := by
  obtain ⟨new, hlog, hnew⟩ := program.log_run_through filter i (b := b.note e) ho
  have hhandle : e.handle? = none := by cases e <;> first | rfl | cases he
  refine ⟨new ++ [e], by rw [hlog, List.append_assoc]; rfl, List.forall_mem_append.mpr
    ⟨fun e' he' => Event.finds_of_none (hnew e' he').1,
      List.forall_mem_singleton.mpr fun side' j g hg => ?_⟩, ?_⟩
  · rw [he] at hg
    cases hg
    exact hi
  · refine Throughout.own_of_through hnew ?_
      (throughout_own (List.forall_mem_singleton.mpr hhandle))
    simp [addressed?, he]

/-! ## Calls and farewells -/

section

variable {name : σ → ν} {names : Side → List ν} {β : Behaviour σ}

/-- The entries of a chain, whose first place is `index`, stand in their places. -/
def Chain.StandFrom {π : Type} (name : σ → ν) (names : List ν) (index : Nat)
    (chain : Chain (Seated σ) π) : Prop :=
  ∀ j e, chain[j]? = some e → names[index + j]? = some (name e.filter.filter) ∧
    e.filter.seat = index + j

namespace Chain.StandFrom

variable {π : Type} {names : List ν} {index : Nat} {e : Entry (Seated σ) π}
  {chain : Chain (Seated σ) π}

theorem head (h : StandFrom name names index (e :: chain)) :
    names[index]? = some (name e.filter.filter) ∧ e.filter.seat = index := h 0 e rfl

theorem tail (h : StandFrom name names index (e :: chain)) :
    StandFrom name names (index + 1) chain := by
  intro j e' he
  rw [Nat.add_right_comm]
  exact h (j + 1) e' he

theorem of_map (h : chain.map (·.standing name) = names.zipIdx) : StandFrom name names 0 chain := by
  intro j e he
  have hj := congrArg (·[j]?) h
  simp only [List.getElem?_map, he, List.getElem?_zipIdx, Nat.zero_add, Option.map_some] at hj
  obtain ⟨n, hn, heq⟩ := Option.map_eq_some_iff.mp hj.symm
  obtain ⟨rfl, hseat⟩ := Prod.mk.inj heq
  rw [Nat.zero_add]
  exact ⟨hn, hseat.symm⟩

end Chain.StandFrom

/-- **Whatever a pass calls, it finds in its place**, and it leaves everybody there. -/
theorem Chain.Passes.in_place {π : Type} (side : Side) (names : Side → List ν) {point : π}
    {start : Nat} {convert : Converter}
    {call : Nat → Seated σ → Workbench σ → Chain.Called (Seated σ) (Workbench σ)}
    {wish : Option Phase} {index : Nat}
    {chain : Chain (Seated σ) π} {w : Workbench σ} {is : List Nat}
    {r : Passed (Seated σ) π (Workbench σ)}
    (hstanding : ∀ i f w, name (call i f w).filter.filter = name f.filter ∧
      (call i f w).filter.seat = f.seat)
    (howned : ∀ i f w, w.board.owned = true → (call i f w).state.board.owned = true)
    (hlogs : ∀ i f w, w.board.owned = true → (names side)[i]? = some (name f.filter) → f.seat = i →
      Logs name names w.board (call i f w).state.board)
    (h : Passes point start convert call wish index chain w is r) (ho : w.board.owned = true)
    (hplaces : chain.StandFrom name (names side) index) :
    r.chain.map (·.standing name) = chain.map (·.standing name) ∧
      Logs name names w.board r.state.board := by
  have same {i : Nat} {e : Entry (Seated σ) π} {w : Workbench σ} :
      (⟨(call i e.filter w).filter, e.point⟩ : Entry (Seated σ) π).standing name
        = e.standing name := by
    obtain ⟨hname, hseat⟩ := hstanding i e.filter w
    exact Prod.ext hname hseat
  induction h with
  | nil => exact ⟨rfl, .of_eq rfl⟩
  | skip _ _ ih =>
    obtain ⟨hchain, hlog⟩ := ih ho hplaces.tail
    exact ⟨congrArg (_ :: ·) hchain, hlog⟩
  | halt _ _ =>
    obtain ⟨hi, hseat⟩ := hplaces.head
    exact ⟨congrArg (· :: _) same, hlogs _ _ _ ho hi hseat⟩
  | walk _ _ _ _ ih =>
    obtain ⟨hi, hseat⟩ := hplaces.head
    obtain ⟨hchain, hlog⟩ := ih (howned _ _ _ ho) hplaces.tail
    exact ⟨congrArg₂ (· :: ·) same hchain, (hlogs _ _ _ ho hi hseat).trans hlog⟩

namespace FilterSet

section

variable (hβ : β.Keeps name)

include hβ

theorem standing_callRequest (i : Nat) (f : Seated σ) (w : Workbench σ) :
    name (callRequest β i f w).filter.filter = name f.filter ∧
      (callRequest β i f w).filter.seat = f.seat :=
  ⟨(hβ.onRequest f.filter _ _).run f.filter f.seat _, rfl⟩

theorem standing_callResponse (i : Nat) (f : Seated σ) (w : Workbench σ) :
    name (callResponse β i f w).filter.filter = name f.filter ∧
      (callResponse β i f w).filter.seat = f.seat := by
  refine ⟨?_, seat_callResponse β i f w⟩
  have hname := (hβ.onResponse f.filter w.board.context (w.board.putReplaced w.parts).1).run
    f.filter f.seat
    ((w.board.putReplaced w.parts).2.note
      (.called .response i f.filter w.board.point (w.board.putReplaced w.parts).1))
  unfold callResponse
  dsimp only
  split <;> exact hname

end

theorem logs_callRequest (i : Nat) (f : Seated σ) (w : Workbench σ) (ho : w.board.owned = true)
    (hi : (names .request)[i]? = some (name f.filter)) (hseat : f.seat = i) :
    Logs name names w.board (callRequest β i f w).state.board := by
  subst hseat
  exact .through rfl hi f.filter (β.onRequest f.filter _ _) ho

theorem logs_callResponse (i : Nat) (f : Seated σ) (w : Workbench σ) (ho : w.board.owned = true)
    (hi : (names .response)[i]? = some (name f.filter)) (hseat : f.seat = i) :
    Logs name names w.board (callResponse β i f w).state.board := by
  subst hseat
  have hput : Logs name names w.board (w.board.putReplaced w.parts).2 := .of_eq rfl
  have hcalled := hput.trans (.through (e := .called .response f.seat f.filter w.board.point
    (w.board.putReplaced w.parts).1) rfl hi f.filter
      (β.onResponse f.filter w.board.context (w.board.putReplaced w.parts).1) ho)
  unfold callResponse
  dsimp only
  split
  · exact hcalled
  · exact hcalled.trans (.of_eq rfl)

variable (hβ : β.Keeps name)

include hβ

/-- A filter that is added is given the handle of the place it gets. -/
theorem logs_introduce (s : FilterSet σ) (b : Board σ) (r : Registration σ) (ho : b.owned = true)
    (hi : (names r.side)[s.size r.side]? = some (name r.filter)) :
    name (s.introduce β b r).1 = name r.filter ∧ Logs name names b (s.introduce β b r).2 :=
  ⟨(hβ.onAdd r.filter b.context.id r.side).run r.filter _ _,
    .through rfl hi r.filter (β.onAdd r.filter b.context.id r.side) ho⟩

/-- A round of farewells finds everybody in his place. -/
theorem destroyFrom_in_place {π : Type} (side : Side) :
    ∀ (index : Nat) (chain : Chain (Seated σ) π) (b : Board σ),
    b.owned = true → chain.StandFrom name (names side) index →
      (destroyFrom β side index chain b).2.1.map (·.standing name) = chain.map (·.standing name) ∧
        Logs name names b (destroyFrom β side index chain b).2.2
  | _, [], b, _, _ => ⟨rfl, .of_eq rfl⟩
  | index, e :: rest, b, ho, hplaces => by
    obtain ⟨hi, hseat⟩ := hplaces.head
    have hname : name (farewell β side index e.filter b).1.filter = name e.filter.filter :=
      (hβ.onDestroy e.filter.filter side).run e.filter.filter e.filter.seat _
    have hsame : (name (farewell β side index e.filter b).1.filter, e.filter.seat)
      = e.standing name :=
      Prod.ext hname rfl
    have htold : Logs name names b (farewell β side index e.filter b).2 := by
      unfold farewell Program.through
      rw [hseat]
      exact .through rfl hi e.filter.filter (β.onDestroy e.filter.filter side) ho
    unfold destroyFrom
    dsimp only
    split
    case h_1 p hp => exact ⟨congrArg (· :: _) hsame, htold⟩
    case h_2 hp =>
      obtain ⟨hchain, hlog⟩ := destroyFrom_in_place side (index + 1) rest _
        ((told_farewell β side index e.filter b).owned ho) hplaces.tail
      exact ⟨congrArg₂ (· :: ·) hsame hchain, htold.trans hlog⟩

/-- …on both sides. -/
theorem destroy_in_place {s : FilterSet σ} (hs : s.Stands name names) (b : Board σ)
    (ho : b.owned = true) :
    (destroy β s b).2.1.Stands name names ∧ Logs name names b (destroy β s b).2.2 := by
  obtain ⟨hrequests, hlogs⟩ :=
    destroyFrom_in_place hβ .request 0 s.requests b ho (.of_map (hs .request))
  obtain ⟨count, hround⟩ := round_destroyFrom β .request 0 s.requests b ho
  obtain ⟨hresponses, hlogs'⟩ := destroyFrom_in_place hβ .response 0 s.responses
    (destroyFrom β .request 0 s.requests b).2.2 (hround.told.owned ho) (.of_map (hs .response))
  unfold destroy
  dsimp only
  split
  · refine ⟨fun side => ?_, hlogs⟩
    cases side with
    | request => exact hrequests.trans (hs .request)
    | response => exact hs .response
  · refine ⟨fun side => ?_, hlogs.trans hlogs'⟩
    cases side with
    | request => exact hrequests.trans (hs .request)
    | response => exact hresponses.trans (hs .response)

end FilterSet

end

/-! ## Streams -/

/-- **The filters stay in their places**, whoever is addressed is found there, and acts through the
handle of his place. -/
structure Stream.InPlace (name : σ → ν) (names : Side → List ν) (s s' : Stream σ) : Prop where
  stands : s.filters.Stands name names → s'.filters.Stands name names
  logs : s.filters.Stands name names → Logs name names s.board s'.board

namespace Stream

variable {name : σ → ν} {names : Side → List ν} {s s' s'' : Stream σ}

namespace InPlace

theorem refl (s : Stream σ) : s.InPlace name names s := ⟨id, fun _ => .of_eq rfl⟩

theorem trans (h : s.InPlace name names s') (h' : s'.InPlace name names s'') :
    s.InPlace name names s'' :=
  ⟨fun hs => h'.stands (h.stands hs), fun hs => (h.logs hs).trans (h'.logs (h.stands hs))⟩

/-- What only notes plain events leaves everybody in place. -/
theorem of_log
    (hf : s'.filters.requests = s.filters.requests ∧ s'.filters.responses = s.filters.responses)
    (new : List (Event σ)) (hlog : s'.board.log = new ++ s.board.log)
    (hnew : new.all Event.isPlain = true) :
    s.InPlace name names s' where
  stands hs side := by
    rw [← hs side]
    cases side with
    | request => exact congrArg (List.map _) hf.1
    | response => exact congrArg (List.map _) hf.2
  logs _ := .plain new hlog hnew

theorem note (s : Stream σ) {e : Event σ} (he : e.isPlain = true) :
    s.InPlace name names (s.note e) :=
  .of_log ⟨rfl, rfl⟩ [e] rfl (by simpa using he)

theorem noteAbort (s : Stream σ) (cause : Abort) : s.InPlace name names (s.noteAbort cause) := by
  cases cause with
  | verdict => exact .refl s
  | panic => exact .note s rfl

theorem pause (s : Stream σ) (n : Nat) : s.InPlace name names (s.pause n).2 := by
  cases hc : s.board.claimed with
  | true => rw [pause_of_claimed n hc]; exact .refl s
  | false =>
    have hhalted : s.InPlace name names (s.halted n) :=
      .of_log ⟨rfl, rfl⟩ [.published (.paused s.phase)] rfl rfl
    rw [pause_of_unclaimed n hc]
    cases s.settings.stopTimeout with
    | none => exact hhalted
    | some delay => exact hhalted.trans (.note _ rfl)

theorem survive (panic : Option Panic) (s : Stream σ) :
    s.InPlace name names (Life.survive panic s) := by
  cases panic with
  | none => exact .refl s
  | some p => exact .note s rfl

theorem schedule (s : Stream σ) (ho : s.board.owned = true) {job : Job}
    (hj : ∀ x, job ≠ .resume (some x)) :
    s.InPlace name names { s with board := s.board.schedule job } := by
  rw [schedule_of_owned ho]
  refine .note s ?_
  rcases job with _ | (_ | x) | _ | _ | _
  case resume.some => exact absurd rfl (hj x)
  all_goals rfl

theorem terminate (s : Stream σ) (ho : s.board.owned = true) (ending : Ending) :
    s.InPlace name names (s.terminate ending).2 := by
  unfold Stream.terminate
  cases hc : s.board.claimed with
  | true => rw [terminate_of_claimed hc]; exact .refl s
  | false =>
    rw [terminate_of_unclaimed ho hc]
    exact .of_log ⟨rfl, rfl⟩ (.scheduled (.release ending) :: claimEvents ending)
      rfl (isPlain_claimEvents ending)

/-- The host's answer leaves everybody in place. -/
theorem answer (s : Stream σ) (ho : s.board.owned = true) (x : Handover) :
    s.InPlace name names (Turn.answer s x) := by
  cases x with
  | kept | dropped => exact .refl s
  | responded m => exact .schedule s ho nofun
  | failed failure => exact .terminate s ho .hostFailure

end InPlace

/-- What is concluded from a pass leaves everybody in place. -/
theorem Concludes.inPlace {result : Except Panic Outcome} {step : Step}
    (h : s.Concludes result step s') :
    s.InPlace name names s' := by
  cases h with
  | next | rest | escape => exact .refl s
  | reply => exact .of_log ⟨rfl, rfl⟩ [] rfl rfl
  | pause => exact .pause s _
  | jump => exact .of_log ⟨rfl, rfl⟩ [] rfl rfl
  | abort cause => exact .noteAbort s cause

section

variable {β : Behaviour σ} (hβ : β.Keeps name)

include hβ

/-- **A pass over request filters** leaves everybody in place… -/
theorem inPlace_passed (point : RequestPoint) (k : Nat) (ho : s.board.owned = true) :
    s.InPlace name names (s.passed β point k) := by
  obtain ⟨is, hpass⟩ : ∃ is, Chain.Passes point k s.settings.convert (callRequest β) none 0
    s.filters.requests
      ⟨{ s.entered.board with point := some point }, s.request.parts⟩ is _ :=
    Chain.passes_passFrom none 0 s.filters.requests _
  have passed (hs : s.filters.Stands name names) := hpass.in_place .request names
    (standing_callRequest hβ)
    (fun i f w ho =>
      ((walked_callRequest β i f w).moves (fun _ => Event.isQuiet_of_inPass) ho).owned.trans ho)
    logs_callRequest ho (.of_map (hs .request))
  have hentered : Logs name names s.board { s.entered.board with point := some point } :=
    .plain [.entered s.phase] rfl rfl
  refine ⟨fun hs side => ?_, fun hs => (hentered.trans (passed hs).2).trans ?_⟩
  · have hchain := (passed hs).1
    unfold Stream.passed Stream.pass passRequests
    cases side with
    | request =>
      dsimp only
      split <;> exact hchain.trans (hs .request)
    | response =>
      dsimp only
      split <;> exact hs .response
  · unfold Stream.passed Stream.pass passRequests
    dsimp only
    split <;> exact .plain [.passed point _] rfl rfl

variable (names) in
/-- …and so does one over response filters. -/
theorem inPlace_passResponses (k : Nat) (convert : Converter) (m : Message) {b : Board σ}
    (ho : b.owned = true) (hb : b.log = s.board.log) :
    let r := passResponses β .beforeSend k convert s.filters ⟨b, m.parts⟩
    s.InPlace name names
      { s with
        filters := r.filters, board := r.bench.board, response := r.bench.parts.message } := by
  intro r
  obtain ⟨is, hpass⟩ : ∃ is, Chain.Passes ResponsePoint.beforeSend k convert (callResponse β) none 0
      s.filters.responses ⟨b, m.parts⟩ is _ := Chain.passes_passFrom none 0 s.filters.responses _
  have passed (hs : s.filters.Stands name names) := hpass.in_place .response names
    (standing_callResponse hβ)
    (fun i f w ho =>
      ((walked_callResponse β i f w).moves (fun _ => Event.isQuiet_of_inPass) ho).owned.trans ho)
    logs_callResponse ho (.of_map (hs .response))
  refine ⟨fun hs side => ?_, fun hs => (Logs.of_eq hb).trans (passed hs).2⟩
  cases side with
  | request => exact hs .request
  | response => exact (passed hs).1.trans (hs .response)

/-- **Response filters** leave everybody in place. -/
theorem inPlace_filterResponse (k : Nat) (ho : s.board.owned = true) :
    s.InPlace name names (s.filterResponse β k).2 := by
  have hpass := inPlace_passResponses names hβ (s := s) k .keep s.response
    (b := s.board.closeReply.2) ho rfl
  unfold filterResponse passResponse
  dsimp only at hpass ⊢
  generalize passResponses β .beforeSend k .keep s.filters ⟨s.board.closeReply.2, s.response.parts⟩
    = r
    at hpass ⊢
  rcases r.result with p | _ | n | q | cause
  case ok.stopped => exact hpass.trans (.pause _ n)
  case ok.aborted => exact hpass.trans (.noteAbort _ cause)
  all_goals exact hpass

/-- The release of a stream tells everybody in his place… -/
theorem inPlace_release (ending : Ending) (ho : s.board.owned = true) :
    s.InPlace name names (s.release β ending).2 := by
  have told (hs : s.filters.Stands name names) := destroy_in_place hβ hs s.board ho
  rw [release_eq]
  refine ⟨fun hs => (told hs).1, fun hs => ?_⟩
  cases (s.filters.destroy β s.board).1 with
  | some p => exact (told hs).2
  | none => exact (told hs).2.trans (.plain [.published (.finished ending)] rfl rfl)

/-- …and so does an ending. -/
theorem inPlace_finish (ending : Ending) (ho : s.board.owned = true) :
    s.InPlace name names (s.finish β ending).2 := by
  cases hc : s.board.claimed with
  | true => rw [finish_of_claimed β hc]; exact .refl s
  | false =>
    have hclaim : s.InPlace name names { s with board := (s.board.claim ending).2 } :=
      .of_log ⟨rfl, rfl⟩ (claimEvents ending) (by rw [claim_of_unclaimed hc])
        (isPlain_claimEvents ending)
    rw [finish_of_unclaimed β hc]
    exact hclaim.trans (inPlace_release hβ ending (by rw [claim_of_unclaimed hc]; exact ho))

/-- A direct run leaves everybody in place. -/
theorem inPlace_runResponseFilters (message : Message) (convert : Converter)
    (ho : s.board.owned = true) :
    s.InPlace name names (s.runResponseFilters β .beforeSend message convert).2 := by
  have hpass := inPlace_passResponses names hβ (s := s) 0 convert message ho rfl
  have hmoves :=
    (frame_passResponses β .beforeSend 0 convert s.filters ⟨s.board, message.parts⟩ ho).owned
  rw [runResponseFilters_eq β message convert rfl]
  dsimp only at hpass
  generalize passResponses β .beforeSend 0 convert s.filters ⟨s.board, message.parts⟩
    = r at hpass hmoves ⊢
  split
  case h_1 cause _ =>
    have hnoted := hpass.trans (.noteAbort _ cause)
    refine hnoted.trans (inPlace_finish hβ cause.ending ?_)
    cases cause <;> exact hmoves.trans ho
  case h_2 => exact hpass

end

end Stream

/-! ## Turns -/

namespace Turn

variable {name : σ → ν} {names : Side → List ν} {c : Surroundings σ ε} {t : Turn σ ε}

/-- A phase without filters leaves everybody in place. -/
theorem inPlace_execute_of_none (k : Nat) (ho : t.stream.board.owned = true)
    (h : t.stream.phase.side? = none) :
    t.stream.InPlace name names (t.execute c k).2.stream := by
  have hentered : t.stream.InPlace name names t.stream.entered := .note _ rfl
  refine hentered.trans ?_
  unfold execute step
  split
  case h_2 hp | h_4 hp | h_6 hp | h_9 hp => rw [show t.stream.phase = _ from hp] at h; cases h
  case h_1 | h_8 | h_11 => exact .refl _
  case h_3 =>
    unfold matchRoute
    dsimp only
    split <;> exact .of_log ⟨rfl, rfl⟩ [.routed _ _] rfl rfl
  case h_5 =>
    unfold chooseHost
    split
    · exact .refl _
    · dsimp only; split <;> exact .of_log ⟨rfl, rfl⟩ [.chosen _ _ _] rfl rfl
  case h_7 =>
    unfold forward
    split
    · exact .refl _
    · dsimp only
      have hforwarded (e : Event σ) (he : e.isPlain = true) (x : Handover) :
          t.stream.entered.InPlace name names (answer (t.stream.entered.note e) x) :=
        (InPlace.note t.stream.entered he).trans (.answer (t.stream.entered.note e) ho x)
      split <;> exact hforwarded _ rfl _
  case h_10 =>
    unfold respond
    dsimp only
    split <;> split <;>
      first
      | exact .of_log ⟨rfl, rfl⟩ [.written _ _] rfl rfl
      | exact .of_log ⟨rfl, rfl⟩ [.stat (.phaseCompleted .respond), .written _ _] rfl rfl

variable (hβ : c.behaviour.Keeps name)

include hβ

variable (names) in
/-- **Every phase executed** leaves everybody in place. -/
theorem inPlace_execute (k : Nat) (ho : t.stream.board.owned = true) :
    t.stream.InPlace name names (t.execute c k).2.stream := by
  cases hs : t.stream.phase.side? with
  | none => exact inPlace_execute_of_none k ho hs
  | some side =>
    cases side with
    | request =>
      obtain ⟨point, hp⟩ := Phase.exists_point hs
      rw [execute_filters c hp]
      exact (inPlace_passed hβ point k ho).trans (concludes_filterRequest ho).inPlace
    | response =>
      have hp : t.stream.phase = .filterResponse := by
        revert hs
        cases t.stream.phase <;> first | exact fun _ => rfl | nofun
      rw [execute_filterResponse c hp]
      exact (InPlace.note t.stream rfl).trans (inPlace_filterResponse hβ k ho)

variable (names) in
theorem inPlace_strides {x y : Nat × Turn σ ε} (hs : Relation.ReflTransGen (Stride c) x y)
    (ho : x.2.stream.board.owned = true) : x.2.stream.InPlace name names y.2.stream := by
  induction hs with
  | refl => exact .refl _
  | tail hz hs ih =>
    have ho := Stride.owned_strides hz ho
    refine ih.trans ?_
    have hexec (k : Nat) := inPlace_execute names hβ k ho
    cases hs with
    | @next k _ _ hl hx =>
      have hexec := hexec k
      rw [hx] at hexec
      exact hexec.trans (.of_log ⟨rfl, rfl⟩ [_] rfl rfl)
    | @goto k _ _ _ hl hx =>
      have hexec := hexec k
      rw [hx] at hexec
      exact hexec.trans (.of_log ⟨rfl, rfl⟩ [] rfl rfl)
    | @jump k _ _ _ _ hl hx hj =>
      have hexec := hexec k
      rw [hx] at hexec
      exact hexec.trans (.of_log ⟨rfl, rfl⟩ [_] rfl rfl)

theorem inPlace_drives {x : Nat × Turn σ ε} {r : Option Panic × Turn σ ε} (hd : Drives c x r)
    (ho : x.2.stream.board.owned = true) : x.2.stream.InPlace name names r.2.stream := by
  obtain ⟨y, hs, hstop⟩ := hd
  have hy := inPlace_strides names hβ hs ho
  have ho := Stride.owned_strides hs ho
  have executed {k : Nat} {t t' : Turn σ ε} {step : Step} (hl : t.stream.Live)
    (ho : t.stream.board.owned = true)
      (hx : t.execute c k = (step, t')) :
      t.stream.InPlace name names t'.stream ∧ t'.stream.board.owned = true := by
    have hexec := inPlace_execute names hβ k ho
    obtain ⟨new, is, hexecuted⟩ := executed_execute hl ho hx
    rw [hx] at hexec
    exact ⟨hexec, (hexecuted.moves hl).owned.trans ho⟩
  cases hstop with
  | halt => exact hy
  | rest hl hx | escape hl hx => exact hy.trans (executed hl ho hx).1
  | finish hl hx =>
    obtain ⟨hexec, ho⟩ := executed hl ho hx
    exact hy.trans (hexec.trans (inPlace_finish hβ _ ho))
  | overrun hl hx hj =>
    obtain ⟨hexec, ho⟩ := executed hl ho hx
    exact hy.trans (hexec.trans (inPlace_finish hβ _ ho))

/-- **Every job leaves everybody in place.** -/
theorem inPlace_exec (job : Job) (ho : t.stream.board.owned = true) :
    t.stream.InPlace name names (t.exec c job).2.stream := by
  have hran := ran_exec c t job
  generalize t.exec c job = r at hran
  cases hran with
  | idle => exact .refl _
  | @drive _ k s hopens =>
    have hopened : t.stream.InPlace name names s := by
      cases hopens with
      | receive => exact .of_log ⟨rfl, rfl⟩ [] rfl rfl
      | _ => exact .of_log ⟨rfl, rfl⟩ [_] rfl rfl
    have ho := hopens.owned ho
    exact hopened.trans (inPlace_drives hβ (drives_drive c k ⟨s, t.env⟩ ho) ho)
  | timeout => exact inPlace_finish hβ _ ho
  | release ending => exact inPlace_release hβ ending ho

end Turn

/-! ## Lives -/

namespace Life

variable {name : σ → ν} {names : Side → List ν}

/-- The names of the filters that the deeds add to a side, in order. -/
def registered (name : σ → ν) (deeds : List (Deed σ ε)) (side : Side) : List ν :=
  deeds.flatMap fun
    | .add _ r => if r.side = side then [name r.filter] else []
    | _ => []

theorem registered_append (name : σ → ν) (deeds more : List (Deed σ ε)) (side : Side) :
    registered name (deeds ++ more) side = registered name deeds side
      ++ registered name more side :=
  List.flatMap_append

/-- **The filters of each side stand as they were added**, and whoever was addressed was found
there. -/
structure Placed (name : σ → ν) (names : Side → List ν) (l : Life σ) : Prop where
  stand : l.stream.filters.Stands name names
  finds : ∀ e ∈ l.log, e.Finds name names

theorem Placed.of_logs {l l' : Life σ} (h : l.Placed name names)
    (hs : l'.stream.filters.Stands name names)
    {new : List (Event σ)} (hlog : l'.log = new ++ l.log) (hnew : ∀ e ∈ new, e.Finds name names) :
    l'.Placed name names := by
  refine ⟨hs, fun e he => ?_⟩
  rw [hlog] at he
  exact (List.mem_append.mp he).elim (hnew e) (h.finds e)

/-- A filter that is added is given a handle, and what it does then is done through that. -/
theorem log_add (l : Life σ) (ho : l.stream.board.owned = true) (β : Behaviour σ)
    (r : Registration σ) :
    ∃ new, (l.next (.add β r : Deed σ ε)).log
        = new ++ .added r.side (l.stream.filters.size r.side) r.filter :: l.log ∧
      ∀ e ∈ new, e.Through r.side (l.stream.filters.size r.side) :=
  (β.onAdd r.filter l.stream.board.context.id r.side).log_run_through r.filter
    (l.stream.filters.size r.side)
    (b := l.stream.board.note (.added r.side (l.stream.filters.size r.side) r.filter)) ho

/-- **A filter that is added** is given the handle of the place it then has. -/
theorem Placed.add {l : Life σ} (h : l.Placed name names) (ho : l.stream.board.owned = true)
    {β : Behaviour σ} (hβ : β.Keeps name) (r : Registration σ) :
    let names' := fun side => names side ++ if r.side = side then [name r.filter] else []
    (l.next (.add β r : Deed σ ε)).Placed name names' ∧
      Logs name names' l.stream.board (l.next (.add β r : Deed σ ε)).stream.board := by
  intro names'
  have hplace : (names' r.side)[l.stream.filters.size r.side]? = some (name r.filter) := by
    rw [h.stand.size]
    simp [names']
  obtain ⟨hname, hlogs⟩ := logs_introduce hβ l.stream.filters l.stream.board r ho hplace
  have hstand := h.stand.enlist (r.withFilter (l.stream.filters.introduce β l.stream.board r).1)
  rw [r.side_withFilter, r.filter_withFilter, hname] at hstand
  refine ⟨⟨hstand, fun e he => ?_⟩, hlogs⟩
  obtain ⟨new, hlog, hnew, -⟩ := hlogs
  rw [show (l.next (.add β r : Deed σ ε)).log = new ++ l.log from hlog] at he
  exact (List.mem_append.mp he).elim (hnew e) fun he => (h.finds e he).append

variable (names) in
/-- A deed that adds no filter, and is none of a handle that was kept, leaves everybody in place. -/
theorem inPlace_next {l : Life σ} (ho : l.stream.board.owned = true) {d : Deed σ ε}
    (hd : d.Keeps name)
    (hadd : ∀ β r, d ≠ .add β r) (hact : ∀ side filter i program, d ≠ .act side filter i program) :
    l.stream.InPlace name names (l.next d).stream := by
  cases d with
  | add β r => exact absurd rfl (hadd β r)
  | act side filter index program => exact absurd rfl (hact side filter index program)
  | receive request => exact .schedule _ ho nofun
  | resume => exact .schedule _ ho nofun
  | terminate ending => exact .terminate _ ho ending
  | answer x => exact .answer _ ho x
  | direct c message convert => exact inPlace_runResponseFilters hd message convert ho
  | run p c env =>
    rw [Life.next]
    split
    · exact (Turn.inPlace_exec (t := ⟨l.stream, env⟩) hd p.job ho).trans (.survive _ _)
    · exact .refl _

/-- **In every life the filters stand as they were added, each with the handle of its place.** -/
theorem placed_after (id : StreamId) (settings : Settings) (deeds : List (Deed σ ε))
    (hd : ∀ d ∈ deeds, d.Keeps name) : (after id settings deeds).Placed name
    (registered name deeds) := by
  induction deeds using List.reverseRecOn with
  | nil =>
    have hnone : ([.stat .created] : List (Event σ)).all (·.addressee?.isNone) := rfl
    refine ⟨fun side => by cases side <;> rfl, fun e he => Event.finds_of_none ?_⟩
    simpa using List.all_eq_true.mp hnone e he
  | append_singleton deeds d ih =>
    obtain ⟨hdeeds, hlast⟩ := List.forall_mem_append.mp hd
    have ih := ih hdeeds
    have hlast := hlast d (List.mem_singleton_self d)
    have ho := (reached_after id settings deeds).orderly.books.owned
    rw [after_append]
    by_cases hadd : ∃ β r, d = .add β r
    · obtain ⟨β, r, rfl⟩ := hadd
      have hadded := (ih.add (ε := ε) ho hlast r).1
      rw [funext (registered_append name deeds [.add β r])]
      simpa [registered] using hadded
    have hadd : ∀ β r, d ≠ .add β r := fun β r hr => hadd ⟨β, r, hr⟩
    have hnone : registered name (deeds ++ [d]) = registered name deeds := funext fun side => by
      rw [registered_append]
      cases d with
      | add β r => exact absurd rfl (hadd β r)
      | _ => exact List.append_nil _
    rw [hnone]
    by_cases hact : ∃ side filter i program, d = .act side filter i program
    · obtain ⟨side, filter, i, program, rfl⟩ := hact
      obtain ⟨new, hlog, hnew⟩ := program.log_run_through filter i ho
      exact ih.of_logs ih.stand hlog fun e he => Event.finds_of_none (hnew e he).1
    · have hinPlace := inPlace_next (registered name deeds) ho hlast hadd
        fun side filter i program h => hact ⟨side, filter, i, program, h⟩
      obtain ⟨new, hlog, hnew, -⟩ := hinPlace.logs ih.stand
      exact ih.of_logs (hinPlace.stands ih.stand) hlog hnew

/-- **Whatever a deed does through a handle, but one of a handle that was kept, is done through that
of the filter addressed last.** -/
theorem own_next (id : StreamId) (settings : Settings) (deeds : List (Deed σ ε)) {d : Deed σ ε}
    (hact : ∀ side filter i program, d ≠ .act side filter i program) :
    let l := after id settings deeds
    ∃ new, (l.next d).log = new ++ l.log ∧ Throughout Event.Own new := by
  intro l
  -- the places are the same whatever the filters are called
  have hkeeps (d : Deed σ ε) : d.Keeps fun _ => () := by
    cases d <;> first | exact Behaviour.keeps_unit _ | exact trivial
  have hplaced := placed_after id settings deeds fun d _ => hkeeps d
  have ho := (reached_after id settings deeds).orderly.books.owned
  by_cases hadd : ∃ β r, d = .add β r
  · obtain ⟨β, r, rfl⟩ := hadd
    obtain ⟨new, hlog, -, hown⟩ := (hplaced.add (ε := ε) ho β.keeps_unit r).2
    exact ⟨new, hlog, hown⟩
  · have hadd : ∀ β r, d ≠ .add β r := fun β r hr => hadd ⟨β, r, hr⟩
    obtain ⟨new, hlog, -, hown⟩ := (inPlace_next _ ho (hkeeps d) hadd hact).logs hplaced.stand
    exact ⟨new, hlog, hown⟩

end Life

end FilterProxy
