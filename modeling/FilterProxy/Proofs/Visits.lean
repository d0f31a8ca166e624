import FilterProxy.Proofs.Pass

/-!
# Proofs/Visits — whom a pass calls, and what decides it

A pass keeps no record of its calls.  The same pass over calls that **record** themselves
(`Chain.visits`) does the same, and so tells them all.  Against the record the pass is judged by the
list of the positions bound to its point: **it calls a prefix of them** (`Chain.Meets`), each with
the filter and the state as they then are, and what it comes to is decided by the last call, or,
behind the last position, by the last wish to go back.
-/

namespace FilterProxy

namespace Chain

variable {φ π ω : Type}

/-! ## The record of a pass -/

/-- One call in the course of a pass. -/
structure Visit (φ ω : Type) where
  index : Nat
  /-- The filter as it was called. -/
  filter : φ
  /-- The state the call worked on. -/
  state : ω
  left : Called φ ω

namespace Visit

/-- The call let the pass walk on. -/
def Walked (convert : Converter) (v : Visit φ ω) : Prop :=
  ∃ raw, v.left.answer = .ok raw ∧ convert raw = .ok .proceed

/-- The target of the answer, before it was converted. -/
def wish? (v : Visit φ ω) : Option Phase :=
  match v.left.answer with
  | .ok raw => raw.target?
  | .error _ => none

end Visit

/-- A call that records itself, latest first. -/
def recording (call : Nat → φ → ω → Called φ ω) (index : Nat) (filter : φ)
    (w : ω × List (Visit φ ω)) :
    Called φ (ω × List (Visit φ ω)) :=
  let c := call index filter w.1
  ⟨c.answer, c.filter, (c.state, ⟨index, filter, w.1, c⟩ :: w.2)⟩

section

variable [DecidableEq π] (point : π) (start : Nat) (convert : Converter)
  (call : Nat → φ → ω → Called φ ω)

/-- The calls of a pass over the part of a chain whose first position is `index`, in order. -/
def visitsFrom (wish : Option Phase) (index : Nat) (chain : Chain φ π) (w : ω) : List (Visit φ ω) :=
  (passFrom point start convert (recording call) wish index chain (w, [])).state.2.reverse

/-- **The calls of a pass**, in order. -/
def visits (chain : Chain φ π) (w : ω) : List (Visit φ ω) :=
  (chain.pass point start convert (recording call) (w, [])).state.2.reverse

/-- The positions of the filters bound to `point`, from `start` on, in order; the first position is
`index`. -/
def positionsFrom (index : Nat) (chain : Chain φ π) : List Nat :=
  ((chain.zipIdx index).filter fun x => start ≤ x.2 ∧ x.1.point = point).map (·.2)

/-- **The positions a pass is about.** -/
def positions (chain : Chain φ π) : List Nat := positionsFrom point start 0 chain

variable {point start}

theorem mem_positions {chain : Chain φ π} {i : Nat} : i ∈ chain.positions point start ↔
    start ≤ i ∧ (chain.map (·.point))[i]? = some point := by
  rw [positions, positionsFrom, List.mem_map, List.getElem?_map]
  constructor
  · rintro ⟨⟨e, j⟩, hmem, rfl⟩
    obtain ⟨he, hpoint⟩ := List.mem_filter.mp hmem
    simp only [Bool.decide_and, Bool.and_eq_true, decide_eq_true_eq] at hpoint
    exact ⟨hpoint.1, by rw [List.mem_zipIdx_iff_getElem?.mp he, Option.map_some, hpoint.2]⟩
  · rintro ⟨hi, hmap⟩
    obtain ⟨e, he, rfl⟩ := Option.map_eq_some_iff.mp hmap
    exact ⟨⟨e, i⟩, List.mem_filter.mpr ⟨List.mem_zipIdx_iff_getElem?.mpr he, by simp [hi]⟩, rfl⟩

theorem pairwise_positions (chain : Chain φ π) : (chain.positions point start).Pairwise
    (· < ·) := by
  have hall : ((chain.zipIdx 0).map (·.2)).Pairwise (· < ·) := by
    rw [List.zipIdx_map_snd]
    exact List.pairwise_lt_range'
  exact hall.sublist (List.Sublist.map _ List.filter_sublist)

end

/-! ## The reference -/

/-- Each call works on what the one before it left. -/
def Threaded (call : Nat → φ → ω → Called φ ω) : ω → List (Visit φ ω) → ω → Prop
  | w, [], w' => w' = w
  | w, v :: rest, w' =>
    v.state = w ∧ v.left = call v.index v.filter w ∧ Threaded call v.left.state rest w'

/-- **What a pass comes to** after some calls, if it is about `positions`.  No earlier wish to go
back outlives a call that halts the pass. -/
inductive Concludes (convert : Converter) (positions : List Nat) :
    List (Visit φ ω) → Except Panic Outcome → Prop
  | panic {before v p} (hw : ∀ u ∈ before, u.Walked convert) (ha : v.left.answer = .error p) :
      Concludes convert positions (before ++ [v]) (.ok (.aborted (.panic v.index p.message)))
  | stop {before v raw} (hw : ∀ u ∈ before, u.Walked convert) (ha : v.left.answer = .ok raw)
      (hc : convert raw = .ok .stop) : Concludes convert positions (before ++ [v])
        (.ok (.stopped v.index))
  | terminate {before v raw} (hw : ∀ u ∈ before, u.Walked convert) (ha : v.left.answer = .ok raw)
      (hc : convert raw = .ok .terminate) :
      Concludes convert positions (before ++ [v]) (.ok (.aborted (.verdict v.index)))
  | back {before v raw verdict target} (hw : ∀ u ∈ before, u.Walked convert)
      (ha : v.left.answer = .ok raw)
      (hc : convert raw = .ok verdict) (ht : verdict.target? = some target) :
      Concludes convert positions (before ++ [v]) (.ok (.resumeAt target))
  /-- The converter breaks off; one that always answers never does. -/
  | escape {before v raw p} (hw : ∀ u ∈ before, u.Walked convert) (ha : v.left.answer = .ok raw)
      (hc : convert raw = .error p) : Concludes convert positions (before ++ [v]) (.error p)
  /-- Every position was called, and the last wish to go back decides, if there was one. -/
  | exhausted {visits} (hw : ∀ u ∈ visits, u.Walked convert)
      (hall : visits.map (·.index) = positions) :
      Concludes convert positions visits
        (.ok (match (visits.filterMap (·.wish?)).getLast? with
          | some target => .resumeAt target
          | none => .completed))

/-- **What a pass over `chain` that began with `w` has to be**, given its calls. -/
structure Meets [DecidableEq π] (point : π) (start : Nat) (convert : Converter)
    (call : Nat → φ → ω → Called φ ω) (chain : Chain φ π) (w : ω) (visits : List (Visit φ ω))
    (r : Passed φ π ω) : Prop where
  /-- The calls go to the first of the positions, each called once. -/
  called : visits.map (·.index) <+: chain.positions point start
  threaded : Threaded call w visits r.state
  /-- Each filter was called as the chain had it. -/
  filters : ∀ v ∈ visits, (chain[v.index]?).map (·.filter) = some v.filter
  concludes : Concludes convert (chain.positions point start) visits r.result
  /-- A filter that was called is as its call left it. -/
  changed : ∀ v ∈ visits, (r.chain[v.index]?).map (·.filter) = some v.left.filter
  /-- **Any other filter is left alone.** -/
  untouched : ∀ i, i ∉ visits.map (·.index) → r.chain[i]? = chain[i]?
  points : r.chain.map (·.point) = chain.map (·.point)

namespace Meets

variable [DecidableEq π] {point : π} {start : Nat} {convert : Converter}
  {call : Nat → φ → ω → Called φ ω}
  {chain : Chain φ π} {w : ω} {visits : List (Visit φ ω)} {r : Passed φ π ω}

/-- A pass that is completed called every filter. -/
theorem all_of_completed (h : Meets point start convert call chain w visits r)
    (hr : r.result = .ok .completed) : visits.map (·.index) = chain.positions point start := by
  have hc := h.concludes
  rw [hr] at hc
  generalize hout : (Except.ok Outcome.completed : Except Panic Outcome) = result at hc
  cases hc with
  | exhausted hw hall => exact hall
  | _ => cases hout

/-- A pass calls no filter only where there is none. -/
theorem none_to_call (h : Meets point start convert call chain w visits r) (hv : visits = []) :
    chain.positions point start = [] := by
  have hc := h.concludes
  generalize r.result = result at hc
  cases hc with
  | exhausted hw hall =>
    subst hv
    exact hall.symm
  | _ => cases List.append_ne_nil_of_right_ne_nil _ (List.cons_ne_nil _ _) hv

end Meets

/-- A state that keeps the positions called, latest first, is right about all of the calls. -/
theorem Threaded.observe {call : Nat → φ → ω → Called φ ω} {P : ω → Prop} (seen : ω → List Nat)
    (hcall : ∀ i f w, P w → P (call i f w).state)
    (hseen : ∀ i f w, P w → seen (call i f w).state = i :: seen w) {visits : List (Visit φ ω)} :
    ∀ {w w'}, Threaded call w visits w' → P w → seen w' = (visits.map (·.index)).reverse
      ++ seen w := by
  induction visits with
  | nil =>
    rintro w w' rfl hw
    rfl
  | cons v visits ih =>
    rintro w w' ⟨-, hleft, hrest⟩ hw
    rw [hleft] at hrest
    rw [ih hrest (hcall _ _ _ hw), hseen _ _ _ hw, List.map_cons, List.reverse_cons,
      List.append_assoc]
    rfl

section

variable {call : Nat → φ → ω → Called φ ω} {before later : List (Visit φ ω)} {v : Visit φ ω}
  {P : ω → Prop}

/-- What each call keeps, they all keep. -/
theorem Threaded.keeps (hcall : ∀ i f w, P w → P (call i f w).state) {visits : List (Visit φ ω)} :
    ∀ {w w'}, Threaded call w visits w' → P w → P w' := by
  induction visits with
  | nil =>
    rintro w w' rfl hw
    exact hw
  | cons v visits ih =>
    rintro w w' ⟨-, hleft, hrest⟩ hw
    rw [hleft] at hrest
    exact ih hrest (hcall _ _ _ hw)

/-- Behind a call the pass goes on from what the call left. -/
theorem Threaded.behind : ∀ {w w'}, Threaded call w (before ++ v :: later) w' →
    Threaded call v.left.state later w' := by
  induction before with
  | nil => exact fun h => h.2.2
  | cons u before ih => exact fun h => ih h.2.2

theorem Threaded.left_eq : ∀ {w w'}, Threaded call w (before ++ v :: later) w' →
    v.left = call v.index v.filter v.state := by
  induction before with
  | nil =>
    rintro w w' ⟨rfl, hleft, -⟩
    exact hleft
  | cons u before ih => exact fun h => ih h.2.2

/-- What each call keeps holds where a filter is called, and of what its call left. -/
theorem Threaded.reaches (hcall : ∀ i f w, P w → P (call i f w).state) :
    ∀ {w w'}, Threaded call w (before ++ v :: later) w' → P w → P v.state ∧ P v.left.state := by
  induction before with
  | nil =>
    rintro w w' ⟨rfl, hleft, -⟩ hw
    exact ⟨hw, hleft ▸ hcall _ _ _ hw⟩
  | cons u before ih =>
    rintro w w' ⟨-, hleft, hrest⟩ hw
    rw [hleft] at hrest
    exact ih hrest (hcall _ _ _ hw)

end

/-! ## Every pass meets it -/

/-- Behind the first position, a position is the next one of the rest. -/
theorem getElem?_later (e : Entry φ π) (rest : Chain φ π) {index i : Nat} (hi : index + 1 ≤ i) :
    (e :: rest)[i - index]? = rest[i - (index + 1)]? := by
  rw [show i - index = i - (index + 1) + 1 by omega, List.getElem?_cons_succ]

section

variable [DecidableEq π] {point : π} {start : Nat} {convert : Converter}
  {call : Nat → φ → ω → Called φ ω}

theorem positionsFrom_cons (index : Nat) (e : Entry φ π) (rest : Chain φ π) :
    positionsFrom point start index (e :: rest) = if start ≤ index ∧ e.point = point
      then index :: positionsFrom point start (index + 1) rest else positionsFrom point start
        (index + 1) rest := by
  unfold positionsFrom
  rw [List.zipIdx_cons, List.filter_cons]
  split <;> simp_all

/-- An answer that halts the pass decides what it comes to. -/
theorem concludes_of_halts {positions : List Nat} {before : List (Visit φ ω)} {v : Visit φ ω}
    {result : Except Panic Outcome} (hw : ∀ u ∈ before, u.Walked convert)
    (hh : halts convert v.index v.left.answer = some result) :
    Concludes convert positions (before ++ [v]) result := by
  cases ha : v.left.answer with
  | error p =>
    rw [ha] at hh
    obtain rfl := Option.some.inj hh
    exact .panic hw ha
  | ok raw =>
    rw [ha, halts] at hh
    cases hc : convert raw with
    | error p =>
      rw [hc] at hh
      obtain rfl := Option.some.inj hh
      exact .escape hw ha hc
    | ok verdict =>
      rw [hc] at hh
      cases verdict with
      | proceed => cases hh
      | stop =>
        obtain rfl := Option.some.inj hh
        exact .stop hw ha hc
      | terminate =>
        obtain rfl := Option.some.inj hh
        exact .terminate hw ha hc
      | rematch | rechoose =>
        obtain rfl := Option.some.inj hh
        exact .back hw ha hc rfl

variable (point start convert call) in
/-- What a pass is over the part of a chain from position `index` on, given its calls and the target
wished for before. -/
structure Runs (wish : Option Phase) (index : Nat) (chain : Chain φ π) (w : ω)
    (visits : List (Visit φ ω)) (r : Passed φ π ω) : Prop where
  called : visits.map (·.index) <+: positionsFrom point start index chain
  threaded : Threaded call w visits r.state
  filters : ∀ v ∈ visits, index ≤ v.index ∧ (chain[v.index - index]?).map (·.filter) = some v.filter
  ended : (∃ before v, visits = before ++ [v] ∧ (∀ u ∈ before, u.Walked convert) ∧
      halts convert v.index v.left.answer = some r.result) ∨
    visits.map (·.index) = positionsFrom point start index chain ∧
      (∀ v ∈ visits, v.Walked convert) ∧
      r.result = .ok (atEnd ((visits.filterMap (·.wish?)).getLast? <|> wish))
  changed : ∀ v ∈ visits, (r.chain[v.index - index]?).map (·.filter) = some v.left.filter
  untouched : ∀ i, index ≤ i → i ∉ visits.map (·.index) → r.chain[i - index]? = chain[i - index]?
  points : r.chain.map (·.point) = chain.map (·.point)

namespace Runs

variable {wish : Option Phase} {index : Nat} {e : Entry φ π} {rest : Chain φ π} {w : ω}
  {visits : List (Visit φ ω)} {r : Passed φ π ω}

theorem nil (wish : Option Phase) (index : Nat) (w : ω) :
    Runs point start convert call wish index [] w [] ⟨.ok (atEnd wish), [], w⟩ where
  called := List.nil_prefix
  threaded := rfl
  filters := List.forall_mem_nil _
  ended := .inr ⟨rfl, List.forall_mem_nil _, rfl⟩
  changed := List.forall_mem_nil _
  untouched _ _ _ := rfl
  points := rfl

/-- A filter of another point, or before the start, is passed over. -/
theorem skip (he : ¬ (start ≤ index ∧ e.point = point))
    (h : Runs point start convert call wish (index + 1) rest w visits r) :
    Runs point start convert call wish index
      (e :: rest) w visits ⟨r.result, e :: r.chain, r.state⟩ where
  called := by rw [positionsFrom_cons, if_neg he]; exact h.called
  threaded := h.threaded
  filters v hv := by
    obtain ⟨hi, hf⟩ := h.filters v hv
    exact ⟨by omega, by rw [getElem?_later e rest hi]; exact hf⟩
  ended := by rw [positionsFrom_cons, if_neg he]; exact h.ended
  changed v hv := by rw [getElem?_later e r.chain (h.filters v hv).1]; exact h.changed v hv
  untouched i hi hn := by
    rcases Nat.eq_or_lt_of_le hi with rfl | hlt
    · simp
    · rw [getElem?_later e r.chain hlt, getElem?_later e rest hlt]
      exact h.untouched i hlt hn
  points := congrArg (e.point :: ·) h.points

/-- The pass halts at a filter. -/
theorem halt (wish : Option Phase) (rest : Chain φ π) (w : ω) {result : Except Panic Outcome}
    (he : start ≤ index ∧ e.point = point)
    (hh : halts convert index (call index e.filter w).answer = some result) :
    Runs point start convert call wish index (e :: rest) w
      [⟨index, e.filter, w, call index e.filter w⟩]
      ⟨result, ⟨(call index e.filter w).filter, e.point⟩ :: rest,
        (call index e.filter w).state⟩ where
  called := by
    rw [positionsFrom_cons, if_pos he]
    exact List.prefix_append [index] _
  threaded := ⟨rfl, rfl, rfl⟩
  filters := by simp
  ended := .inl ⟨[], _, rfl, List.forall_mem_nil _, hh⟩
  changed := by simp
  untouched i hi hn := by
    have hlt : index + 1 ≤ i := Nat.lt_of_le_of_ne hi fun heq => hn (by simp [heq])
    rw [getElem?_later _ rest hlt, getElem?_later _ rest hlt]
  points := rfl

/-- **The pass walks on** behind a filter. -/
theorem walk {raw : Verdict} (he : start ≤ index ∧ e.point = point)
    (ha : (call index e.filter w).answer = .ok raw) (hc : convert raw = .ok .proceed)
    (h : Runs point start convert call (raw.target? <|> wish) (index + 1) rest
      (call index e.filter w).state
      visits r) :
    Runs point start convert call wish index (e :: rest) w
      (⟨index, e.filter, w, call index e.filter w⟩ :: visits)
      ⟨r.result, ⟨(call index e.filter w).filter, e.point⟩ :: r.chain, r.state⟩ where
  called := by
    rw [positionsFrom_cons, if_pos he]
    exact List.prefix_cons_inj index |>.mpr h.called
  threaded := ⟨rfl, rfl, h.threaded⟩
  filters v hv := by
    rcases List.mem_cons.mp hv with rfl | hv
    · simp
    · obtain ⟨hi, hf⟩ := h.filters v hv
      exact ⟨by omega, by rw [getElem?_later e rest hi]; exact hf⟩
  ended := by
    rw [positionsFrom_cons, if_pos he]
    rcases h.ended with ⟨before, v, rfl, hw, hh⟩ | ⟨hall, hw, hresult⟩
    · exact .inl ⟨_ :: before, v, rfl, List.forall_mem_cons.mpr ⟨⟨raw, ha, hc⟩, hw⟩, hh⟩
    · refine .inr ⟨congrArg (index :: ·) hall, List.forall_mem_cons.mpr ⟨⟨raw, ha, hc⟩, hw⟩, ?_⟩
      -- the wish of this call counts unless there is a later one
      have hwish : (⟨index, e.filter, w, call index e.filter w⟩ : Visit φ ω).wish?
        = raw.target? := by
        rw [Visit.wish?, ha]
      rw [hresult, List.filterMap_cons, hwish]
      cases raw.target? with
      | none => simp
      | some q => simp [List.getLast?_cons, Option.orElse_eq_orElse]
  changed v hv := by
    rcases List.mem_cons.mp hv with rfl | hv
    · simp
    · rw [getElem?_later _ r.chain (h.filters v hv).1]
      exact h.changed v hv
  untouched i hi hn := by
    obtain ⟨hne, hn⟩ := not_or.mp (mt List.mem_cons.mpr hn)
    have hlt : index + 1 ≤ i := Nat.lt_of_le_of_ne hi fun heq => hne heq.symm
    rw [getElem?_later _ r.chain hlt, getElem?_later e rest hlt]
    exact h.untouched i hlt hn
  points := congrArg (e.point :: ·) h.points

end Runs

variable (point start convert call)

/-- **The record changes nothing.** -/
theorem passFrom_recording (wish : Option Phase) (index : Nat) (chain : Chain φ π) (w : ω) :
    passFrom point start convert (recording call) wish index chain (w, [])
      = let r := passFrom point start convert call wish index chain w
        ⟨r.result, r.chain,
          (r.state, (visitsFrom point start convert call wish index chain w).reverse)⟩ := by
  have hcall (i : Nat) (f : φ) (v : ω × List (Visit φ ω)) : call i f v.1
      = ⟨(recording call i f v).answer, (recording call i f v).filter,
        (recording call i f v).state.1⟩ := rfl
  have hforget := passFrom_map point start convert Prod.fst hcall wish index chain (w, [])
  dsimp only at hforget ⊢
  rw [hforget, visitsFrom, List.reverse_reverse]

section

variable {point start convert call} {wish : Option Phase} {index : Nat} {e : Entry φ π}
  {rest : Chain φ π} {w : ω}

theorem visitsFrom_skip (he : ¬ (start ≤ index ∧ e.point = point)) :
    visitsFrom point start convert call wish index (e :: rest) w
      = visitsFrom point start convert call wish (index + 1) rest w := by
  rw [visitsFrom, passFrom_skip he, visitsFrom]

theorem visitsFrom_halt (he : start ≤ index ∧ e.point = point) {result : Except Panic Outcome}
    (hh : halts convert index (call index e.filter w).answer = some result) :
    visitsFrom point start convert call wish index (e :: rest) w
      = [⟨index, e.filter, w, call index e.filter w⟩] := by
  have hrecorded : halts convert index (recording call index e.filter (w, [])).answer
    = some result := hh
  rw [visitsFrom, passFrom_halt he hrecorded]
  rfl

theorem visitsFrom_walk (he : start ≤ index ∧ e.point = point) {raw : Verdict}
    (ha : (call index e.filter w).answer = .ok raw) (hc : convert raw = .ok .proceed) :
    visitsFrom point start convert call wish index (e :: rest) w
      = ⟨index, e.filter, w, call index e.filter w⟩ ::
        visitsFrom point start convert call (raw.target? <|> wish) (index + 1) rest
          (call index e.filter w).state := by
  have hrecorded : (recording call index e.filter (w, [])).answer = .ok raw := ha
  rw [visitsFrom, passFrom_walk he hrecorded hc]
  -- what was recorded before stays below
  let below (v : ω × List (Visit φ ω)) : ω × List (Visit φ ω) :=
    (v.1, v.2 ++ [⟨index, e.filter, w, call index e.filter w⟩])
  have hcall (i : Nat) (f : φ) (v : ω × List (Visit φ ω)) : recording call i f (below v)
      = ⟨(recording call i f v).answer, (recording call i f v).filter,
        below (recording call i f v).state⟩ := rfl
  have hbelow := passFrom_map point start convert below hcall (raw.target? <|> wish)
    (index + 1) rest
    ((call index e.filter w).state, [])
  have hreversed := congrArg (fun r => r.state.2.reverse) hbelow
  dsimp only [below] at hreversed
  rw [List.reverse_append] at hreversed
  exact hreversed

end

/-- **The record is right**, from any position on and with any wish before. -/
theorem runs_passFrom : ∀ (wish : Option Phase) (index : Nat) (chain : Chain φ π) (w : ω),
    Runs point start convert call wish index chain w
      (visitsFrom point start convert call wish index chain w)
      (passFrom point start convert call wish index chain w)
  | wish, index, [], w => .nil wish index w
  | wish, index, e :: rest, w => by
    by_cases he : start ≤ index ∧ e.point = point
    case neg =>
      rw [visitsFrom_skip he, passFrom_skip he]
      exact (runs_passFrom wish (index + 1) rest w).skip he
    rcases halts_or_walks convert index (call index e.filter w).answer
      with ⟨result, hh⟩ | ⟨raw, ha, hc⟩
    · rw [visitsFrom_halt he hh, passFrom_halt he hh]
      exact .halt wish rest w he hh
    · rw [visitsFrom_walk he ha hc, passFrom_walk he ha hc]
      exact (runs_passFrom (raw.target? <|> wish) (index + 1) rest
        (call index e.filter w).state).walk he ha hc

/-- **Every pass meets its reference.** -/
theorem meets_pass (chain : Chain φ π) (w : ω) : Meets point start convert call chain w
    (chain.visits point start convert call w) (chain.pass point start convert call w) := by
  have hruns : Runs point start convert call none 0 chain w
    (chain.visits point start convert call w)
    (chain.pass point start convert call w) := runs_passFrom point start convert call none 0 chain w
  exact
    { called := hruns.called
      threaded := hruns.threaded
      filters := fun v hv => (hruns.filters v hv).2
      concludes := by
        rcases hruns.ended with ⟨before, v, hvisits, hw, hh⟩ | ⟨hall, hw, hresult⟩
        · rw [hvisits]
          exact concludes_of_halts hw hh
        · rw [hresult]
          have hend := Concludes.exhausted hw hall
          generalize ((chain.visits point start convert call w).filterMap (·.wish?)).getLast?
            = wish at hend ⊢
          cases wish <;> exact hend
      changed := hruns.changed
      untouched := fun i => hruns.untouched i (Nat.zero_le i)
      points := hruns.points }

/-- **A pass does the same whether or not it is recorded, and meets its reference.** -/
theorem pass_meets_reference (chain : Chain φ π) (w : ω) :
    let r := chain.pass point start convert call w
    let visits := chain.visits point start convert call w
    chain.pass point start convert (recording call) (w, [])
      = ⟨r.result, r.chain, (r.state, visits.reverse)⟩
      ∧ Meets point start convert call chain w visits r :=
  ⟨passFrom_recording point start convert call none 0 chain w,
    meets_pass point start convert call chain w⟩

end

end Chain

end FilterProxy
