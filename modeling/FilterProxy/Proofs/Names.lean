import Mathlib.Data.List.Forall2
import Mathlib.Data.Set.Card
import FilterProxy.Proofs.Overwriting

/-!
# Proofs/Names — a header map is a finite map of names up to case

Names are the same if they are **letter by letter** the same up to ASCII case; the spelling under
which a map keeps a name only represents that class (`foldCase_eq_iff`).  Whatever is done to a map
comes down to puts, drops and resets, and what is then found under a name is **the last put that
nothing later touches** (`Headers.get?_edited`).  With it come the size, the values handed back, and
when two maps are equal (`Headers.finite_map`).
-/

namespace FilterProxy

/-! ## Names up to case -/

/-- An ASCII capital and its small letter. -/
def Capital (c d : Char) : Prop := 65 ≤ c.toNat ∧ c.toNat ≤ 90 ∧ d.toNat = c.toNat + 32

/-- The same letter up to ASCII case. -/
def SameLetter (c d : Char) : Prop := c = d ∨ Capital c d ∨ Capital d c

/-- The same name up to ASCII case. -/
def SameName (n m : String) : Prop := List.Forall₂ SameLetter n.toList m.toList

theorem toNat_toLower (c : Char) :
    c.toLower.toNat = if 65 ≤ c.toNat ∧ c.toNat ≤ 90 then c.toNat + 32 else c.toNat := by
  delta Char.toLower
  split
  case isTrue h =>
    have hc : 65 ≤ c.toNat ∧ c.toNat ≤ 90 := h
    have hsum : (c.val + ('a'.val - 'A'.val)).toNat = (c.toNat + 32) % 2 ^ 32 := UInt32.toNat_add ..
    rw [if_pos hc]
    exact hsum.trans (Nat.mod_eq_of_lt (by omega))
  case isFalse h => exact (if_neg h).symm

theorem toLower_eq_iff {c d : Char} : c.toLower = d.toLower ↔ SameLetter c d := by
  rw [← Char.toNat_inj, toNat_toLower, toNat_toLower, SameLetter, Capital, Capital,
    ← Char.toNat_inj]
  split <;> split <;> omega

/-- **The folded spelling stands for the name up to case.** -/
theorem foldCase_eq_iff {n m : String} : foldCase n = foldCase m ↔ SameName n m := by
  rw [foldCase, foldCase, String.ofList_inj, ← List.forall₂_eq_eq_eq, List.forall₂_map_left_iff,
    List.forall₂_map_right_iff]
  simp only [toLower_eq_iff]
  rfl

/-- Names up to ASCII case. -/
abbrev nameSetoid : Setoid String where
  r := SameName
  iseqv :=
    { refl _ := foldCase_eq_iff.mp rfl
      symm h := foldCase_eq_iff.mp (foldCase_eq_iff.mpr h).symm
      trans h h' := foldCase_eq_iff.mp ((foldCase_eq_iff.mpr h).trans (foldCase_eq_iff.mpr h')) }

namespace Headers

/-! ## One operation -/

theorem lookup_eq_none {name : String} {l : List (String × String)} (hl : ∀ e ∈ l, e.1 ≠ name) :
    lookup name l = none := by
  induction l with
  | nil => rfl
  | cons e rest ih =>
    obtain ⟨hne, hrest⟩ := List.forall_mem_cons.mp hl
    exact (if_neg hne).trans (ih hrest)

theorem store_fst (name value : String) {l : List (String × String)} (hl : l.Pairwise (·.1 < ·.1)) :
    (store name value l).1 = lookup name l := by
  induction l with
  | nil => rfl
  | cons e rest ih =>
    obtain ⟨n, v⟩ := e
    obtain ⟨hbelow, hrest⟩ := List.pairwise_cons.mp hl
    rw [store]
    split
    case isTrue heq => exact (if_pos heq.symm).symm
    case isFalse hne =>
      have hget : lookup name ((n, v) :: rest) = lookup name rest := if_neg fun h => hne h.symm
      rw [hget]
      split
      case isTrue hlt =>
        refine (lookup_eq_none fun e he heq => ?_).symm
        exact String.lt_irrefl _ (String.lt_trans hlt (heq ▸ hbelow e he))
      case isFalse => exact ih hrest

theorem discard_fst (name : String) (l : List (String × String)) :
    (discard name l).1 = lookup name l := by
  induction l with
  | nil => rfl
  | cons e rest ih =>
    obtain ⟨n, v⟩ := e
    rw [discard]
    split
    case isTrue heq => exact (if_pos heq.symm).symm
    case isFalse hne => exact ih.trans (if_neg fun h => hne h.symm).symm

theorem lookup_discard (name name' : String) {l : List (String × String)}
    (hl : l.Pairwise (·.1 < ·.1)) :
    lookup name' (discard name l).2 = if name = name' then none else lookup name' l := by
  induction l with
  | nil => exact (ite_self none).symm
  | cons e rest ih =>
    obtain ⟨n, v⟩ := e
    obtain ⟨hbelow, hrest⟩ := List.pairwise_cons.mp hl
    rw [discard]
    split
    case isTrue heq =>
      subst heq
      split
      case isTrue heq' =>
        subst heq'
        exact lookup_eq_none fun e he h => String.lt_irrefl _ (h ▸ hbelow e he)
      case isFalse hne' => rw [lookup, if_neg hne']
    case isFalse hne =>
      rw [lookup, lookup, ih hrest]
      by_cases hn : n = name'
      · rw [if_pos hn, if_pos hn, if_neg fun h => hne (h.trans hn.symm)]
      · rw [if_neg hn, if_neg hn]

/-- **A set hands back what was found before**… -/
theorem exchange_fst (h : Headers) (name value : String) :
    (h.exchange name value).1 = h.get? name :=
  store_fst _ _ h.ordered

/-- …and so does a remove. -/
theorem remove_fst (h : Headers) (name : String) : (h.remove name).1 = h.get? name := discard_fst ..

theorem get?_erase (h : Headers) (name name' : String) :
    (h.erase name).get? name' = if foldCase name = foldCase name' then none else h.get? name' :=
  lookup_discard _ _ h.ordered

/-- **The size counts the names up to case that are found.** -/
theorem size_eq_ncard (h : Headers) :
    h.size = ((Quotient.mk nameSetoid) '' {name | h.get? name ≠ none}).ncard := by
  classical
  have hnodup : (h.toList.map fun e => Quotient.mk nameSetoid e.1).Nodup :=
    List.pairwise_map.mpr (h.pairwise_toList.imp fun hne heq =>
      hne (foldCase_eq_iff.mpr (Quotient.exact heq)))
  have himage : (Quotient.mk nameSetoid) '' {name | h.get? name ≠ none}
      = (h.toList.map fun e => Quotient.mk nameSetoid e.1).toFinset := by
    ext q
    rw [List.coe_toFinset, Set.mem_ofPred_eq, List.mem_map, Set.mem_image]
    constructor
    · rintro ⟨name, hname, rfl⟩
      obtain ⟨value, hvalue⟩ := Option.ne_none_iff_exists'.mp hname
      refine ⟨(foldCase name, value), (lookup_eq_some_iff h.ordered).mp hvalue, ?_⟩
      exact Quotient.sound (foldCase_eq_iff.mp (foldCase_foldCase name))
    · rintro ⟨e, he, rfl⟩
      refine ⟨e.1, ?_, rfl⟩
      rw [Set.mem_ofPred_eq, (mem_toList.mp he).2]
      exact Option.some_ne_none _
  rw [himage, Set.ncard_coe_finset, List.toFinset_card_of_nodup hnodup, List.length_map]
  rfl

/-! ## A run of operations -/

/-- What is done to one entry of a map, or to all of them. -/
inductive Edit
  | put (name value : String)
  | drop (name : String)
  | reset

namespace Edit

/-- The map after an edit. -/
def apply (h : Headers) : Edit → Headers
  | put name value => h.set name value
  | drop name => h.erase name
  | reset => empty

/-- What is found under `name` hangs on the edit. -/
def Touches (name : String) : Edit → Prop
  | put n _ => SameName n name
  | drop n => SameName n name
  | reset => True

theorem get?_apply_of_not_touches {e : Edit} {name : String} (hn : ¬ e.Touches name) (h : Headers) :
    (e.apply h).get? name = h.get? name := by
  cases e with
  | put n v => exact (get?_set ..).trans (if_neg fun heq => hn (foldCase_eq_iff.mp heq))
  | drop n => exact (get?_erase ..).trans (if_neg fun heq => hn (foldCase_eq_iff.mp heq))
  | reset => exact (hn trivial).elim

/-- An edit that touches a name leaves what it puts there. -/
theorem get?_apply_of_touches {e : Edit} {name : String} (ht : e.Touches name) (h : Headers)
    {value : String} :
    (e.apply h).get? name = some value ↔ ∃ n, e = put n value := by
  cases e with
  | put n v =>
    have hget : (apply h (put n v)).get? name = some v :=
      (get?_set ..).trans (if_pos (foldCase_eq_iff.mpr ht))
    rw [hget]
    exact ⟨fun heq => ⟨n, by rw [Option.some.inj heq]⟩, fun ⟨_, heq⟩ => by cases heq; rfl⟩
  | drop n =>
    have hget : (apply h (drop n)).get? name = none :=
      (get?_erase ..).trans (if_pos (foldCase_eq_iff.mpr ht))
    rw [hget]
    exact ⟨nofun, nofun⟩
  | reset => exact ⟨nofun, nofun⟩

end Edit

/-- The map after some edits. -/
def edited (edits : List Edit) : Headers := edits.foldl Edit.apply empty

theorem edited_concat (edits : List Edit) (e : Edit) :
    edited (edits ++ [e]) = e.apply (edited edits) :=
  List.foldl_concat ..

/-- The last edit that touches `name` puts `value` there. -/
def Holds (edits : List Edit) (name value : String) : Prop := ∃ earlier n later,
  edits = earlier ++ .put n value :: later ∧ SameName n name ∧ ∀ e ∈ later, ¬ e.Touches name

theorem holds_concat_of_touches {edits : List Edit} {e : Edit} {name value : String}
    (ht : e.Touches name) :
    Holds (edits ++ [e]) name value ↔ ∃ n, e = .put n value := by
  constructor
  · rintro ⟨earlier, n, later, heq, -, hlater⟩
    rcases List.eq_nil_or_concat' later with rfl | ⟨later, last, rfl⟩
    case inl => exact ⟨n, List.singleton_inj.mp (List.append_inj_right' heq rfl)⟩
    case inr =>
      have hlast : e = last := by
        rw [← List.cons_append, ← List.append_assoc] at heq
        exact List.singleton_inj.mp (List.append_inj_right' heq rfl)
      exact (hlater last (List.mem_append_right _ List.mem_cons_self) (hlast ▸ ht)).elim
  · rintro ⟨n, rfl⟩
    exact ⟨edits, n, [], rfl, ht, nofun⟩

theorem holds_concat_of_not_touches {edits : List Edit} {e : Edit} {name value : String}
    (hn : ¬ e.Touches name) : Holds (edits ++ [e]) name value ↔ Holds edits name value := by
  constructor
  · rintro ⟨earlier, n, later, heq, hname, hlater⟩
    rcases List.eq_nil_or_concat' later with rfl | ⟨later, last, rfl⟩
    case inl =>
      have hput : e = .put n value := List.singleton_inj.mp (List.append_inj_right' heq rfl)
      subst hput
      exact (hn hname).elim
    case inr =>
      rw [← List.cons_append, ← List.append_assoc] at heq
      exact ⟨earlier, n, later, List.append_inj_left' heq rfl, hname,
        fun e' he' => hlater e' (List.mem_append_left _ he')⟩
  · rintro ⟨earlier, n, later, rfl, hname, hlater⟩
    refine ⟨earlier, n, later ++ [e], by simp, hname, fun e' he' => ?_⟩
    rcases List.mem_append.mp he' with he' | he'
    · exact hlater e' he'
    · exact List.mem_singleton.mp he' ▸ hn

/-- **What is found is the last put that nothing later touches.** -/
theorem get?_edited (edits : List Edit) (name value : String) :
    (edited edits).get? name = some value ↔ Holds edits name value := by
  induction edits using List.reverseRecOn with
  | nil =>
    refine ⟨nofun, fun ⟨earlier, n, later, heq, _⟩ => ?_⟩
    exact absurd heq (List.append_ne_nil_of_right_ne_nil _ (List.cons_ne_nil _ _)).symm
  | append_singleton edits e ih =>
    rw [edited_concat]
    by_cases ht : e.Touches name
    · exact (Edit.get?_apply_of_touches ht _).trans (holds_concat_of_touches ht).symm
    · rw [Edit.get?_apply_of_not_touches ht, ih, holds_concat_of_not_touches ht]

/-- What may be done to a map. -/
inductive Step
  | set (name value : String)
  | remove (name : String)
  /-- It is built anew from pairs. -/
  | collect (pairs : List (String × String))

namespace Step

/-- The map after a step. -/
def next (h : Headers) : Step → Headers
  | set name value => h.set name value
  | remove name => h.erase name
  | collect pairs => ofList pairs

/-- What a step comes down to. -/
def edits : Step → List Edit
  | set name value => [.put name value]
  | remove name => [.drop name]
  | collect pairs => .reset :: pairs.map fun p => .put p.1 p.2

theorem next_eq (h : Headers) (s : Step) : s.next h = s.edits.foldl Edit.apply h := by
  cases s with
  | set => rfl
  | remove => rfl
  | collect pairs => rw [edits, List.foldl_cons, List.foldl_map]; rfl

end Step

/-- The map after some steps. -/
def after (steps : List Step) : Headers := steps.foldl Step.next empty

theorem after_eq_edited (steps : List Step) : after steps = edited (steps.flatMap Step.edits) := by
  rw [edited, List.foldl_flatMap, after]
  exact congrArg (fun f => steps.foldl f empty) (funext₂ Step.next_eq)

/-- **A header map is a finite map of names up to case**, whatever was done to it: no two stored
names are the same, what is found is the last put that nothing later touches, a set and a remove
hand back what was found, the size counts the names found, and two maps are equal exactly if the
same is found in both. -/
theorem finite_map (steps : List Step) :
    ((after steps).toList.Pairwise fun a b => ¬ SameName a.1 b.1)
    ∧ (∀ name value, (after steps).get? name = some value ↔
      Holds (steps.flatMap Step.edits) name value)
    ∧ (∀ name value, ((after steps).exchange name value).1 = (after steps).get? name)
    ∧ (∀ name, ((after steps).remove name).1 = (after steps).get? name)
    ∧ (after steps).size
      = ((Quotient.mk nameSetoid) '' {name | (after steps).get? name ≠ none}).ncard
    ∧ ∀ steps', after steps = after steps' ↔ ∀ name,
      (after steps).get? name = (after steps').get? name := by
  refine ⟨(after steps).pairwise_toList.imp fun hne hsame => hne (foldCase_eq_iff.mpr hsame),
    fun name value => ?_,
    fun name value => exchange_fst .., fun name => remove_fst .., size_eq_ncard _, fun steps' => ?_⟩
  · rw [after_eq_edited]
    exact get?_edited ..
  · exact ⟨fun heq name => by rw [heq], ext_get?⟩

end Headers

end FilterProxy
