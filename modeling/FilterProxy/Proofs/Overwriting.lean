import Mathlib.Data.List.Induction
import Mathlib.Data.List.Sort
import FilterProxy.Proofs.Plan

/-!
# Proofs/Overwriting — headers written over others

A filter may go through its headers **in any order** (`Headers.setAll_perm`), since no two of them
have one name, however that is spelt.  So past the filters of a point a header of the request is
what the **last** of them that has it says (`Plan.get?_dressed`).
-/

namespace FilterProxy

namespace Headers

/-! ## What is stored -/

theorem lookup_store (name value name' : String) (l : List (String × String)) :
    lookup name' (store name value l).2 = if name = name' then some value else lookup name' l := by
  induction l with
  | nil => rfl
  | cons e rest ih =>
    obtain ⟨n, v⟩ := e
    rw [store]
    split
    case isTrue heq => subst heq; simp only [lookup]; split <;> rfl
    case isFalse hne =>
      split
      case isTrue => simp only [lookup]
      case isFalse =>
        simp only [lookup, ih]
        by_cases hn : n = name'
        · rw [if_pos hn, if_pos hn, if_neg fun h => hne (h.trans hn.symm)]
        · rw [if_neg hn, if_neg hn]

/-- In order of name, what is found is what is there. -/
theorem lookup_eq_some_iff {l : List (String × String)} (hl : l.Pairwise (·.1 < ·.1))
    {name value : String} :
    lookup name l = some value ↔ (name, value) ∈ l := by
  induction l with
  | nil => simp [lookup]
  | cons e rest ih =>
    obtain ⟨n, v⟩ := e
    obtain ⟨hbelow, hrest⟩ := List.pairwise_cons.mp hl
    rw [lookup, List.mem_cons, Prod.mk.injEq]
    by_cases hn : n = name
    case pos =>
      subst hn
      have hnot : (n, value) ∉ rest := fun hmem => String.lt_irrefl _ (hbelow (n, value) hmem)
      simp [hnot, eq_comm]
    case neg => rw [if_neg hn, ih hrest, or_iff_right fun h => hn h.1.symm]

theorem get?_set (h : Headers) (name value name' : String) : (h.set name value).get? name'
    = if foldCase name = foldCase name' then some value else h.get? name' := lookup_store ..

theorem mem_toList {h : Headers} {e : String × String} :
    e ∈ h.toList ↔ foldCase e.1 = e.1 ∧ h.get? e.1 = some e.2 := by
  constructor
  · intro he
    have hfolded := h.folded e he
    refine ⟨hfolded, ?_⟩
    rw [get?, hfolded]
    exact (lookup_eq_some_iff h.ordered).mpr he
  · rintro ⟨hfolded, he⟩
    rwa [get?, hfolded, lookup_eq_some_iff h.ordered] at he

/-- **Two maps are the same** if the same is found in both. -/
theorem ext_get? {h h' : Headers} (heq : ∀ name, h.get? name = h'.get? name) : h = h' := by
  have hmem : ∀ e, e ∈ h.entries ↔ e ∈ h'.entries := fun e =>
    (mem_toList (h := h)).trans
      ((and_congr_right_iff.mpr fun _ => by rw [heq]).trans (mem_toList (h := h')).symm)
  have hentries : h.entries = h'.entries := h.ordered.eq_of_mem_iff h'.ordered hmem
  cases h
  cases h'
  cases hentries
  rfl

/-! ## Many at once -/

variable {pairs : List (String × String)} {name : String}

/-- What is not among many headers stays as it is… -/
theorem get?_setAll_of_not_mem (hn : ∀ p ∈ pairs, foldCase p.1 ≠ foldCase name) (h : Headers) :
    (h.setAll pairs).get? name = h.get? name := by
  induction pairs generalizing h with
  | nil => rfl
  | cons p rest ih =>
    obtain ⟨hp, hrest⟩ := List.forall_mem_cons.mp hn
    exact (ih hrest _).trans ((get?_set ..).trans (if_neg hp))

/-- …and what is among them is set, if no two of them have one name. -/
theorem get?_setAll_of_mem (hd : pairs.Pairwise fun a b => foldCase a.1 ≠ foldCase b.1)
    {p : String × String} (hp : p ∈ pairs) (hn : foldCase p.1 = foldCase name) (h : Headers) :
    (h.setAll pairs).get? name = some p.2 := by
  induction pairs generalizing h with
  | nil => cases hp
  | cons q rest ih =>
    obtain ⟨hq, hrest⟩ := List.pairwise_cons.mp hd
    rcases List.mem_cons.mp hp with rfl | hp
    · exact (get?_setAll_of_not_mem (fun r hr heq => hq r hr (hn.trans heq.symm)) _).trans
        ((get?_set ..).trans (if_pos hn))
    · exact ih hrest hp _

/-- No two headers of a map have one name. -/
theorem pairwise_toList (h : Headers) :
    h.toList.Pairwise fun a b => foldCase a.1 ≠ foldCase b.1 := by
  refine h.ordered.imp_of_mem fun {a b} ha hb hlt heq => ?_
  rw [h.folded a ha, h.folded b hb] at heq
  rw [heq] at hlt
  exact String.lt_irrefl _ hlt

/-- **The order in which a map is gone through does not matter.** -/
theorem get?_setAll_perm {h other : Headers} (hp : pairs.Perm other.toList) (name : String) :
    (h.setAll pairs).get? name = (other.get? name).or (h.get? name) := by
  have hd : pairs.Pairwise fun a b => foldCase a.1 ≠ foldCase b.1 :=
    (hp.pairwise_iff fun hne heq => hne heq.symm).mpr other.pairwise_toList
  cases hget : other.get? name with
  | some value =>
    have hmem : (foldCase name, value) ∈ other.toList := (lookup_eq_some_iff other.ordered).mp hget
    exact get?_setAll_of_mem hd (hp.mem_iff.mpr hmem) (foldCase_foldCase name) h
  | none =>
    refine get?_setAll_of_not_mem (fun p hp' heq => ?_) h
    obtain ⟨hfolded, hfound⟩ := mem_toList.mp (hp.mem_iff.mp hp')
    rw [get?, heq, ← get?, hget] at hfound
    cases hfound

/-- **A header is what the map written over says**, and where it says nothing what was there. -/
theorem get?_overwrite (h other : Headers) (name : String) :
    (h.overwrite other).get? name = (other.get? name).or (h.get? name) :=
      get?_setAll_perm (.refl _) name

/-- A filter may go through its headers in any order. -/
theorem setAll_perm {h other : Headers} (hp : pairs.Perm other.toList) :
    h.setAll pairs = h.overwrite other :=
  ext_get? fun name => (get?_setAll_perm hp name).trans (get?_overwrite h other name).symm

end Headers

/-! ## Past the filters -/

/-- **The last map that has a header decides it.** -/
theorem Parts.get?_dress (p : Parts) (maps : List Headers) (name : String) :
    (p.dress maps).headers.get? name = (maps.reverse.findSome? (·.get? name)).or
    (p.headers.get? name) := by
  induction maps using List.reverseRecOn with
  | nil => rfl
  | append_singleton maps last ih =>
    have hlast : (p.dress (maps ++ [last])).headers = (p.dress maps).headers.overwrite last := by
      simp [dress]
    rw [hlast, Headers.get?_overwrite, ih, List.reverse_append, List.reverse_singleton,
      List.singleton_append, List.findSome?_cons]
    cases last.get? name <;> rfl

/-- **A header past the filters of a point**: the last of them that has it decides. -/
theorem Plan.get?_dressed (plan : Plan) (point : RequestPoint) (m : Message) (name : String) :
    (plan.dressed point m).parts.headers.get? name
      = ((requestMaps (plan.bound point)).reverse.findSome? (·.get? name)).or
        (m.parts.headers.get? name) := by
  rw [dressed, Parts.parts_message]
  exact m.parts.get?_dress _ name

end FilterProxy
