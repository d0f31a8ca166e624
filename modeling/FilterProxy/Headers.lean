/-!
# FilterProxy/Headers — header names are the same up to ASCII case

A header map is kept as its **canonical list**: names in lower case, strictly increasing.  So each
name up to case is stored once, and two maps that answer every `get?` alike are equal on the nose,
whatever order they were built in.
-/

namespace FilterProxy

/-- The spelling under which a name is stored: ASCII letters in lower case, the rest untouched. -/
def foldCase (name : String) : String :=
  String.ofList (name.toList.map Char.toLower)

/-- **Folding twice is folding once.** -/
theorem foldCase_foldCase (name : String) : foldCase (foldCase name) = foldCase name := by
  have lower : ∀ c : Char, c.toLower.toLower = c.toLower := fun c => by
    delta Char.toLower
    split
    · rename_i h
      split
      · rename_i h'
        have hA := h.1
        have hZ := h.2
        simp only [UInt32.le_iff_toNat_le] at hA hZ h'
        simp at hA hZ h'
        omega
      · rfl
    · rfl
  simp [foldCase, Function.comp_def, lower]

/-- A finite map from names to values, as its canonical list. -/
structure Headers where
  /-- The stored pairs. -/
  entries : List (String × String)
  /-- Names increase strictly, so none occurs twice. -/
  ordered : entries.Pairwise (·.1 < ·.1)
  /-- Names are stored folded. -/
  folded : ∀ e ∈ entries, foldCase e.1 = e.1
  deriving DecidableEq

namespace Headers

/-- The map with no header. -/
def empty : Headers := ⟨[], .nil, by simp⟩

instance : Inhabited Headers := ⟨empty⟩
instance : EmptyCollection Headers := ⟨empty⟩

/-! ## Lists of pairs in order of name -/

/-- The value stored under `name`. -/
def lookup (name : String) : List (String × String) → Option String
  | [] => none
  | (n, v) :: rest => if n = name then some v else lookup name rest

/-- Store `value` under `name` where it belongs; also hand back what stood there. -/
def store (name value : String) : List (String × String) → Option String × List (String × String)
  | [] => (none, [(name, value)])
  | (n, v) :: rest =>
    if name = n then (some v, (name, value) :: rest)
    else if name < n then (none, (name, value) :: (n, v) :: rest)
    else ((store name value rest).1, (n, v) :: (store name value rest).2)

/-- Drop what is stored under `name`; also hand it back. -/
def discard (name : String) : List (String × String) → Option String × List (String × String)
  | [] => (none, [])
  | (n, v) :: rest =>
    if name = n then (some v, rest)
    else ((discard name rest).1, (n, v) :: (discard name rest).2)

theorem mem_store {name value : String} {e : String × String} :
    ∀ {l : List (String × String)}, e ∈ (store name value l).2 → e = (name, value) ∨ e ∈ l
  | [], h => by simpa [store] using h
  | (n, v) :: rest, h => by
    simp only [store] at h
    split at h
    · simp only [List.mem_cons] at h ⊢
      exact h.imp_right .inr
    · split at h
      · simpa using h
      · simp only [List.mem_cons] at h ⊢
        rcases h with h | h
        · exact .inr (.inl h)
        · exact (mem_store h).imp_right .inr

theorem ordered_store (name value : String) :
    ∀ {l : List (String × String)}, l.Pairwise (·.1 < ·.1) →
      (store name value l).2.Pairwise (·.1 < ·.1)
  | [], _ => by simp [store]
  | (n, v) :: rest, h => by
    rw [List.pairwise_cons] at h
    simp only [store]
    split
    · rename_i heq
      subst heq
      exact List.pairwise_cons.mpr h
    · split
      · rename_i hlt
        refine List.pairwise_cons.mpr ⟨fun e he => ?_, List.pairwise_cons.mpr h⟩
        rcases List.mem_cons.mp he with rfl | he
        · exact hlt
        · exact String.lt_trans hlt (h.1 e he)
      · rename_i hne hnlt
        refine List.pairwise_cons.mpr ⟨fun e he => ?_, ordered_store name value h.2⟩
        rcases mem_store he with rfl | he
        · exact Decidable.byContradiction fun hge =>
            hne (String.le_antisymm (String.not_lt.mp hge) (String.not_lt.mp hnlt))
        · exact h.1 e he

theorem mem_discard {name : String} {e : String × String} :
    ∀ {l : List (String × String)}, e ∈ (discard name l).2 → e ∈ l
  | [], h => by simp [discard] at h
  | (n, v) :: rest, h => by
    simp only [discard] at h
    split at h
    · exact List.mem_cons_of_mem _ h
    · rcases List.mem_cons.mp h with h | h
      · exact h ▸ List.mem_cons_self
      · exact List.mem_cons_of_mem _ (mem_discard h)

theorem ordered_discard (name : String) :
    ∀ {l : List (String × String)}, l.Pairwise (·.1 < ·.1) →
      (discard name l).2.Pairwise (·.1 < ·.1)
  | [], _ => by simp [discard]
  | (n, v) :: rest, h => by
    rw [List.pairwise_cons] at h
    simp only [discard]
    split
    · exact h.2
    · exact List.pairwise_cons.mpr ⟨fun e he => h.1 e (mem_discard he), ordered_discard name h.2⟩

/-! ## The map -/

/-- The value of header `name`. -/
def get? (h : Headers) (name : String) : Option String :=
  lookup (foldCase name) h.entries

/-- Set header `name` and hand back its previous value. -/
def exchange (h : Headers) (name value : String) : Option String × Headers :=
  let r := store (foldCase name) value h.entries
  (r.1, ⟨r.2, ordered_store _ _ h.ordered, fun e he => by
    rcases mem_store he with rfl | he
    · exact foldCase_foldCase name
    · exact h.folded e he⟩)

/-- Remove header `name` and hand back its value. -/
def remove (h : Headers) (name : String) : Option String × Headers :=
  let r := discard (foldCase name) h.entries
  (r.1, ⟨r.2, ordered_discard _ h.ordered, fun e he => h.folded e (mem_discard he)⟩)

/-- Set header `name`. -/
def set (h : Headers) (name value : String) : Headers := (h.exchange name value).2

/-- The map without header `name`. -/
def erase (h : Headers) (name : String) : Headers := (h.remove name).2

/-- How many headers there are. -/
def size (h : Headers) : Nat := h.entries.length

/-- No header at all. -/
def isEmpty (h : Headers) : Bool := h.entries.isEmpty

/-- Set every pair in order, so of two pairs with one name the later counts. -/
def setAll (h : Headers) (pairs : List (String × String)) : Headers :=
  pairs.foldl (fun h p => h.set p.1 p.2) h

/-- The map a list of pairs describes. -/
def ofList (pairs : List (String × String)) : Headers := empty.setAll pairs

/-- The pairs in order of name. -/
def toList (h : Headers) : List (String × String) := h.entries

/-- Every header of `other` written over `h`. -/
def overwrite (h other : Headers) : Headers := h.setAll other.toList

end Headers

end FilterProxy
