import FilterProxy.Binary64

/-!
# FilterProxy/Tree — configuration data of any format

A tree is what a configuration text says, whichever format it was written in.  Whole numbers and
floating-point numbers stay apart, as the formats keep them apart.
-/

namespace FilterProxy

/-- Configuration data. -/
inductive Tree where
  | null
  | bool (value : Bool)
  | int (value : Int)
  | float (value : Binary64)
  | text (value : String)
  | list (items : List Tree)
  | map (entries : List (String × Tree))
  deriving Inhabited, BEq

namespace Tree

/-- Store a value under its name, where the order of names puts it, in place of any other. -/
def store (name : String) (value : Tree) : List (String × Tree) → List (String × Tree)
  | [] => [(name, value)]
  | (n, v) :: rest =>
    if name = n then (name, value) :: rest
    else if name < n then (name, value) :: (n, v) :: rest
    else (n, v) :: store name value rest

/-- Entries by increasing name; of two with one name the later counts. -/
def sortEntries (entries : List (String × Tree)) : List (String × Tree) :=
  entries.foldl (fun l e => store e.1 e.2 l) []

/-- What a map has under a name. -/
def get? (t : Tree) (name : String) : Option Tree :=
  match t with
  | .map entries => entries.lookup name
  | _ => none

/-- The tree without what is no decimal number: infinities and NaNs become `null`. -/
def finite : Tree → Tree
  | .float x => if x.isFinite then .float x else .null
  | .list items => .list (items.attach.map fun ⟨t, _⟩ => t.finite)
  | .map entries => .map (entries.attach.map fun ⟨(n, t), _⟩ => (n, t.finite))
  | t => t
decreasing_by
  all_goals simp_wf
  · rename_i h
    have := List.sizeOf_lt_of_mem h
    omega
  · rename_i h
    have := List.sizeOf_lt_of_mem h
    simp only [Prod.mk.sizeOf_spec] at this
    omega

end Tree

end FilterProxy
