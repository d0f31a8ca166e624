import FilterProxy.Tree

/-!
# FilterProxy/Toml/Table — what may be defined where

A table comes about in one of three ways: by its own header or braces, by a **dotted** key through
it, or *implicitly*, by the header of a table below it.  Only the last may still get a header, only
the last two may get more dotted keys, and nothing is ever defined twice.
-/

namespace FilterProxy.Toml

/-- How a table came about. -/
inductive Origin where
  /-- By its own header or its braces. -/
  | explicit
  /-- By the header of a table below it. -/
  | implicit
  /-- By a dotted key through it. -/
  | dotted
  deriving DecidableEq, Repr

mutual
/-- What stands under a key. -/
inductive Node where
  /-- A value, which nothing can be added to. -/
  | leaf (value : Tree)
  | table (table : Table)
  /-- Tables under one header in double brackets, latest first. -/
  | tables (tables : List Table)

/-- A table under construction. -/
inductive Table where
  | mk (origin : Origin) (entries : List (String × Node))
end

namespace Table

/-- How the table came about. -/
def origin : Table → Origin
  | mk o _ => o

/-- What stands in the table. -/
def entries : Table → List (String × Node)
  | mk _ e => e

/-- A table without entries. -/
def fresh (origin : Origin) : Table := mk origin []

/-- What stands under a key. -/
def find? (t : Table) (key : String) : Option Node := t.entries.lookup key

/-- Put a node under a key, in place of any other. -/
def put (t : Table) (key : String) (node : Node) : Table :=
  mk t.origin (t.entries.filter (·.1 ≠ key) ++ [(key, node)])

/-- The same table, now with a header of its own. -/
def headed (t : Table) : Table := mk .explicit t.entries

/-- Change the table a path leads to, making those on the way that are missing.  A path of a dotted
key does not go through tables defined by header or braces; any path goes to the latest of several
tables. -/
def along (made : Origin) (change : Table → Option Table) : List String → Table → Option Table
  | [], t => change t
  | key :: path, t =>
    match t.find? key with
    | none => (along made change path (fresh made)).map fun below => t.put key (.table below)
    | some (.leaf _) => none
    | some (.table below) =>
      if made = .dotted ∧ below.origin = .explicit then none
      else (along made change path below).map fun below => t.put key (.table below)
    | some (.tables []) => none
    | some (.tables (last :: before)) =>
      (along made change path last).map fun last => t.put key (.tables (last :: before))

/-- Put a value under a new key. -/
def define (t : Table) (key : String) (value : Tree) : Option Table :=
  match t.find? key with
  | none => some (t.put key (.leaf value))
  | some _ => none

/-- Put a value under a dotted key.  The table it ends in has to be of dotted keys itself. -/
def assign (t : Table) (path : List String) (key : String) (value : Tree) : Option Table :=
  match path with
  | [] => t.define key value
  | _ => t.along .dotted (fun t => if t.origin = .dotted then t.define key value else none) path

/-- Add a table under a header in single brackets, on top of what its subtables made of it. -/
def addTable (t : Table) (path : List String) (key : String) (body : Table → Option Table) :
    Option Table :=
  t.along .implicit
    (fun parent =>
      match parent.find? key with
      | none => (body (fresh .explicit)).map fun b => parent.put key (.table b)
      | some (.table below) =>
        if below.origin = .implicit then
          (body below.headed).map fun b => parent.put key (.table b)
        else none
      | some _ => none)
    path

/-- Add one more table under a header in double brackets. -/
def addToTables (t : Table) (path : List String) (key : String) (body : Table → Option Table) :
    Option Table :=
  t.along .implicit
    (fun parent =>
      match parent.find? key with
      | none => (body (fresh .explicit)).map fun b => parent.put key (.tables [b])
      | some (.tables before) =>
        (body (fresh .explicit)).map fun b => parent.put key (.tables (b :: before))
      | some _ => none)
    path

end Table

mutual
/-- The tree of a node. -/
def Node.tree : Node → Tree
  | .leaf value => value
  | .table t => t.tree
  | .tables ts => .list (Table.trees ts).reverse

/-- The tree of a table. -/
def Table.tree : Table → Tree
  | .mk _ entries => .map (Tree.sortEntries (Table.treeEntries entries))

/-- The trees of tables. -/
def Table.trees : List Table → List Tree
  | [] => []
  | t :: rest => t.tree :: Table.trees rest

/-- The trees of entries, under their keys. -/
def Table.treeEntries : List (String × Node) → List (String × Tree)
  | [] => []
  | (key, node) :: rest => (key, node.tree) :: Table.treeEntries rest
end

end FilterProxy.Toml
