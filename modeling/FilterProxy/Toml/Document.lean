import FilterProxy.Toml.Number
import FilterProxy.Toml.Table

/-!
# FilterProxy/Toml/Document — TOML 1.0 read into a tree

A document is a sequence of lines: assignments, each to a key of the table whose header came last,
and headers.  Reading fails at the first syntax error and at the first second definition.
-/

namespace FilterProxy.Toml

/-! ## Values -/

/-- A literal of letters. -/
def word (cs : List Char) : Option (Tree × List Char) :=
  match cs with
  | 't' :: 'r' :: 'u' :: 'e' :: rest => some (.bool true, rest)
  | 'f' :: 'a' :: 'l' :: 's' :: 'e' :: rest => some (.bool false, rest)
  | _ => special cs

mutual
/-- A value; `depth` counts the brackets around it. -/
def value (depth : Nat) : Nat → List Char → Option (Tree × List Char)
  | 0, _ => none
  | fuel + 1, cs =>
    match cs with
    | [] => none
    | c :: rest =>
      if c = '"' ∨ c = '\'' then (string cs).map fun (s, rest) => (.text s, rest)
      else if c = '[' then
        if depth + 1 < depthLimit then
          match skipLines rest.length rest with
          | ']' :: rest => some (.list [], rest)
          | rest => (items (depth + 1) fuel [] rest).map fun (l, rest) => (.list l, rest)
        else none
      else if c = '{' then
        if depth + 1 < depthLimit then
          match skip rest with
          | '}' :: rest => some (.map [], rest)
          | rest => (pairs (depth + 1) fuel (.fresh .explicit) rest).map fun (t, rest) =>
            (t.tree, rest)
        else none
      else if c = '+' ∨ c = '-' ∨ c.isDigit then scalar cs
      else word cs

/-- The items of a list up to its closing bracket, which a comma may precede. -/
def items (depth : Nat) : Nat → List Tree → List Char → Option (List Tree × List Char)
  | 0, _, _ => none
  | fuel + 1, found, cs =>
    match value depth fuel (skipLines cs.length cs) with
    | none => none
    | some (t, rest) =>
      match skipLines rest.length rest with
      | ',' :: rest =>
        match skipLines rest.length rest with
        | ']' :: rest => some ((t :: found).reverse, rest)
        | rest => items depth fuel (t :: found) rest
      | ']' :: rest => some ((t :: found).reverse, rest)
      | _ => none

/-- The assignments of a table in braces up to its closing brace, all on one line. -/
def pairs (depth : Nat) : Nat → Table → List Char → Option (Table × List Char)
  | 0, _, _ => none
  | fuel + 1, table, cs =>
    match key cs with
    | some ((path, last), '=' :: rest) =>
      match value depth fuel (skip rest) with
      | none => none
      | some (t, rest) =>
        match table.assign path last t with
        | none => none
        | some table =>
          match skip rest with
          | ',' :: rest => pairs depth fuel table rest
          | '}' :: rest => some (table, rest)
          | _ => none
    | _ => none
end

/-! ## Lines -/

/-- Something a document says. -/
inductive Line where
  | assign (path : List String) (key : String) (value : Tree)
  /-- A header in single brackets. -/
  | table (path : List String) (key : String)
  /-- A header in double brackets. -/
  | tables (path : List String) (key : String)

/-- A header behind its opening bracket or brackets. -/
def header (several : Bool) (cs : List Char) : Option (Line × List Char) := do
  let ((path, last), rest) ← key cs
  if several then
    match rest with
    | ']' :: ']' :: rest => some (.tables path last, rest)
    | _ => none
  else
    match rest with
    | ']' :: rest => some (.table path last, rest)
    | _ => none

/-- An assignment. -/
def assignment (cs : List Char) : Option (Line × List Char) :=
  match key cs with
  | some ((path, last), '=' :: rest) =>
    (value 0 (rest.length + 1) (skip rest)).map fun (t, rest) => (.assign path last t, rest)
  | _ => none

/-- What stands on a line that is not empty. -/
def line (cs : List Char) : Option (Line × List Char) :=
  match cs with
  | '[' :: '[' :: rest => header true rest
  | '[' :: rest => header false rest
  | _ => assignment cs

/-- The lines of a text; `found` holds those before, reversed. -/
def lines : Nat → List Line → List Char → Option (List Line)
  | 0, _, _ => none
  | fuel + 1, found, cs =>
    match skip cs with
    | [] => some found.reverse
    | cs =>
      match lineEnd? cs with
      | some rest => lines fuel found rest
      | none =>
        match line cs with
        | none => none
        | some (l, rest) =>
          match lineEnd? rest with
          | some rest => lines fuel (l :: found) rest
          | none => none

/-! ## Meaning -/

/-- Carry out the assignments of a table. -/
def assignAll (body : List (List String × String × Tree)) (t : Table) : Option Table :=
  body.foldlM (fun t a => t.assign a.1 a.2.1 a.2.2) t

/-- Lines up to the next header: its assignments, and the lines from the header on. -/
def body : List Line → List (List String × String × Tree) × List Line
  | .assign path key value :: rest =>
    let r := body rest
    ((path, key, value) :: r.1, r.2)
  | rest => ([], rest)

/-- Carry out headers with the assignments below them. -/
def build : Nat → List Line → Table → Option Table
  | 0, _, _ => none
  | _ + 1, [], t => some t
  | fuel + 1, l :: rest, t =>
    let r := body rest
    match l with
    | .table path key => (t.addTable path key (assignAll r.1)).bind (build fuel r.2)
    | .tables path key => (t.addToTables path key (assignAll r.1)).bind (build fuel r.2)
    | .assign path key value => (t.assign path key value).bind (build fuel rest)

/-- **Read a document.**  A byte order mark in front is passed over. -/
def parse? (text : String) : Option Tree :=
  let cs := match text.toList with
    | '\uFEFF' :: rest => rest
    | cs => cs
  match lines (cs.length + 1) [] cs with
  | none => none
  | some ls => (build (ls.length + 1) ls (.fresh .explicit)).map Table.tree

end FilterProxy.Toml
