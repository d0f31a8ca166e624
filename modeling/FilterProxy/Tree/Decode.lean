import FilterProxy.Tree
import FilterProxy.Text.Quoted

/-!
# FilterProxy/Tree/Decode — trees turned into typed values, with the first mismatch named

A **record** may be written as a map, whose unknown members do not matter, or as the list of its
fields in order, from which fields with a default may be missing at the end.
-/

namespace FilterProxy

/-- Why a tree is not what was expected. -/
inductive Mismatch where
  | missingField (name : String)
  /-- Another kind of data. -/
  | invalidType (found expected : String)
  /-- The right kind of data out of range. -/
  | invalidValue (found expected : String)
  | invalidLength (length : Nat) (expected : String)
  deriving DecidableEq, Repr

namespace Mismatch

/-- The text of a mismatch. -/
def message : Mismatch → String
  | missingField name => s!"missing field `{name}`"
  | invalidType found expected => s!"invalid type: {found}, expected {expected}"
  | invalidValue found expected => s!"invalid value: {found}, expected {expected}"
  | invalidLength length expected => s!"invalid length {length}, expected {expected}"

end Mismatch

namespace Tree

/-- What a tree is called in a mismatch. -/
def describe : Tree → String
  | null => "null"
  | bool value => s!"boolean `{value}`"
  | int value => s!"integer `{value}`"
  | float value => s!"floating point `{value.text}`"
  | text value => s!"string {Text.quote value}"
  | list _ => "sequence"
  | map _ => "map"

/-- The tree is not of the expected kind. -/
def mismatch {α : Type} (t : Tree) (expected : String) : Except Mismatch α :=
  .error (.invalidType t.describe expected)

/-- A text. -/
def asText : Tree → Except Mismatch String
  | text s => .ok s
  | t => t.mismatch "a string"

/-- A truth value. -/
def asBool : Tree → Except Mismatch Bool
  | bool b => .ok b
  | t => t.mismatch "a boolean"

/-- A whole number from zero to below `2 ^ bits`. -/
def asNat (bits : Nat) : Tree → Except Mismatch Nat
  | int n =>
    if 0 ≤ n ∧ n.toNat < 1 <<< bits then .ok n.toNat
    else .error (.invalidValue (int n).describe s!"u{bits}")
  | t => t.mismatch s!"u{bits}"

/-- A list. -/
def asList : Tree → Except Mismatch (List Tree)
  | list items => .ok items
  | t => t.mismatch "a sequence"

/-- A map from names to texts. -/
def asTexts : Tree → Except Mismatch (List (String × String))
  | map entries => entries.mapM fun (name, t) => t.asText.map (name, ·)
  | t => t.mismatch "a map"

end Tree

/-- The fields of a record as they are written. -/
inductive Fields where
  /-- Under their names. -/
  | named (entries : List (String × Tree))
  /-- In their order. -/
  | ordered (items : List Tree)

/-- The kind of a record: what mismatches call it, and how many fields it has. -/
structure RecordKind where
  name : String
  size : Nat

namespace RecordKind

/-- The record's name and size, as lists that are too short are told. -/
def withSize (k : RecordKind) : String :=
  let plural := if k.size = 1 then "" else "s"
  s!"struct {k.name} with {k.size} element{plural}"

/-- The fields of a tree that is to be a record of this kind. -/
def fields (k : RecordKind) : Tree → Except Mismatch Fields
  | .map entries => .ok (.named entries)
  | .list items => .ok (.ordered items)
  | t => t.mismatch s!"struct {k.name}"

end RecordKind

namespace Fields

variable {α : Type}

/-- The field of a name and a position. -/
def get? (f : Fields) (index : Nat) (name : String) : Option Tree :=
  match f with
  | named entries => entries.lookup name
  | ordered items => items[index]?

/-- The field, or the default. -/
def optional (f : Fields) (index : Nat) (name : String) (default : α)
    (decode : Tree → Except Mismatch α) : Except Mismatch α :=
  match f.get? index name with
  | some t => decode t
  | none => .ok default

/-- The field, which has to be there. -/
def required (f : Fields) (k : RecordKind) (index : Nat) (name : String)
    (decode : Tree → Except Mismatch α) : Except Mismatch α :=
  match f.get? index name with
  | some t => decode t
  | none =>
    match f with
    | named _ => .error (.missingField name)
    | ordered _ => .error (.invalidLength index k.withSize)

/-- No more fields are written than the record has. -/
def close (f : Fields) (k : RecordKind) : Except Mismatch Unit :=
  match f with
  | ordered items =>
    if k.size < items.length then
      .error (.invalidLength items.length "fewer elements in array")
    else .ok ()
  | named _ => .ok ()

end Fields

end FilterProxy
