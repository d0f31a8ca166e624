import FilterProxy.Config
import FilterProxy.Tree.Decode
import FilterProxy.Toml.Document

/-!
# FilterProxy/Config/Reader — configurations read from trees and from TOML

Trees of JSON and of TOML are read alike but for two things a `Dialect` settles.
-/

namespace FilterProxy

/-- Where the formats of configuration trees differ. -/
structure Dialect where
  /-- What a choice without data may stand for in a map of one member. -/
  isUnit : Tree → Bool
  /-- A record written as a list may have no surplus. -/
  closed : Bool

namespace Dialect

/-- JSON has a null. -/
def json : Dialect where
  isUnit
    | .null => true
    | _ => false
  closed := true

/-- TOML has no null but empty tables and empty lists. -/
def toml : Dialect where
  isUnit
    | .map [] | .list [] => true
    | _ => false
  closed := false

end Dialect

/-- Why no configuration was loaded. -/
inductive LoadError where
  | noFile
  | notText
  | syntaxError
  | unsound (faults : List ConfigFault)
  deriving DecidableEq, Repr

/-- The text of an error; what is wrong with the syntax is not told. -/
def LoadError.message : LoadError → String
  | noFile => "IO error: No such file or directory (os error 2)"
  | notText => "IO error: stream did not contain valid UTF-8"
  | syntaxError => "Parse error"
  | unsound faults => "Validation failed: " ++ ", ".intercalate (faults.map ConfigFault.message)

namespace Config

variable (d : Dialect)

/-- Finish a record whose list may have a surplus in some dialects. -/
def close (f : Fields) (k : RecordKind) : Except Mismatch Unit :=
  if d.closed then f.close k else .ok ()

/-- A point of the request's path, or none: its label, or a map from its label to nothing. -/
def readPoint : Tree → Except Mismatch (Option RequestPoint)
  | .null => .ok none
  | .text label => named label
  | .map [(label, t)] =>
    if d.isUnit t then named label else t.mismatch "nothing"
  | t => t.mismatch "a filter phase"
where
  /-- The point of a label. -/
  named (label : String) : Except Mismatch (Option RequestPoint) :=
    match RequestPoint.ofLabel? label with
    | some p => .ok (some p)
    | none => .error (.invalidValue (Tree.text label).describe "a filter phase")

/-- A configured filter.  Its own configuration is kept as JSON would hold it. -/
def readFilter (t : Tree) : Except Mismatch FilterConfig := do
  let k : RecordKind := ⟨"filter", 3⟩
  let f ← k.fields t
  let name ← f.required k 0 "name" Tree.asText
  let point ← f.optional 1 "phase" none (readPoint d)
  let config ← f.optional 2 "config" Tree.null (fun t => .ok t.finite)
  close d f k
  return { name, point, config }

/-- The one field of a record that has a default. -/
def readSingle {α : Type} (record field : String) (default : α)
    (decode : Tree → Except Mismatch α) (t : Tree) : Except Mismatch α := do
  let k : RecordKind := ⟨record, 1⟩
  let f ← k.fields t
  let value ← f.optional 0 field default decode
  close d f k
  return value

/-- A configuration; what is not written keeps its default. -/
def read (t : Tree) : Except Mismatch Config := do
  let k : RecordKind := ⟨"proxy", 5⟩
  let f ← k.fields t
  let standard : Config := {}
  let name ← f.optional 0 "name" standard.name Tree.asText
  let filters ← f.optional 1 "stream_filters" standard.filters fun t => do
    (← t.asList).mapM (readFilter d)
  let stopTimeoutMs ← f.optional 2 "timeouts" standard.stopTimeoutMs <|
    readSingle d "timeouts" "stop_timeout_ms" standard.stopTimeoutMs fun t =>
      (t.asNat 64).map Nat.toUInt64
  let maxJumps ← f.optional 3 "limits" standard.maxJumps <|
    readSingle d "limits" "max_phase_reentries" standard.maxJumps fun t =>
      (t.asNat 32).map Nat.toUInt32
  let metrics ← f.optional 4 "observability" standard.metrics <|
    readSingle d "observability" "metrics_enabled" standard.metrics Tree.asBool
  close d f k
  return { name, filters, stopTimeoutMs, maxJumps, metrics }

/-- A configuration without faults. -/
def check (c : Config) : Except LoadError Config :=
  match c.faults with
  | [] => .ok c
  | faults => .error (.unsound faults)

/-- The sound configuration a tree of JSON holds. -/
def ofJson (t : Tree) : Except LoadError Config :=
  match read .json t with
  | .error _ => .error .syntaxError
  | .ok c => c.check

/-- **The sound configuration a TOML text holds.** -/
def ofToml (text : String) : Except LoadError Config :=
  match Toml.parse? text with
  | none => .error .syntaxError
  | some t =>
    match read .toml t with
    | .error _ => .error .syntaxError
    | .ok c => c.check

/-- The sound configuration in a file; `none` is a file that does not exist. -/
def ofFile : Option ByteArray → Except LoadError Config
  | none => .error .noFile
  | some bytes =>
    match String.fromUTF8? bytes with
    | none => .error .notText
    | some text => ofToml text

end Config

end FilterProxy
