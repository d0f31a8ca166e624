import FilterProxy.Headers

/-!
# FilterProxy/Message — requests, responses and what is noted about them

A `Message` has up to three parts; filters work on `Parts`, where absent ones are filled empty.
The status code of a response travels as a header, so it reads back from any message.
-/

namespace FilterProxy

/-- The bytes of a body. -/
abbrev Body := List UInt8

/-- The three parts of a message as a filter sees them: all present. -/
structure Parts where
  headers : Headers := {}
  data : Body := []
  trailers : Headers := {}
  deriving DecidableEq

/-- A request or a response; any part may be absent. -/
structure Message where
  headers : Option Headers := none
  data : Option Body := none
  trailers : Option Headers := none
  deriving DecidableEq

instance : Inhabited Message := ⟨{}⟩

/-- The message in which every part is present. -/
def Parts.message (p : Parts) : Message := ⟨some p.headers, some p.data, some p.trailers⟩

/-- The header that carries the status code of a response. -/
def statusHeader : String := "x-proxy-status"

/-- The number that decimal digits write, most significant first; `none` if one is no digit. -/
def ofDigits? (digits : List Char) : Option Nat :=
  digits.foldl
    (fun n c => n.bind fun n => if c.isDigit then some (10 * n + (c.toNat - '0'.toNat)) else none)
    (some 0)

/-- Read a status code: an optional `+`, then ASCII digits, of a value that sixteen bits hold. -/
def readCode? (text : String) : Option UInt16 :=
  let digits := match text.toList with
    | '+' :: rest => rest
    | chars => chars
  if digits.isEmpty then none
  else (ofDigits? digits).bind fun n => if n < UInt16.size then some n.toUInt16 else none

namespace Message

/-- The parts, absent ones empty. -/
def parts (m : Message) : Parts :=
  ⟨m.headers.getD {}, m.data.getD [], m.trailers.getD {}⟩

/-- The same message with absent parts made empty ones. -/
def filled (m : Message) : Message := m.parts.message

/-- The status code, if the headers carry one that can be read. -/
def code? (m : Message) : Option UInt16 :=
  m.headers.bind fun h => (h.get? statusHeader).bind readCode?

end Message

@[simp] theorem Parts.parts_message (p : Parts) : p.message.parts = p := rfl

/-- What a stream notes about its request. -/
structure Info where
  /-- Name of the route that matched last. -/
  route : Option String := none
  /-- Address of the host chosen last. -/
  host : Option String := none
  /-- Status code of the reply or response. -/
  code : Option UInt16 := none
  deriving DecidableEq, Inhabited

end FilterProxy
