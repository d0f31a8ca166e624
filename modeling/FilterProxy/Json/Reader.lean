import FilterProxy.Tree
import FilterProxy.Message

/-!
# FilterProxy/Json/Reader — JSON read into trees

A reader takes characters off the front of a text and hands the rest back.  A number without point
and exponent is whole, unless it is `-0` or beyond 64 bits; then it is floating-point like the rest.
Floating-point numbers keep as many digits as 64 bits hold and are then scaled, so the last bit may
be off the nearest number.  Of two members with one name the later counts.

Each recursion is on a count of characters that the text cannot outlast.
-/

namespace FilterProxy.Json

/-- Blanks between the signs of the grammar. -/
def isBlank (c : Char) : Bool := c = ' ' || c = '\t' || c = '\n' || c = '\r'

/-- The text without leading blanks. -/
def skip (cs : List Char) : List Char := cs.dropWhile isBlank

/-- The value of a hexadecimal digit. -/
def hexValue? (c : Char) : Option Nat :=
  if '0' ≤ c ∧ c ≤ '9' then some (c.toNat - '0'.toNat)
  else if 'a' ≤ c ∧ c ≤ 'f' then some (c.toNat - 'a'.toNat + 10)
  else if 'A' ≤ c ∧ c ≤ 'F' then some (c.toNat - 'A'.toNat + 10)
  else none

/-- The value of hexadecimal digits, most significant first. -/
def hexNumber? (digits : List Char) : Option Nat :=
  digits.foldl (fun n c => n.bind fun n => (hexValue? c).map (16 * n + ·)) (some 0)

/-- The character of a code point that is one. -/
def scalar? (n : Nat) : Option Char :=
  if n.isValidChar then some (Char.ofNat n) else none

/-! ## Text -/

/-- The character behind `\u`, one code unit or a pair of surrogates. -/
def escapedUnit : List Char → Option (Char × List Char)
  | a :: b :: c :: d :: rest => do
    let high ← hexNumber? [a, b, c, d]
    match rest with
    | '\\' :: 'u' :: e :: f :: g :: h :: rest' =>
      if 0xD800 ≤ high ∧ high < 0xDC00 then
        let low ← hexNumber? [e, f, g, h]
        if 0xDC00 ≤ low ∧ low < 0xE000 then
          let c ← scalar? (0x10000 + (high - 0xD800) * 0x400 + (low - 0xDC00))
          some (c, rest')
        else none
      else (scalar? high).map (·, rest)
    | _ => (scalar? high).map (·, rest)
  | _ => none

/-- The characters of a string up to its closing quote; `found` holds those before, reversed. -/
def stringBody : Nat → List Char → List Char → Option (String × List Char)
  | 0, _, _ => none
  | fuel + 1, found, cs =>
    match cs with
    | '"' :: rest => some (String.ofList found.reverse, rest)
    | '\\' :: e :: rest =>
      match e with
      | '"' | '\\' | '/' => stringBody fuel (e :: found) rest
      | 'b' => stringBody fuel ('\x08' :: found) rest
      | 'f' => stringBody fuel ('\x0c' :: found) rest
      | 'n' => stringBody fuel ('\n' :: found) rest
      | 'r' => stringBody fuel ('\r' :: found) rest
      | 't' => stringBody fuel ('\t' :: found) rest
      | 'u' =>
        match escapedUnit rest with
        | some (c, rest) => stringBody fuel (c :: found) rest
        | none => none
      | _ => none
    | c :: rest => if c.toNat < 0x20 then none else stringBody fuel (c :: found) rest
    | [] => none

/-! ## Numbers -/

/-- The digits in front. -/
def digits (cs : List Char) : List Char × List Char := cs.span Char.isDigit

/-- The exponent in front, zero if there is none; the flag tells whether there is one. -/
def exponent (cs : List Char) : Option (Bool × Int × List Char) :=
  match cs with
  | c :: rest =>
    if c = 'e' ∨ c = 'E' then
      let (negative, rest) := match rest with
        | '-' :: r => (true, r)
        | '+' :: r => (false, r)
        | r => (false, r)
      let (ds, rest) := digits rest
      match ds, ofDigits? ds with
      | _ :: _, some n => some (true, if negative then -(n : Int) else n, rest)
      | _, _ => none
    else some (false, 0, cs)
  | [] => some (false, 0, [])

/-- The fraction in front, empty if there is none. -/
def fraction (cs : List Char) : Option (List Char × List Char) :=
  match cs with
  | '.' :: rest =>
    let (ds, rest) := digits rest
    if ds.isEmpty then none else some (ds, rest)
  | _ => some ([], cs)

/-- A decimal `significand · 10 ^ exponent` whose significand fits 64 bits. -/
structure Decimal where
  significand : Nat
  exponent : Int

namespace Decimal

/-- The significand with one more digit, if 64 bits hold it. -/
def extend? (d : Decimal) (c : Char) : Option Nat :=
  let n := 10 * d.significand + (c.toNat - '0'.toNat)
  if n < UInt64.size then some n else none

/-- Take the digits before the point.  From the first that does not fit they count as zeros. -/
def takeWhole (d : Decimal) : List Char → Decimal
  | [] => d
  | c :: rest =>
    match d.extend? c with
    | some n => takeWhole ⟨n, d.exponent⟩ rest
    | none => ⟨d.significand, d.exponent + (rest.length + 1 : Nat)⟩

/-- Take the digits behind the point.  From the first that does not fit they are dropped. -/
def takeFraction (d : Decimal) : List Char → Decimal
  | [] => d
  | c :: rest =>
    match d.extend? c with
    | some n => takeFraction ⟨n, d.exponent - 1⟩ rest
    | none => d

/-- The decimal of the digits before and behind the point and of the exponent. -/
def ofDigits (whole frac : List Char) (e : Int) : Decimal :=
  let d := (takeWhole ⟨0, 0⟩ whole).takeFraction frac
  ⟨d.significand, d.exponent + e⟩

/-- The floating-point number of a decimal, in two roundings: first the significand, then its
product or quotient with a power of ten.  None if it is beyond all bounds. -/
def toBinary64? (d : Decimal) (negative : Bool) : Option Binary64 :=
  let x := (Binary64.ofNat d.significand).shiftTen d.exponent
  if x.isFinite then some (if negative then x.negate else x) else none

end Decimal

/-- A number without point and exponent: whole if 64 bits hold it. -/
def wholeNumber (negative : Bool) (whole : List Char) : Option Tree := do
  let n ← ofDigits? whole
  if ¬ negative ∧ n < UInt64.size then some (.int n)
  else if negative ∧ 0 < n ∧ n ≤ UInt64.size / 2 then some (.int (-(n : Int)))
  else ((Decimal.ofDigits whole [] 0).toBinary64? negative).map .float

/-- A number behind its sign. -/
def unsignedNumber (negative : Bool) (cs : List Char) : Option (Tree × List Char) := do
  let (whole, rest) := digits cs
  match whole with
  | [] => none
  | '0' :: _ :: _ => none
  | _ =>
    let (frac, rest) ← fraction rest
    let (scaled, e, rest) ← exponent rest
    let t ← if frac.isEmpty ∧ ¬ scaled then wholeNumber negative whole
      else ((Decimal.ofDigits whole frac e).toBinary64? negative).map .float
    some (t, rest)

/-- A number. -/
def number : List Char → Option (Tree × List Char)
  | '-' :: rest => unsignedNumber true rest
  | cs => unsignedNumber false cs

/-! ## Values -/

/-- The value of one of the three literals. -/
def literal (cs : List Char) : Option (Tree × List Char) :=
  match cs with
  | 'n' :: 'u' :: 'l' :: 'l' :: rest => some (.null, rest)
  | 't' :: 'r' :: 'u' :: 'e' :: rest => some (.bool true, rest)
  | 'f' :: 'a' :: 'l' :: 's' :: 'e' :: rest => some (.bool false, rest)
  | _ => none

mutual
/-- A value, blanks in front allowed. -/
def value : Nat → List Char → Option (Tree × List Char)
  | 0, _ => none
  | fuel + 1, cs =>
    match skip cs with
    | '"' :: rest => (stringBody (rest.length + 1) [] rest).map fun (s, rest) => (.text s, rest)
    | '[' :: rest =>
      match skip rest with
      | ']' :: rest => some (.list [], rest)
      | rest => (items fuel [] rest).map fun (l, rest) => (.list l, rest)
    | '{' :: rest =>
      match skip rest with
      | '}' :: rest => some (.map [], rest)
      | rest => (members fuel [] rest).map fun (l, rest) => (.map l, rest)
    | c :: rest => if c = '-' ∨ c.isDigit then number (c :: rest) else literal (c :: rest)
    | [] => none

/-- The items of a list up to its closing bracket. -/
def items : Nat → List Tree → List Char → Option (List Tree × List Char)
  | 0, _, _ => none
  | fuel + 1, found, cs =>
    match value fuel cs with
    | none => none
    | some (t, rest) =>
      match skip rest with
      | ',' :: rest => items fuel (t :: found) rest
      | ']' :: rest => some ((t :: found).reverse, rest)
      | _ => none

/-- The members of a map up to its closing brace. -/
def members : Nat → List (String × Tree) → List Char → Option (List (String × Tree) × List Char)
  | 0, _, _ => none
  | fuel + 1, found, cs =>
    match skip cs with
    | '"' :: rest =>
      match stringBody (rest.length + 1) [] rest with
      | none => none
      | some (name, rest) =>
        match skip rest with
        | ':' :: rest =>
          match value fuel rest with
          | none => none
          | some (t, rest) =>
            match skip rest with
            | ',' :: rest => members fuel ((name, t) :: found) rest
            | '}' :: rest => some (Tree.sortEntries ((name, t) :: found).reverse, rest)
            | _ => none
        | _ => none
    | _ => none
end

/-- **Read a text** that is one JSON value and nothing else. -/
def parse? (text : String) : Option Tree :=
  let cs := text.toList
  match value (cs.length + 1) cs with
  | some (t, rest) => if (skip rest).isEmpty then some t else none
  | none => none

end FilterProxy.Json
