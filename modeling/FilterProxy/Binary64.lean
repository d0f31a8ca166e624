/-!
# FilterProxy/Binary64 — decimals read to the nearest double, doubles written shortest

A binary64 number is its bit pattern.  Reading takes a decimal to the **nearest** representable
number, ties to the even significand.  Writing takes the **fewest** decimal digits that read back,
and of those the nearest.  Products and quotients are rounded the same way, for formats whose
numbers are read in steps.  All is exact arithmetic on natural numbers.
-/

namespace FilterProxy

/-- A binary64 number, as its bits. -/
structure Binary64 where
  bits : UInt64
  deriving DecidableEq, Repr, Inhabited

namespace Binary64

/-- The exact powers of ten. -/
def tenTo (n : Nat) : Nat := Nat.pow 10 n

/-- What the sign adds to the bits of a number below zero. -/
def signBit : Nat := 1 <<< 63

/-- The least significand of a normal number; the exponent counts in units of it. -/
def unitBit : Nat := 1 <<< 52

/-- Below zero, minus zero included. -/
def isNegative (x : Binary64) : Bool := signBit ≤ x.bits.toNat

/-- The bits without the sign. -/
def unsigned (x : Binary64) : Nat := x.bits.toNat % signBit

/-- Bits of the infinity above zero. -/
def infinityBits : Nat := 0x7ff * unitBit

/-- Neither an infinity nor a NaN. -/
def isFinite (x : Binary64) : Bool := x.unsigned < infinityBits

/-- Give unsigned bits a sign. -/
def ofUnsigned (negative : Bool) (bits : Nat) : Binary64 :=
  ⟨(if negative then signBit + bits else bits).toUInt64⟩

/-- Infinity with a sign. -/
def infinity (negative : Bool) : Binary64 := ofUnsigned negative infinityBits

/-- Not a number. -/
def nan : Binary64 := ⟨0x7ff8000000000000⟩

/-! ## Reading -/

/-- The quotient rounded to the nearest number, a half to the even one. -/
def roundDiv (num den : Nat) : Nat :=
  let q := num / den
  let r := num % den
  if 2 * r < den ∨ (2 * r = den ∧ q % 2 = 0) then q else q + 1

/-- `x · 2 ^ q` as a fraction, for a fraction `x`. -/
def scale (num den : Nat) (q : Int) : Nat × Nat :=
  (num <<< q.toNat, den <<< (-q).toNat)

/-- Exponent of the greatest power of two not above a fraction. -/
def log2Div (num den : Nat) : Int :=
  let k : Int := (num.log2 : Int) - den.log2
  let s := scale num den (-k)
  if s.2 ≤ s.1 then k else k - 1

/-- The unsigned bits nearest to a positive fraction.  A significand that rounds up to the next
power of two carries into the exponent by itself. -/
def nearest (num den : Nat) : Nat :=
  let q := max (log2Div num den - 52) (-1074)
  let s := scale num den (-q)
  min ((q + 1074).toNat * unitBit + roundDiv s.1 s.2) infinityBits

/-- The number nearest to `± m · 10 ^ e`.  Exponents out of all bounds are cut off before any power
is computed. -/
def ofDecimal (negative : Bool) (m : Nat) (e : Int) : Binary64 :=
  let size : Int := (Nat.toDigits 10 m).length + e
  ofUnsigned negative <|
    if m = 0 ∨ size < -400 then 0
    else if 400 < size then infinityBits
    else nearest (m * tenTo e.toNat) (tenTo (-e).toNat)

/-- Significand and binary exponent of a finite number. -/
def decode (x : Binary64) : Nat × Int :=
  let e : Nat := x.unsigned / unitBit
  let f := x.unsigned % unitBit
  if e = 0 then (f, -1074) else (unitBit + f, (e : Int) - 1075)

/-! ## Arithmetic

Of numbers not below zero, each result rounded to the nearest. -/

/-- A finite number as a fraction. -/
def fraction (x : Binary64) : Nat × Nat :=
  let d := x.decode
  scale d.1 1 d.2

/-- The number nearest to a fraction. -/
def ofFraction (num den : Nat) : Binary64 :=
  ofUnsigned false (if num = 0 then 0 else nearest num den)

/-- The number nearest to a natural one. -/
def ofNat (n : Nat) : Binary64 := ofFraction n 1

/-- The rounded product. -/
def times (x y : Binary64) : Binary64 :=
  let a := x.fraction
  let b := y.fraction
  ofFraction (a.1 * b.1) (a.2 * b.2)

/-- The rounded quotient. -/
def dividedBy (x y : Binary64) : Binary64 :=
  let a := x.fraction
  let b := y.fraction
  ofFraction (a.1 * b.2) (a.2 * b.1)

/-- The number nearest to a power of ten, of `10 ^ 308` at most. -/
def powerOfTen (n : Nat) : Binary64 := ofNat (tenTo (min n 308))

/-- A number times a power of ten that is rounded by itself.  Division takes a second step below
`10 ^ -308`; below `10 ^ -616` nothing is left of a number that 64 bits hold. -/
def shiftTen (x : Binary64) (e : Int) : Binary64 :=
  if x.unsigned = 0 then x
  else if 308 < e then infinity false
  else if 0 ≤ e then x.times (powerOfTen e.toNat)
  else if -308 ≤ e then x.dividedBy (powerOfTen (-e).toNat)
  else if -616 ≤ e then (x.dividedBy (powerOfTen 308)).dividedBy (powerOfTen (-e - 308).toNat)
  else ofUnsigned false 0

/-- The number with its sign turned round. -/
def negate (x : Binary64) : Binary64 := ofUnsigned (!x.isNegative) x.unsigned

/-! ## Writing -/

/-- `n · 10 ^ e` reads back as `m · 2 ^ q`: it lies between the midpoints to the neighbours, on one
only if `m` is even.  The neighbour below a power of two is half as far away. -/
def readsBack (m : Nat) (q : Int) (n : Nat) (e : Int) : Bool :=
  let down := if m = unitBit ∧ -1074 < q then 1 else 2
  let unit := tenTo (-e).toNat <<< q.toNat
  let point := (4 * n * tenTo e.toNat) <<< (-q).toNat
  let low := (4 * m - down) * unit
  let high := (4 * m + 2) * unit
  if m % 2 = 0 then low ≤ point && point ≤ high else low < point && point < high

/-- How far `n · 10 ^ e` is from `m · 2 ^ q`, in a unit that hangs on `q` and `e` only. -/
def distance (m : Nat) (q : Int) (n : Nat) (e : Int) : Nat :=
  let exact := (m * tenTo (-e).toNat) <<< q.toNat
  let point := (n * tenTo e.toNat) <<< (-q).toNat
  max exact point - min exact point

/-- On the decimal grid of step `10 ^ e`, the neighbour of `m · 2 ^ q` that reads back and is
nearest; of two as near the even one. -/
def onGrid? (m : Nat) (q e : Int) : Option Nat :=
  let n := ((m * tenTo (-e).toNat) <<< q.toNat) / (tenTo e.toNat <<< (-q).toNat)
  match readsBack m q n e, readsBack m q (n + 1) e with
  | true, true =>
    let a := distance m q n e
    let b := distance m q (n + 1) e
    if a < b ∨ (a = b ∧ n % 2 = 0) then some n else some (n + 1)
  | true, false => some n
  | false, true => some (n + 1)
  | false, false => none

/-- The first hit from the grid of step `10 ^ e` downwards. -/
def firstGrid (m : Nat) (q : Int) : Nat → Int → Nat × Int
  | 0, e => (0, e)
  | fuel + 1, e =>
    match onGrid? m q e with
    | some n => (n, e)
    | none => firstGrid m q fuel (e - 1)

/-- An exponent of ten above every digit of `m · 2 ^ q`, by at most a few. -/
def topExponent (m : Nat) (q : Int) : Int := (((m.log2 : Int) + q) * 30103).fdiv 100000 + 2

/-- **The shortest decimal** `n · 10 ^ e` of a finite number other than zero. -/
def shortest (x : Binary64) : Nat × Int :=
  let d := x.decode
  firstGrid d.1 d.2 24 (topExponent d.1 d.2)

/-- Positional while the point stands within sixteen digits or behind at most four zeros, else
with an exponent and its sign; a whole number keeps one zero behind the point. -/
def decimalText (digits : List Char) (e : Int) : String :=
  let length := digits.length
  let point : Int := length + e
  String.ofList <|
    if 0 ≤ e ∧ point ≤ 16 then digits ++ List.replicate e.toNat '0' ++ ['.', '0']
    else if 0 < point ∧ point ≤ 16 then digits.take point.toNat ++ '.' :: digits.drop point.toNat
    else if -5 < point ∧ point ≤ 0 then
      '0' :: '.' :: List.replicate (-point).toNat '0' ++ digits
    else
      let sign := if 0 < point then ['+'] else ['-']
      let mark := 'e' :: sign ++ Nat.toDigits 10 (point - 1).natAbs
      match digits with
      | [d] => d :: mark
      | d :: rest => d :: '.' :: rest ++ mark
      | [] => mark

/-- The text of a finite number. -/
def text (x : Binary64) : String :=
  let magnitude :=
    if x.unsigned = 0 then "0.0"
    else
      let d := x.shortest
      decimalText (Nat.toDigits 10 d.1) d.2
  if x.isNegative then "-" ++ magnitude else magnitude

end Binary64

end FilterProxy
