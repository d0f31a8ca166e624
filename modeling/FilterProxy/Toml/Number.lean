import FilterProxy.Toml.Word

/-!
# FilterProxy/Toml/Number — numbers, dates and times of TOML 1.0

Digits may be parted by single underscores.  Whole numbers have 64 bits and a sign.  A date or a
time is checked against the calendar and the clock and kept as its normal text.
-/

namespace FilterProxy.Toml

/-! ## Numbers -/

/-- The digits in front that satisfy `ok`, single underscores between them dropped. -/
def digitsOf (ok : Char → Bool) : List Char → Option (List Char × List Char)
  | [] => none
  | c :: rest => if ok c then some (more c rest) else none
where
  /-- The digits that go on behind digit `c`. -/
  more (c : Char) : List Char → List Char × List Char
    | '_' :: d :: rest =>
      if ok d then
        let r := more d rest
        (c :: r.1, r.2)
      else ([c], '_' :: d :: rest)
    | d :: rest =>
      if ok d then
        let r := more d rest
        (c :: r.1, r.2)
      else ([c], d :: rest)
    | [] => ([c], [])

/-- A sign in front; true is minus. -/
def sign : List Char → Option Bool × List Char
  | '+' :: rest => (some false, rest)
  | '-' :: rest => (some true, rest)
  | cs => (none, cs)

/-- Decimal digits in front without leading zeros. -/
def decimalDigits (cs : List Char) : Option (List Char × List Char) :=
  match cs with
  | '0' :: rest => some (['0'], rest)
  | _ => digitsOf Char.isDigit cs

/-- A whole number that 64 bits with sign hold. -/
def int64 (n : Int) : Option Tree :=
  if Int64.minValue.toInt ≤ n ∧ n ≤ Int64.maxValue.toInt then some (.int n) else none

/-- The value of digits in a base up to sixteen. -/
def inBase (base : Nat) (digits : List Char) : Nat :=
  digits.foldl (fun n c => base * n + (Json.hexValue? c).getD 0) 0

/-- A whole number behind `0x`, `0o` or `0b`. -/
def based (base : Nat) (ok : Char → Bool) (cs : List Char) : Option (Tree × List Char) := do
  let (ds, rest) ← digitsOf ok cs
  let t ← int64 (inBase base ds)
  some (t, rest)

/-- The fraction in front: none, or a point and digits. -/
def fraction (cs : List Char) : Option (Option (List Char) × List Char) :=
  match cs with
  | '.' :: rest => (digitsOf Char.isDigit rest).map fun (ds, rest) => (some ds, rest)
  | _ => some (none, cs)

/-- The exponent in front, if there is one. -/
def exponent (cs : List Char) : Option (Option Int × List Char) :=
  match cs with
  | c :: rest =>
    if c = 'e' ∨ c = 'E' then do
      let (negative, rest) := sign rest
      let (ds, rest) ← digitsOf Char.isDigit rest
      let n : Int := inBase 10 ds
      some (some (if negative = some true then -n else n), rest)
    else some (none, cs)
  | [] => some (none, [])

/-- A decimal number: floating-point iff it has a fraction or an exponent.  One that is too great
is refused above zero only. -/
def decimal (cs : List Char) : Option (Tree × List Char) := do
  let (negative, rest) := sign cs
  let negative := negative = some true
  let (whole, rest) ← decimalDigits rest
  let (frac, rest) ← fraction rest
  let (e, rest) ← exponent rest
  match frac, e with
  | none, none =>
    let n : Int := inBase 10 whole
    let t ← int64 (if negative then -n else n)
    some (t, rest)
  | _, _ =>
    let frac := frac.getD []
    let x := Binary64.ofDecimal negative (inBase 10 (whole ++ frac)) (e.getD 0 - frac.length)
    if x = .infinity false then none else some (.float x, rest)

/-- Infinity or no number. -/
def special (cs : List Char) : Option (Tree × List Char) :=
  let (negative, rest) := sign cs
  match rest with
  | 'i' :: 'n' :: 'f' :: rest => some (.float (.infinity (negative = some true)), rest)
  | 'n' :: 'a' :: 'n' :: rest => some (.float .nan, rest)
  | _ => none

/-- A number of any form. -/
def number (cs : List Char) : Option (Tree × List Char) :=
  match cs with
  | '0' :: 'x' :: rest => based 16 (fun c => (Json.hexValue? c).isSome) rest
  | '0' :: 'o' :: rest => based 8 (fun c => '0' ≤ c ∧ c ≤ '7') rest
  | '0' :: 'b' :: rest => based 2 (fun c => c = '0' ∨ c = '1') rest
  | _ => (special cs).or (decimal cs)

/-! ## Dates and times -/

/-- A number of exactly `n` digits in front. -/
def fixed (n : Nat) (cs : List Char) : Option (Nat × List Char) :=
  let ds := cs.take n
  if ds.length = n ∧ ds.all Char.isDigit then some (inBase 10 ds, cs.drop n) else none

/-- A number of two digits in front, within bounds. -/
def within (lo hi : Nat) (cs : List Char) : Option (Nat × List Char) := do
  let (n, rest) ← fixed 2 cs
  if lo ≤ n ∧ n ≤ hi then some (n, rest) else none

/-- One sign in front. -/
def expect (c : Char) : List Char → Option (List Char)
  | d :: rest => if c = d then some rest else none
  | [] => none

/-- A number with at least `width` digits. -/
def padded (width n : Nat) : List Char :=
  let ds := Nat.toDigits 10 n
  List.replicate (width - ds.length) '0' ++ ds

/-- How many days a month has. -/
def daysIn (year month : Nat) : Nat :=
  if month = 2 then
    if year % 4 = 0 ∧ (year % 100 ≠ 0 ∨ year % 400 = 0) then 29 else 28
  else if month = 4 ∨ month = 6 ∨ month = 9 ∨ month = 11 then 30
  else 31

/-- A date, as its normal text. -/
def date (cs : List Char) : Option (List Char × List Char) := do
  let (year, rest) ← fixed 4 cs
  let rest ← expect '-' rest
  let (month, rest) ← within 1 12 rest
  let rest ← expect '-' rest
  let (day, rest) ← within 1 31 rest
  if day ≤ daysIn year month then
    some (padded 4 year ++ '-' :: padded 2 month ++ '-' :: padded 2 day, rest)
  else none

/-- Fractions of a second in front: nine digits at most, zeros at the end dropped. -/
def subseconds (cs : List Char) : List Char × List Char :=
  match cs with
  | '.' :: rest =>
    match rest.span Char.isDigit with
    | ([], _) => ([], cs)
    | (ds, rest) =>
      let kept := ((ds.take 9).reverse.dropWhile (· = '0')).reverse
      (if kept.isEmpty then [] else '.' :: kept, rest)
  | _ => ([], cs)

/-- A time of day, as its normal text; a leap second may stand. -/
def time (cs : List Char) : Option (List Char × List Char) := do
  let (hour, rest) ← within 0 23 cs
  let rest ← expect ':' rest
  let (minute, rest) ← within 0 59 rest
  let rest ← expect ':' rest
  let (second, rest) ← within 0 60 rest
  let (part, rest) := subseconds rest
  some (padded 2 hour ++ ':' :: padded 2 minute ++ ':' :: padded 2 second ++ part, rest)

/-- An offset from universal time in front, empty if there is none; minus zero is plus zero. -/
def offset (cs : List Char) : Option (List Char × List Char) :=
  match cs with
  | c :: rest =>
    if c = 'Z' ∨ c = 'z' then some (['Z'], rest)
    else if c = '+' ∨ c = '-' then do
      let (hour, rest) ← within 0 23 rest
      let rest ← expect ':' rest
      let (minute, rest) ← within 0 59 rest
      let c := if hour = 0 ∧ minute = 0 then '+' else c
      some (c :: padded 2 hour ++ ':' :: padded 2 minute, rest)
    else some ([], cs)
  | [] => some ([], [])

/-- The time and offset behind a date, if a `T` or one blank and an hour lead to them. -/
def timeOfDate (cs : List Char) : Option (List Char × List Char) :=
  match cs with
  | c :: rest =>
    if (c = 'T' ∨ c = 't' ∨ c = ' ') ∧ ((within 0 23 rest).bind (expect ':' ·.2)).isSome then do
      let (t, rest) ← time rest
      let (o, rest) ← offset rest
      some ('T' :: t ++ o, rest)
    else some ([], cs)
  | [] => some ([], [])

/-- The member under which the text of a date stands. -/
def dateMember : String := "$__toml_private_datetime"

/-- The tree of a date. -/
def dateTree (text : List Char) : Tree := .map [(dateMember, .text (String.ofList text))]

/-- Digits in front that only a date can start with. -/
def startsDate (cs : List Char) : Bool := ((fixed 4 cs).bind (expect '-' ·.2)).isSome

/-- Digits in front that only a time can start with. -/
def startsTime (cs : List Char) : Bool := ((fixed 2 cs).bind (expect ':' ·.2)).isSome

/-- A number, a date or a time. -/
def scalar (cs : List Char) : Option (Tree × List Char) :=
  if startsDate cs then do
    let (d, rest) ← date cs
    let (t, rest) ← timeOfDate rest
    some (dateTree (d ++ t), rest)
  else if startsTime cs then (time cs).map fun (t, rest) => (dateTree t, rest)
  else number cs

end FilterProxy.Toml
