import FilterProxy.Json.Reader

/-!
# FilterProxy/Toml/Word — blanks, strings and keys of TOML 1.0

Readers take characters off the front of a text and hand the rest back; `none` is a syntax error.
Line breaks are `\n` or `\r\n`, never a lone `\r`, and a string always gets `\n`.
-/

namespace FilterProxy.Toml

/-- Blanks within a line. -/
def isBlank (c : Char) : Bool := c = ' ' || c = '\t'

/-- The text without leading blanks. -/
def skip (cs : List Char) : List Char := cs.dropWhile isBlank

/-- The text behind a line break. -/
def newline? : List Char → Option (List Char)
  | '\n' :: rest => some rest
  | '\r' :: '\n' :: rest => some rest
  | _ => none

/-- What a comment may hold: no control character but the tab. -/
def isCommentChar (c : Char) : Bool :=
  c = '\t' || (0x20 ≤ c.toNat && c.toNat ≠ 0x7f)

/-- What a basic string may hold unescaped. -/
def isBasicChar (c : Char) : Bool := isCommentChar c && c ≠ '"' && c ≠ '\\'

/-- What a literal string may hold. -/
def isLiteralChar (c : Char) : Bool := isCommentChar c && c ≠ '\''

/-- The text behind a comment, if one stands in front. -/
def skipComment : List Char → List Char
  | '#' :: rest => rest.dropWhile isCommentChar
  | cs => cs

/-- The end of a line: blanks, a comment, then a line break or the end of the text. -/
def lineEnd? (cs : List Char) : Option (List Char) :=
  match skipComment (skip cs) with
  | [] => some []
  | rest => newline? rest

/-- Blanks, line breaks and comments that end in a line break. -/
def skipLines : Nat → List Char → List Char
  | 0, cs => cs
  | fuel + 1, cs =>
    let cs := skip cs
    match newline? (skipComment cs) with
    | some rest => skipLines fuel rest
    | none => cs

/-! ## Strings -/

/-- The character that an escape behind a backslash stands for. -/
def escaped? : List Char → Option (Char × List Char)
  | 'b' :: rest => some ('\x08', rest)
  | 't' :: rest => some ('\t', rest)
  | 'n' :: rest => some ('\n', rest)
  | 'f' :: rest => some ('\x0c', rest)
  | 'r' :: rest => some ('\r', rest)
  | '"' :: rest => some ('"', rest)
  | '\\' :: rest => some ('\\', rest)
  | 'u' :: rest => point? 4 rest
  | 'U' :: rest => point? 8 rest
  | _ => none
where
  /-- The character whose code point has `n` hexadecimal digits in front. -/
  point? (n : Nat) (cs : List Char) : Option (Char × List Char) :=
    if cs.length < n then none
    else ((Json.hexNumber? (cs.take n)).bind Json.scalar?).map (·, cs.drop n)

/-- A basic string behind its opening quote; `found` holds the characters before, reversed. -/
def basicString : Nat → List Char → List Char → Option (String × List Char)
  | 0, _, _ => none
  | fuel + 1, found, cs =>
    match cs with
    | '"' :: rest => some (String.ofList found.reverse, rest)
    | '\\' :: rest =>
      match escaped? rest with
      | some (c, rest) => basicString fuel (c :: found) rest
      | none => none
    | c :: rest => if isBasicChar c then basicString fuel (c :: found) rest else none
    | [] => none

/-- A literal string behind its opening quote. -/
def literalString (cs : List Char) : Option (String × List Char) :=
  match cs.span isLiteralChar with
  | (body, '\'' :: rest) => some (String.ofList body, rest)
  | _ => none

/-- A run of blanks and line breaks. -/
def skipBreaks : Nat → List Char → List Char
  | 0, cs => cs
  | fuel + 1, cs =>
    match newline? (skip cs) with
    | some rest => skipBreaks fuel rest
    | none => skip cs

/-- The quotes in front, and what is behind them. -/
def quotes (quote : Char) (cs : List Char) : Nat × List Char :=
  let run := cs.takeWhile (· = quote)
  (run.length, cs.drop run.length)

/-- The body of a string over several lines, up to its three closing quotes, which one or two more
may precede.  A backslash at the end of a line swallows the break and the blanks behind it. -/
def multiline (quote : Char) : Nat → List Char → List Char → Option (String × List Char)
  | 0, _, _ => none
  | fuel + 1, found, cs =>
    match cs with
    | [] => none
    | c :: rest =>
      if c = quote then
        let (n, behind) := quotes quote cs
        if n < 3 then multiline quote fuel (List.replicate n quote ++ found) behind
        else if n ≤ 5 then
          some (String.ofList (List.replicate (n - 3) quote ++ found).reverse, behind)
        else none
      else if c = '\\' ∧ quote = '"' then
        match newline? (skip rest) with
        | some behind => multiline quote fuel found (skipBreaks behind.length behind)
        | none =>
          match escaped? rest with
          | some (c, behind) => multiline quote fuel (c :: found) behind
          | none => none
      else
        match newline? cs with
        | some behind => multiline quote fuel ('\n' :: found) behind
        | none => if isCommentChar c then multiline quote fuel (c :: found) rest else none

/-- A string of any of the four kinds. -/
def string (cs : List Char) : Option (String × List Char) :=
  match cs with
  | '"' :: '"' :: '"' :: rest =>
    let body := (newline? rest).getD rest
    multiline '"' (body.length + 1) [] body
  | '\'' :: '\'' :: '\'' :: rest =>
    let body := (newline? rest).getD rest
    multiline '\'' (body.length + 1) [] body
  | '"' :: rest => basicString (rest.length + 1) [] rest
  | '\'' :: rest => literalString rest
  | _ => none

/-! ## Keys -/

/-- What a bare key is made of. -/
def isKeyChar (c : Char) : Bool := c.isAlphanum || c = '-' || c = '_'

/-- One part of a key: quoted within a line, or bare. -/
def keyPart (cs : List Char) : Option (String × List Char) :=
  match cs with
  | '"' :: rest => basicString (rest.length + 1) [] rest
  | '\'' :: rest => literalString rest
  | _ =>
    match cs.span isKeyChar with
    | ([], _) => none
    | (body, rest) => some (String.ofList body, rest)

/-- The parts of a dotted key, blanks around each allowed; `found` holds those before, reversed. -/
def keyParts : Nat → List String → List Char → Option (List String × List Char)
  | 0, _, _ => none
  | fuel + 1, found, cs =>
    match keyPart (skip cs) with
    | none => none
    | some (part, rest) =>
      match skip rest with
      | '.' :: rest => keyParts fuel (part :: found) rest
      | rest => some ((part :: found).reverse, rest)

/-- How deep keys and values may nest. -/
def depthLimit : Nat := 80

/-- A dotted key: the tables it goes through, and its last part. -/
def key (cs : List Char) : Option ((List String × String) × List Char) :=
  match keyParts (cs.length + 1) [] cs with
  | none => none
  | some (parts, rest) =>
    if depthLimit ≤ parts.length then none
    else parts.getLast?.map fun last => ((parts.dropLast, last), rest)

end FilterProxy.Toml
