import FilterProxy.Tree

/-!
# FilterProxy/Json/Printer — trees written as JSON

Members are written in the order the tree has them; text keeps every character that JSON lets stand.
-/

namespace FilterProxy.Json

/-- Four hexadecimal digits. -/
def hex4 (n : Nat) : List Char :=
  let d := Nat.toDigits 16 n
  List.replicate (4 - d.length) '0' ++ d

/-- A character inside a string: quote, backslash and control characters are escaped. -/
def escape (c : Char) : List Char :=
  if c = '"' then ['\\', '"']
  else if c = '\\' then ['\\', '\\']
  else if c.toNat < 0x20 then '\\' :: 'u' :: hex4 c.toNat
  else [c]

/-- A quoted string. -/
def quote (text : String) : String :=
  String.ofList ('"' :: (text.toList.flatMap escape) ++ ['"'])

mutual
/-- A tree as one line of JSON. -/
def print : Tree → String
  | .null => "null"
  | .bool true => "true"
  | .bool false => "false"
  | .int n => toString n
  | .float x => if x.isFinite then x.text else "null"
  | .text s => quote s
  | .list items => "[" ++ printItems items ++ "]"
  | .map entries => "\x7b" ++ printEntries entries ++ "\x7d"

/-- The items of a list, with commas between them. -/
def printItems : List Tree → String
  | [] => ""
  | [t] => print t
  | t :: rest => print t ++ "," ++ printItems rest

/-- The members of a map, with commas between them. -/
def printEntries : List (String × Tree) → String
  | [] => ""
  | [(n, t)] => quote n ++ ":" ++ print t
  | (n, t) :: rest => quote n ++ ":" ++ print t ++ "," ++ printEntries rest
end

end FilterProxy.Json
