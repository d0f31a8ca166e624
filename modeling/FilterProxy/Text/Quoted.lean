import FilterProxy.Text.Visible

/-!
# FilterProxy/Text/Quoted — text in quotes, unambiguous to the eye

Quote and backslash are escaped, tab and line breaks have letters, and every character that does
not show by itself is written as its code point.  A single quote stands as it is.
-/

namespace FilterProxy.Text

/-- A character inside double quotes. -/
def escape (c : Char) : List Char :=
  if c = '"' then ['\\', '"']
  else if c = '\\' then ['\\', '\\']
  else if c = '\t' then ['\\', 't']
  else if c = '\r' then ['\\', 'r']
  else if c = '\n' then ['\\', 'n']
  else if c = '\x00' then ['\\', '0']
  else if isVisible c then [c]
  else '\\' :: 'u' :: '{' :: Nat.toDigits 16 c.toNat ++ ['}']

/-- Text in double quotes. -/
def quote (text : String) : String :=
  String.ofList ('"' :: text.toList.flatMap escape ++ ['"'])

end FilterProxy.Text
