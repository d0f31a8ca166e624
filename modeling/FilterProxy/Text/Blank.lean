/-!
# FilterProxy/Text/Blank — texts without anything to see

Blank are the characters with the Unicode property `White_Space`; there are twenty-five of them.
-/

namespace FilterProxy.Text

/-- The blank characters. -/
def isBlank (c : Char) : Bool :=
  let n := c.toNat
  (0x09 ≤ n && n ≤ 0x0d) || n == 0x20 || n == 0x85 || n == 0xa0 || n == 0x1680 ||
    (0x2000 ≤ n && n ≤ 0x200a) || n == 0x2028 || n == 0x2029 || n == 0x202f || n == 0x205f ||
    n == 0x3000

/-- Nothing but blanks. -/
def allBlank (text : String) : Bool := text.toList.all isBlank

end FilterProxy.Text
