/-!
Blank characters: the white space of the Unicode property `White_Space`, and
texts with the blanks before them taken off.
-/

namespace TypedPseudocode.Text

/-- The characters of the property `White_Space`, twenty-five in all. -/
def isBlank (c : Char) : Bool :=
  let code := c.toNat
  (0x9 ≤ code && code ≤ 0xd) || code == 0x20 || code == 0x85 || code == 0xa0 ||
    code == 0x1680 || (0x2000 ≤ code && code ≤ 0x200a) || code == 0x2028 ||
    code == 0x2029 || code == 0x202f || code == 0x205f || code == 0x3000

def trimStart (text : List Char) : List Char := text.dropWhile isBlank

end TypedPseudocode.Text
