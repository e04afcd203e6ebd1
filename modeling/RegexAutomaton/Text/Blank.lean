namespace RegexAutomaton.Text

/-- The Unicode property White_Space. -/
def isBlank (c : Char) : Bool :=
  let code := c.toNat
  (0x9 ≤ code && code ≤ 0xD) || code == 0x20 || code == 0x85 || code == 0xA0 ||
    code == 0x1680 || (0x2000 ≤ code && code ≤ 0x200A) || code == 0x2028 || code == 0x2029 ||
    code == 0x202F || code == 0x205F || code == 0x3000

def trimLeft (chars : List Char) : List Char :=
  chars.dropWhile isBlank

/-- The characters without the blank ones at both ends. -/
def trim (chars : List Char) : List Char :=
  (trimLeft (trimLeft chars).reverse).reverse

end RegexAutomaton.Text
