/-! White space, and texts without it at their ends. -/
namespace PropertyGraph.Text

/-- The white space of Unicode. -/
def isBlank (c : Char) : Bool :=
  let n := c.toNat
  (0x9 ≤ n && n ≤ 0xd) || (0x2000 ≤ n && n ≤ 0x200a)
    || [0x20, 0x85, 0xa0, 0x1680, 0x2028, 0x2029, 0x202f, 0x205f, 0x3000].contains n

/-- The characters between the first and the last that `p` does not hold of. -/
def stripChars (p : Char → Bool) (cs : List Char) : List Char :=
  ((cs.dropWhile p).reverse.dropWhile p).reverse

def strip (p : Char → Bool) (s : String) : String := .ofList (stripChars p s.toList)

end PropertyGraph.Text
