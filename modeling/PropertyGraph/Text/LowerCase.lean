import PropertyGraph.Text.Case

/-! Lower case of texts. -/
namespace PropertyGraph.Text

/-- The lower case of a character that has one of a single character. -/
def lowerChar (c : Char) : Char :=
  let n := c.toNat
  match lowerRuns.find? fun r => r.first ≤ n && n ≤ r.last && (n - r.first) % r.step == 0 with
  | some r => .ofNat (n + r.shift).toNat
  | none => c

/-- A cased letter comes first once characters to be ignored are passed over. -/
def startsCased (cs : List Char) : Bool :=
  ((cs.dropWhile isCaseIgnorable).head?.map isCased).getD false

/-- A sigma is final behind a letter and before none. `before` is what precedes, nearest first. -/
def lowerChars (before : List Char) : List Char → List Char
  | [] => []
  | c :: cs =>
    let lower :=
      if c = 'Σ' then [if startsCased before && !startsCased cs then 'ς' else 'σ']
      else if c = 'İ' then ['i', '\u0307']
      else [lowerChar c]
    lower ++ lowerChars (c :: before) cs

def lowerCase (s : String) : String := .ofList (lowerChars [] s.toList)

end PropertyGraph.Text
