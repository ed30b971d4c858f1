/-! Faults in JSON documents, and the places at which they are told. -/
namespace PropertyGraph.Json

/-- What is wrong, and where; line 0 stands for no place. -/
structure Fault where
  reason : String
  line : Nat := 0
  column : Nat := 0
  deriving DecidableEq

namespace Fault

/-- A number that ends a text, and the text before it, both read backwards. Numbers beyond 64 bits
are none. -/
def endNumber? (reversed : List Char) : Option (Nat × List Char) :=
  let (digits, rest) := reversed.span Char.isDigit
  let n := digits.foldr (fun c n => 10 * n + (c.toNat - '0'.toNat)) 0
  if digits.isEmpty || 0x10000000000000000 ≤ n then none else some (n, rest)

/-- The text before a word that ends it, both read backwards. -/
def endWord? (word : String) (reversed : List Char) : Option (List Char) :=
  let back := word.toList.reverse
  if back.isPrefixOf reversed then some (reversed.drop back.length) else none

/-- A text that ends in a place is about that place. -/
def ofText (text : String) : Fault :=
  let placed : Option Fault := do
    let (column, rest) ← endNumber? text.toList.reverse
    let rest ← endWord? " column " rest
    let (line, rest) ← endNumber? rest
    let rest ← endWord? " at line " rest
    some { reason := .ofList rest.reverse, line, column }
  placed.getD { reason := text }

def text (fault : Fault) : String :=
  if fault.line = 0 then fault.reason
  else fault.reason ++ s!" at line {fault.line} column {fault.column}"

end Fault

end PropertyGraph.Json
