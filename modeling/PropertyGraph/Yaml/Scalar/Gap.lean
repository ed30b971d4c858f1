/-! What lies between two words of a scalar. -/
namespace PropertyGraph.Yaml

/-- Blanks on one line, or line breaks, of which the first may be folded into a blank. -/
structure Gap where
  /-- In reverse. -/
  blanks : List Char := []
  broken : Bool := false
  folded : Bool := false
  /-- Further breaks, each on a line of its own. -/
  breaks : Nat := 0

namespace Gap
variable (g : Gap)

def blank (c : Char) : Gap := { g with blanks := c :: g.blanks }

def firstBreak : Gap := { g with blanks := [], broken := true, folded := true }

def nextBreak : Gap := { g with breaks := g.breaks + 1 }

/-- Blanks stay. A single break is written as a blank; of several the first is dropped. -/
def reversed : List Char :=
  if !g.broken then g.blanks
  else if g.folded && g.breaks == 0 then [' ']
  else List.replicate g.breaks '\n'

end Gap

end PropertyGraph.Yaml
