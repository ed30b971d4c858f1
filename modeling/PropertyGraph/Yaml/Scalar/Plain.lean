import PropertyGraph.Yaml.Cursor
import PropertyGraph.Yaml.Scalar.Gap

/-! Scalars without quotes, on one line or more. -/
namespace PropertyGraph.Yaml.Plain

/-- A colon ends a scalar in front of a blank; inside flow collections their marks do too. -/
def ends (flow : Bool) (c : Char) (next : Char) : Bool :=
  endsWord c || (c == ':' && (endsWord next || (flow && isFlowMark next)))
    || (flow && isFlowMark c)

def word (flow : Bool) : List Char → List Char
  | [] => []
  | c :: cs => if ends flow c (cs.head?.getD endMark) then [] else c :: word flow cs

/-- On empty lines tabs may stand where a line would be indented. -/
def gap? (indent : Int) : Nat → Gap → Cursor → Option (Gap × Cursor)
  | 0, _, _ => none
  | fuel + 1, g, c =>
    if isBlank c.head then
      if !c.margin then gap? indent fuel (g.blank c.head) c.skipBlank
      else if c.column < indent && c.head == '\t' then do
        let (_, c) ← c.inlineEnd?
        if endsLine c.head then gap? indent fuel g c else none
      else gap? indent fuel g c.skipBlank
    else if isBreak c.head then
      gap? indent fuel (if c.margin then g.nextBreak else g.firstBreak) c.skipBreak
    else some (g, c)

def words? (flow : Bool) (indent : Int) :
    Nat → List Char → Gap → Cursor → Option (List Char × Cursor)
  | 0, _, _, _ => none
  | fuel + 1, text, g, c =>
    if c.isBoundary || c.head == '#' then some (text, c)
    else if flow && c.head == '-' && isFlowMark (c.peek 1) then none
    else
      let w := word flow c.rest
      let text := if w.isEmpty then text else w.reverse ++ (g.reversed ++ text)
      let c := c.advance w.length
      if !isBlank c.head && !isBreak c.head then some (text, c)
      else do
        let (g, c) ← gap? indent (c.rest.length + 1) {} c
        if !flow && c.column < indent then some (text, c) else words? flow indent fuel text g c

/-- The scalar at a place, indented by `indent` or more, and the place behind it and the gap
that follows. -/
def read? (flow : Bool) (indent : Int) (c : Cursor) : Option (String × Cursor) := do
  if flow && c.column < indent then none
  else
    let (text, c) ← words? flow indent (c.rest.length + 1) [] {} c
    if text.isEmpty then none else some (.ofList text.reverse, c)

end PropertyGraph.Yaml.Plain
