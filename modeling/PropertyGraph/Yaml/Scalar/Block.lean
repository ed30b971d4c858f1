import PropertyGraph.Yaml.Cursor

/-! Scalars of whole lines, with their breaks kept or folded. -/
namespace PropertyGraph.Yaml.Block

/-- What becomes of the breaks at the end. -/
inductive Chomping
  | strip
  | clip
  | keep
  deriving DecidableEq

def chomping? : Char → Option Chomping
  | '+' => some .keep
  | '-' => some .strip
  | _ => none

/-- A given depth of indentation. -/
def depth? (c : Cursor) : Option (Nat × Cursor) :=
  if c.head.isDigit then
    if c.head == '0' then none else some (c.head.toNat - '0'.toNat, c.skip)
  else some (0, c)

/-- Chomping and depth, in either order. -/
def header? (c : Cursor) : Option (Chomping × Nat × Cursor) :=
  match chomping? c.head with
  | some chomping => do
    let (depth, c) ← depth? c.skip
    some (chomping, depth, c)
  | none => do
    let (depth, c') ← depth? c
    if depth = 0 then some (.clip, 0, c')
    else match chomping? c'.head with
      | some chomping => some (chomping, depth, c'.skip)
      | none => some (.clip, depth, c')

/-- Up to `indent` spaces. -/
def margin (indent : Nat) (c : Cursor) : Cursor :=
  let spaces := (c.rest.takeWhile (· == ' ')).length
  { c.advance (min spaces (indent - c.column)) with margin := c.margin }

/-- Empty lines, and the indentation of the line behind them. -/
def emptyLines (indent : Nat) : Nat → Nat → Cursor → Nat × Cursor
  | 0, breaks, c => (breaks, c)
  | fuel + 1, breaks, c =>
    let c := margin indent c
    if isBreak c.head then emptyLines indent fuel (breaks + 1) c.skipBreak else (breaks, c)

/-- Empty lines before the first line, whose own spaces tell the indentation. -/
def firstLines : Nat → Nat → Nat → Cursor → Nat × Nat × Cursor
  | 0, deepest, breaks, c => (deepest, breaks, c)
  | fuel + 1, deepest, breaks, c =>
    let c := margin (c.column + c.rest.length) c
    let deepest := max deepest c.column
    if isBreak c.head then firstLines fuel deepest (breaks + 1) c.skipBreak
    else (deepest, breaks, c)

/-- The lines read until now. -/
structure Lines where
  /-- In reverse. -/
  text : List Char := []
  /-- The last line has ended. -/
  ended : Bool := false
  /-- The last line starts with a blank. -/
  indented : Bool := false
  /-- Empty lines behind the last line. -/
  empty : Nat := 0

/-- Between two lines that start at the margin a folded scalar has a blank. -/
def Lines.joint (ls : Lines) (literal indented : Bool) : List Char :=
  if !literal && ls.ended && !ls.indented && !indented then
    if ls.empty = 0 then [' '] else List.replicate ls.empty '\n'
  else List.replicate (ls.empty + if ls.ended then 1 else 0) '\n'

def lines (literal : Bool) (indent : Nat) : Nat → Lines → Cursor → Lines × Cursor
  | 0, ls, c => (ls, c)
  | fuel + 1, ls, c =>
    if c.column != indent || c.atEnd || (indent == 0 && c.isMarker '.') then (ls, c)
    else
      let indented := isBlank c.head
      let (line, c) := c.span (!endsLine ·)
      let text := line.reverse ++ (ls.joint literal indented ++ ls.text)
      if c.atEnd then ({ text, indented }, c)
      else
        let (empty, c) := emptyLines indent (c.rest.length + 1) 0 c.skipBreak
        lines literal indent fuel { text, ended := true, indented, empty } c

def Lines.chomp (ls : Lines) (chomping : Chomping) (unended : Bool) : List Char :=
  match chomping with
  | .strip => ls.text
  | .clip => List.replicate ((if ls.ended then 1 else 0) + if unended then 1 else 0) '\n' ++ ls.text
  | .keep =>
    List.replicate (ls.empty + (if ls.ended then 1 else 0) + if unended then 1 else 0) '\n'
      ++ ls.text

/-- The breaks of a scalar without a line. -/
def onlyBreaks (chomping : Chomping) (started : Bool) (breaks : Nat) : List Char :=
  if !started then []
  else match chomping with
    | .strip => []
    | .clip => ['\n']
    | .keep => List.replicate (max breaks 1) '\n'

/-- The scalar whose mark is at a place inside a collection indented by `outer`, and the place
behind it. -/
def read? (outer : Int) (c : Cursor) : Option (String × Cursor) := do
  let literal := c.head == '|'
  let (chomping, depth, c') ← header? c.skip
  let (_, c') ← c'.inlineEnd?
  if !endsLine c'.head then none
  else
    let c' := if isBreak c'.head then c'.skipBreak else c'
    if c'.head == '\t' then none
    else
      let size := c'.rest.length + 1
      let (indent, breaks, c') :=
        if depth = 0 then
          let (deepest, breaks, c') := firstLines size 0 0 c'
          (max (max deepest (outer + 1).toNat) (if 0 < outer then 1 else 0), breaks, c')
        else
          let indent := (max outer 0).toNat + depth
          let (breaks, c') := emptyLines indent size 0 c'
          (indent, breaks, c')
      if c'.atEnd then
        some (.ofList (onlyBreaks chomping (c.line < c'.line) breaks), c')
      else if c'.column < indent && outer < c'.column then none
      else
        let (ls, c') := lines literal indent size { empty := breaks } c'
        let unended := c'.atEnd && max indent 1 ≤ c'.column
        some (.ofList (ls.chomp chomping unended).reverse, c')

end PropertyGraph.Yaml.Block
