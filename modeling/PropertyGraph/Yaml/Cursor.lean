/-! Places in a YAML text, and the characters that count there. -/
namespace PropertyGraph.Yaml

def isBlank (c : Char) : Bool := c == ' ' || c == '\t'

def isBreak (c : Char) : Bool := c == '\n' || c == '\r'

/-- The character that ends a text; it also stands for what is behind the end. -/
def endMark : Char := '\x00'

def endsLine (c : Char) : Bool := isBreak c || c == endMark

def endsWord (c : Char) : Bool := isBlank c || endsLine c

def isFlowMark (c : Char) : Bool := [',', '[', ']', '\x7b', '\x7d'].contains c

def isNameChar (c : Char) : Bool := c.isAlphanum || c == '_' || c == '-'

structure Cursor where
  /-- What is left of the text. -/
  rest : List Char
  index : Nat := 0
  line : Nat := 0
  column : Nat := 0
  /-- Nothing but blanks precedes on the line. -/
  margin : Bool := true

namespace Cursor
variable (c : Cursor)

def ofText (text : String) : Cursor := { rest := text.toList.takeWhile (· != endMark) }

def peek (n : Nat) : Char := (c.rest[n]?).getD endMark

def head : Char := c.peek 0

def atEnd : Bool := c.rest.isEmpty

/-- Behind `n` characters of the line that are not all blanks. -/
def advance (n : Nat) : Cursor :=
  { c with
    rest := c.rest.drop n
    index := c.index + n
    column := c.column + n
    margin := c.margin && n == 0 }

def skip : Cursor := c.advance 1

/-- Behind a blank, which leaves the margin as it is. -/
def skipBlank : Cursor := { c.skip with margin := c.margin }

def skipBlanks : Cursor :=
  { c.advance (c.rest.takeWhile isBlank).length with margin := c.margin }

/-- Behind a line break; a carriage return and a line feed are one break. -/
def skipBreak : Cursor :=
  let n := if c.head == '\r' && c.peek 1 == '\n' then 2 else 1
  { c.advance n with line := c.line + 1, column := 0, margin := true }

def skipLine : Cursor := c.advance (c.rest.takeWhile (!endsLine ·)).length

/-- The characters that `p` holds of, and the place behind them. -/
def span (p : Char → Bool) : List Char × Cursor :=
  let cs := c.rest.takeWhile p
  (cs, c.advance cs.length)

/-- The blanks behind a token and the place behind them, or behind a comment there. A comment
needs a blank before it. -/
def inlineEnd? : Option (List Char × Cursor) :=
  let blanks := c.rest.takeWhile isBlank
  let c' := c.skipBlanks
  if c'.head != '#' then some (blanks, c')
  else if blanks.isEmpty then none
  else some (blanks, c'.skipLine)

/-- Three marks alone at the front of a line. -/
def isMarker (mark : Char) : Bool :=
  c.column == 0 && c.rest.take 3 == [mark, mark, mark] && endsWord (c.peek 3)

/-- A line that starts or ends a document. -/
def isBoundary : Bool := c.isMarker '-' || c.isMarker '.'

end Cursor

end PropertyGraph.Yaml
