import PropertyGraph.Hex
import PropertyGraph.Yaml.Cursor
import PropertyGraph.Yaml.Scalar.Gap

/-! Scalars in quotes, on one line or more. -/
namespace PropertyGraph.Yaml.Quoted

def escaped? : Char → Option Char
  | '0' => some '\x00'
  | 'a' => some '\x07'
  | 'b' => some '\x08'
  | 't' | '\t' => some '\t'
  | 'n' => some '\n'
  | 'v' => some '\x0b'
  | 'f' => some '\x0c'
  | 'r' => some '\r'
  | 'e' => some '\x1b'
  | ' ' => some ' '
  | '"' => some '"'
  | '/' => some '/'
  | '\\' => some '\\'
  | 'N' => some '\u0085'
  | '_' => some '\u00a0'
  | 'L' => some '\u2028'
  | 'P' => some '\u2029'
  | _ => none

def codePoint? (digits : List Char) : Option Char := do
  let ns ← digits.mapM Hex.digit?
  let n := ns.foldl (fun n d => 16 * n + d) 0
  if n.isValidChar then some (.ofNat n) else none

/-- The number of digits that spell a character. -/
def codeLength? : Char → Option Nat
  | 'x' => some 2
  | 'u' => some 4
  | 'U' => some 8
  | _ => none

/-- The character that a backslash and what follows it stand for. -/
def escape? (c : Cursor) : Option (Char × Cursor) :=
  match codeLength? (c.peek 1) with
  | some n => do
    let digits := (c.rest.drop 2).take n
    if digits.length = n then some ((← codePoint? digits), c.advance (n + 2)) else none
  | none => (escaped? (c.peek 1)).map (·, c.advance 2)

/-- The characters up to a blank, a break or the closing quote. In single quotes a quote is written
twice; in double quotes a backslash escapes what follows it, and at the end of a line the break. -/
def word? (mark : Char) : Nat → List Char → Cursor → Option (List Char × Gap × Cursor)
  | 0, _, _ => none
  | fuel + 1, text, c =>
    if endsWord c.head then some (text, {}, c)
    else if c.head == mark then
      if mark == '\'' && c.peek 1 == mark then word? mark fuel (mark :: text) (c.advance 2)
      else some (text, {}, c)
    else if mark == '"' && c.head == '\\' then
      if isBreak (c.peek 1) then some (text, { broken := true }, c.skip.skipBreak)
      else do
        let (d, c) ← escape? c
        word? mark fuel (d :: text) c
    else word? mark fuel (c.head :: text) c.skip

/-- Lines are not indented with tabs. -/
def gap? (indent : Int) : Nat → Gap → Cursor → Option (Gap × Cursor)
  | 0, _, _ => none
  | fuel + 1, g, c =>
    if isBlank c.head then
      if !g.broken then gap? indent fuel (g.blank c.head) c.skipBlank
      else if c.head == '\t' && c.column < indent then none
      else gap? indent fuel g c.skipBlank
    else if isBreak c.head then
      gap? indent fuel (if g.broken then g.nextBreak else g.firstBreak) c.skipBreak
    else some (g, c)

def words? (mark : Char) (indent : Int) :
    Nat → List Char → Cursor → Option (List Char × Cursor)
  | 0, _, _ => none
  | fuel + 1, text, c =>
    if c.isBoundary || c.atEnd || c.column < indent then none
    else do
      let (text, g, c) ← word? mark (c.rest.length + 1) text c
      if c.head == mark then some (text, c.skip)
      else
        let (g, c) ← gap? indent (c.rest.length + 1) g c
        words? mark indent fuel (g.reversed ++ text) c

/-- Behind a closing quote stands the end of the line, or what ends a key or an entry. -/
def endsWell (flow : Bool) (line : Nat) (c : Cursor) : Bool :=
  endsLine c.head || (flow && [',', '\x7d', ']', ':'].contains c.head)
    || (c.head == ':' && line == c.line)

/-- The scalar whose opening quote is at a place, and the place behind it. -/
def read? (flow : Bool) (indent : Int) (c : Cursor) : Option (String × Cursor) := do
  let (text, c') ← words? c.head indent (c.rest.length + 1) [] c.skip
  let (_, c') ← c'.inlineEnd?
  if endsWell flow c.line c' then some (.ofList text.reverse, c') else none

end PropertyGraph.Yaml.Quoted
