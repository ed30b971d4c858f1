import PropertyGraph.Yaml.Scalar.Block
import PropertyGraph.Yaml.Scalar.Plain
import PropertyGraph.Yaml.Scalar.Quoted
import PropertyGraph.Yaml.Tag
import PropertyGraph.Yaml.Token

/-! Cutting a YAML text into tokens. Indentation becomes tokens of its own, and a node turns out
to be a key only at the colon behind it. -/
namespace PropertyGraph.Yaml

/-- An indentation that is left again. -/
structure Indent where
  /-- The indentation outside. -/
  outer : Int
  /-- It belongs to a block collection, and not only to a value on lines of its own. -/
  block : Bool

/-- A node that may turn out to be a key. -/
structure Candidate where
  /-- The number of its first token. -/
  number : Nat
  /-- Nothing but a key can stand there. -/
  required : Bool
  place : Cursor

structure Scanner where
  cursor : Cursor
  /-- Tokens that a later colon can still put a key before. -/
  queue : List Token := []
  /-- The column of the last token in the queue. -/
  lastColumn : Nat := 0
  delivered : Nat := 0
  /-- The candidate of the block, and of each flow collection that is open, the innermost first. -/
  candidates : List (Option Candidate) := [none]
  keyAllowed : Bool := true
  indent : Int := -1
  indents : List Indent := []
  /-- The flow collections that are open. -/
  flow : Nat := 0
  /-- Behind a quoted or bracketed key a colon needs no blank. -/
  adjacent : Nat := 0
  /-- In flow collections a mapping has been opened by its own mark. -/
  mappingMarked : Bool := false
  /-- The last colon has opened a mapping of one entry without marks of its own, and it is not
  ended yet. Those opened before are not kept in mind, so they are never ended. -/
  pair : Bool := false

namespace Scanner
variable (s : Scanner)

def inFlow : Bool := 0 < s.flow

def push (t : Token) : Scanner :=
  { s with queue := s.queue ++ [t], lastColumn := s.cursor.column }

/-- Puts a token before the one with a number. -/
def insert (number : Nat) (t : Token) : Scanner :=
  { s with queue := s.queue.insertIdx (number - s.delivered) t }

/-- A key in the block stays on one line and is no longer than 1024 characters. -/
def isStale (k : Candidate) : Bool :=
  !s.inFlow && (k.place.line < s.cursor.line || k.place.index + 1024 < s.cursor.index)

def dropStale? : Option Scanner :=
  if s.candidates.any fun k => k.any fun k => s.isStale k && k.required then none
  else some { s with candidates := s.candidates.map fun k => k.filter (!s.isStale ·) }

/-- The innermost node turned out to be no key. -/
def dropCandidate? : Option Scanner :=
  match s.candidates with
  | some k :: rest => if k.required then none else some { s with candidates := none :: rest }
  | _ => some s

def inBlock : Bool := s.indents.head?.any (·.block)

/-- Notes that the node at the cursor may be a key. -/
def saveCandidate : Scanner :=
  if s.keyAllowed then
    { s with
      candidates := some {
          number := s.delivered + s.queue.length
          required := !s.inFlow && s.indent == s.cursor.column && s.inBlock
          place := s.cursor } :: s.candidates.drop 1 }
  else s

/-- Leaves the collections that are indented further than a column. -/
def unroll (column : Int) : Scanner :=
  if s.inFlow then s
  else
    let rec leave (indent : Int) : List Indent → List Token → Int × List Indent × List Token
      | [], ended => (indent, [], ended)
      | i :: rest, ended =>
        if column < indent then leave i.outer rest (if i.block then .blockEnd :: ended else ended)
        else (indent, i :: rest, ended)
    let (indent, indents, ended) := leave s.indent s.indents []
    { s with
      indent, indents
      queue := s.queue ++ ended
      lastColumn := if ended.isEmpty then s.lastColumn else s.cursor.column }

/-- Leaves the indentations that belong to no collection. -/
def unrollValues : Scanner :=
  let rec leave (indent : Int) : List Indent → Int × List Indent
    | [] => (indent, [])
    | i :: rest => if i.block then (indent, i :: rest) else leave i.outer rest
  let (indent, indents) := leave s.indent s.indents
  { s with indent, indents }

/-- Enters a block collection, if none is open at the column. -/
def roll (column : Nat) (number : Option Nat) (t : Token) : Scanner :=
  if s.inFlow then s
  else
    let s :=
      match s.indents with
      | i :: rest =>
        if s.indent ≤ (column : Int) && !i.block then { s with indent := i.outer, indents := rest }
        else s
      | [] => s
    if s.indent < (column : Int) then
      let s := { s with
        indents := { outer := s.indent, block := true } :: s.indents
        indent := column }
      match number with
      | some n => s.insert n t
      | none => s.push t
    else s

/-- A value on lines of its own is indented by one more column. -/
def rollValue : Scanner :=
  if !s.inFlow && s.inBlock then
    { s with indents := { outer := s.indent, block := false } :: s.indents, indent := s.indent + 1 }
  else s

/-- Behind blanks, breaks and comments. Blocks are not indented with tabs. -/
def skipGap? : Nat → Scanner → Option Scanner
  | 0, _ => none
  | fuel + 1, s =>
    let c := s.cursor
    if c.head == '\t' && !s.indents.isEmpty && c.margin && c.column < s.indent then do
      let (_, c) ← c.inlineEnd?
      if endsLine c.head then skipGap? fuel { s with cursor := c } else none
    else if isBlank c.head then skipGap? fuel { s with cursor := c.skipBlank }
    else if isBreak c.head then
      skipGap? fuel { s with cursor := c.skipBreak, keyAllowed := s.keyAllowed || !s.inFlow }
    else if c.head == '#' then skipGap? fuel { s with cursor := c.skipLine }
    else some s

def skipSpace? : Option Scanner := s.skipGap? (s.cursor.rest.length + 1)

/-- Moves on behind a token and the blanks after it. -/
def skipInline? (n : Nat) : Option Scanner := do
  let (_, c) ← (s.cursor.advance n).inlineEnd?
  some { s with cursor := c }

def textEnd? : Option Scanner :=
  if s.candidates.any fun k => k.any (·.required) then none
  else
    let s := { s with candidates := s.candidates.map fun _ => none, keyAllowed := false }
    some ((s.unroll (-1)).push .textEnd)

def directive? : Option Scanner := do
  let s ← (s.unroll (-1)).dropCandidate?
  let (declared, c) ← Directive.read? s.cursor
  let s := s.push (match declared with
    | none => .version
    | some handle => .declaration handle)
  some { s with cursor := c, keyAllowed := false }

/-- Nothing but a comment follows the end of a document on its line. -/
def boundary? : Option Scanner := do
  let s ← (s.unroll (-1)).dropCandidate?
  let start := s.cursor.head == '-'
  let s := s.push (if start then .documentStart else .documentEnd)
  let s := { s with cursor := s.cursor.advance 3, keyAllowed := false }
  if start then some s
  else
    let s ← s.skipInline? 0
    if endsLine s.cursor.head then some s else none

/-- The deepest nesting of flow collections. -/
def maxFlow : Nat := 255

def flowStart? (t : Token) : Option Scanner := do
  let s := s.saveCandidate.rollValue
  if s.flow = maxFlow then none
  else
    let s := { s with
      candidates := none :: s.candidates
      flow := s.flow + 1
      keyAllowed := true
      mappingMarked := s.mappingMarked || t == Token.flowMapping }
    some ((← s.skipInline? 1).push t)

/-- Ends the mapping of one entry that is open. -/
def endPair : Scanner :=
  if s.pair then { s.push .flowMappingEnd with mappingMarked := false, pair := false } else s

def flowEnd? (t : Token) : Option Scanner := do
  let s ← s.dropCandidate?
  let s := if s.inFlow then { s with flow := s.flow - 1, candidates := s.candidates.drop 1 } else s
  let s := { s with keyAllowed := false }
  let s ← (if t == .flowSequenceEnd then s.endPair else s).skipInline? 1
  some ({ s with adjacent := if s.inFlow then s.cursor.index else s.adjacent }.push t)

def flowEntry? : Option Scanner := do
  let s ← s.dropCandidate?
  some ((← { s with keyAllowed := true }.endPair.skipInline? 1).push .flowEntry)

def blockEntry? : Option Scanner := do
  let c := s.cursor
  if s.inFlow || !s.keyAllowed then none
  else if c.column == 0 && s.lastColumn == 0 && -1 < s.indent
      && s.queue.getLast?.any (·.isProperty) then none
  else
    let s := s.roll c.column none .blockSequence
    let (blanks, c) ← c.skip.inlineEnd?
    if blanks.contains '\t' && c.head == '-' && endsWord (c.peek 1) then none
    else
      let s := { s with cursor := c }
      let s := if isBreak c.head || isFlowMark c.head then s.rollValue else s
      let s ← s.dropCandidate?
      some ({ s with keyAllowed := true }.push .blockEntry)

/-- Behind the mark of a key; blanks are needed there, and tabs are none. -/
def skipKeyMark? : Nat → Scanner → Option Scanner
  | 0, _ => none
  | fuel + 1, s =>
    let c := s.cursor
    if c.head == ' ' then skipKeyMark? fuel { s with cursor := c.skipBlank }
    else if isBreak c.head then
      skipKeyMark? fuel { s with cursor := c.skipBreak, keyAllowed := s.keyAllowed || !s.inFlow }
    else if c.head == '#' then skipKeyMark? fuel { s with cursor := c.skipLine }
    else if c.head == '\t' then none
    else some s

def key? : Option Scanner := do
  let s ←
    if s.inFlow then some { s with mappingMarked := true }
    else if s.keyAllowed then some (s.roll s.cursor.column none .blockMapping)
    else none
  let s ← s.dropCandidate?
  let c := s.cursor.skip
  if c.head != ' ' && !isBreak c.head then none
  else
    let s ← { s with cursor := c, keyAllowed := !s.inFlow }.skipKeyMark? (c.rest.length + 1)
    some (s.push .key)

/-- Behind a colon; a tab alone does not set off what follows. -/
def skipColon? : Option Scanner := do
  let c := s.cursor.skip
  if c.head == '\t' then
    let (blanks, c) ← c.inlineEnd?
    if !blanks.contains ' ' && (c.head == '-' || isNameChar c.head) then none
    else some { s with cursor := c }
  else some { s with cursor := c }

/-- A colon behind a node that can be a key makes it one. -/
def simpleValue? (k : Candidate) (pair : Bool) (line : Nat) : Option Scanner :=
  if pair && k.place.line < line then none
  else
    let s := s.insert k.number .key
    let s := if pair then s.insert k.number .flowMapping else s
    let s := (s.roll k.place.column (some k.number) .blockMapping).rollValue
    some { s with candidates := none :: s.candidates.drop 1, keyAllowed := false }

/-- Any other colon is the value of a key that is marked or empty. -/
def complexValue? (pair : Bool) (column : Nat) : Option Scanner :=
  let s := if pair then s.push .flowMapping else s
  if s.inFlow then some { s with keyAllowed := false }
  else if s.keyAllowed then some (s.roll column none .blockMapping).rollValue
  else none

def value? : Option Scanner := do
  let c := s.cursor
  let pair := s.inFlow && !s.mappingMarked
  let s ← { s with pair }.skipColon?
  let s ← match s.candidates.head?.join with
    | some k => s.simpleValue? k pair c.line
    | none => s.complexValue? pair c.column
  some (s.push .value)

def property? (t : Token) (c : Cursor) : Scanner :=
  { { s.saveCandidate with keyAllowed := false }.push t with cursor := c }

def anchor? (t : String → Token) : Option Scanner :=
  let (name, c) := s.cursor.skip.span fun c => !endsWord c && !isFlowMark c && c != '\ufeff'
  if name.isEmpty then none else some (s.property? (t (.ofList name)) c)

def tag? : Option Scanner := do
  let (handle, c) ← Tag.read? s.inFlow s.cursor
  some (s.property? (.tag handle) c)

def block? : Option Scanner := do
  let s := { s.saveCandidate with keyAllowed := true }.unrollValues
  let (text, c) ← Block.read? s.indent s.cursor
  some ({ s with cursor := c }.push (.quoted text))

def quoted? : Option Scanner := do
  let s := { s.saveCandidate with keyAllowed := false }
  let (text, c) ← Quoted.read? s.inFlow s.indent s.cursor
  let s ← { s with cursor := c }.skipSpace?
  some ({ s with adjacent := s.cursor.index }.push (.quoted text))

def plain? : Option Scanner := do
  let s := { s.saveCandidate with keyAllowed := false }.unrollValues
  let (text, c) ← Plain.read? s.inFlow (s.indent + 1) s.cursor
  some ({ s with cursor := c, keyAllowed := c.margin }.push (.plain text))

/-- The tokens that the character at the cursor starts. -/
def content? : Option Scanner :=
  let c := s.cursor
  let next := c.peek 1
  match c.head with
  | '[' => s.flowStart? .flowSequence
  | '\x7b' => s.flowStart? .flowMapping
  | ']' => s.flowEnd? .flowSequenceEnd
  | '\x7d' => s.flowEnd? .flowMappingEnd
  | ',' => s.flowEntry?
  | '*' => s.anchor? .alias
  | '&' => s.anchor? .anchor
  | '!' => s.tag?
  | '\'' | '"' => s.quoted?
  | '%' | '@' | '\x60' => none
  | '-' => if endsWord next then s.blockEntry? else s.plain?
  | '?' => if endsWord next then s.key? else s.plain?
  | ':' =>
    if endsWord next || (s.inFlow && (isFlowMark next || c.index == s.adjacent)) then s.value?
    else s.plain?
  | '|' | '>' => if s.inFlow then s.plain? else s.block?
  | _ => s.plain?

/-- Cuts off the next token, together with those that its indentation ends or starts. No token
stands left of the indentation, not even a comma or a closing mark. -/
def step? : Option Scanner := do
  let s ← s.skipSpace?
  let s ← s.dropStale?
  let s := s.unroll s.cursor.column
  let c := s.cursor
  if c.atEnd then s.textEnd?
  else if c.column == 0 && c.head == '%' then s.directive?
  else if c.isBoundary then s.boundary?
  else if c.column < s.indent then none
  else s.content?

/-- The first token of the queue may still become a key. -/
def isOpen : Bool := s.candidates.any fun k => k.any (·.number == s.delivered)

/-- The tokens up to the end of the text, or up to where it cannot be cut any further. -/
def tokens : Nat → Scanner → List Token
  | 0, _ => []
  | fuel + 1, s =>
    match s.queue with
    | [] =>
      match s.step? with
      | some s => tokens fuel s
      | none => []
    | t :: rest =>
      match s.dropStale? with
      | none => []
      | some s =>
        if s.isOpen then
          match s.step? with
          | some s => tokens fuel s
          | none => []
        else if t == .textEnd then [t]
        else t :: tokens fuel { s with queue := rest, delivered := s.delivered + 1 }

end Scanner

/-- The tokens of a text. Where the text is at fault the end of the text is missing. No character
makes more than a few tokens. -/
def Token.ofText (text : String) : List Token :=
  let cursor := Cursor.ofText text
  Scanner.tokens (8 * cursor.rest.length + 16) { cursor }

end PropertyGraph.Yaml
