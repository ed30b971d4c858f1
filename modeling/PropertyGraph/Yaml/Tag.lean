import PropertyGraph.Hex
import PropertyGraph.Yaml.Cursor

/-! Tags and directives. Neither changes a value, but each has a form to keep. -/
namespace PropertyGraph.Yaml

namespace Tag

def isUriChar (c : Char) : Bool :=
  c.isAlphanum || "-#;/?:@&=+$,_.!~*'()[]%".toList.contains c

def isTagChar (c : Char) : Bool := isUriChar c && !isFlowMark c && c != '!'

/-- The bytes that belong to a character, told by the first of them. -/
def byteCount? (byte : Nat) : Option Nat :=
  if byte < 0x80 then some 1
  else if 0xc0 ≤ byte && byte < 0xe0 then some 2
  else if 0xe0 ≤ byte && byte < 0xf0 then some 3
  else if 0xf0 ≤ byte && byte < 0xf8 then some 4
  else none

def escapedByte? (c : Cursor) : Option Nat := do
  if c.head != '%' then none
  else
    let hi ← Hex.digit? (c.peek 1)
    let lo ← Hex.digit? (c.peek 2)
    some (16 * hi + lo)

def escapedRest? : Nat → Nat → Cursor → Option (Nat × Cursor)
  | 0, code, c => some (code, c)
  | n + 1, code, c => do
    let byte ← escapedByte? c
    if byte / 64 = 2 then escapedRest? n (256 * code + byte) (c.advance 3) else none

/-- Behind the escaped bytes of one character; their bytes as a number have to be one. -/
def escape? (c : Cursor) : Option Cursor := do
  let byte ← escapedByte? c
  let n ← byteCount? byte
  let (code, c) ← escapedRest? (n - 1) byte (c.advance 3)
  if code.isValidChar then some c else none

/-- Behind the characters that `p` holds of, in which a percent sign escapes bytes. -/
def uri? (p : Char → Bool) : Nat → Cursor → Option Cursor
  | 0, c => some c
  | fuel + 1, c =>
    if !p c.head then some c
    else if c.head == '%' then do uri? p fuel (← escape? c)
    else uri? p fuel c.skip

/-- A handle with a name between exclamation marks, and the place behind it. -/
def handle (c : Cursor) : String × Cursor :=
  let (name, c') := c.skip.span isNameChar
  if c'.head == '!' then (.ofList ('!' :: name ++ ['!']), c'.skip)
  else (.ofList ('!' :: name), c')

def isNamed (handle : String) : Bool :=
  1 < handle.length && handle.toList.getLast? == some '!'

/-- The handle of the tag at a place, if it has to be declared, and the place behind the tag. -/
def read? (flow : Bool) (c : Cursor) : Option (Option String × Cursor) := do
  let size := c.rest.length
  let (name, c) ←
    if c.peek 1 == '<' then do
      let c ← uri? isUriChar size (c.advance 2)
      if c.head == '>' then some (none, c.skip) else none
    else do
      let (name, c') := handle c
      let behind ← uri? isTagChar size c'
      if !isNamed name then some (none, behind)
      else if behind.index = c'.index then none
      else some (if name == "!!" then none else some name, behind)
  if endsWord c.head || (flow && isFlowMark c.head) then some (name, c) else none

end Tag

namespace Directive

/-- One to nine digits. -/
def number? (c : Cursor) : Option Cursor :=
  let (digits, c) := c.span Char.isDigit
  if digits.isEmpty || 9 < digits.length then none else some c

def version? (c : Cursor) : Option Cursor := do
  let c ← number? c.skipBlanks
  if c.head == '.' then number? c.skip else none

/-- The handle that a directive declares. -/
def tag? (c : Cursor) : Option (String × Cursor) := do
  let c := c.skipBlanks
  if c.head != '!' then none
  else
    let (name, c) := Tag.handle c
    if name != "!" && !Tag.isNamed name then none
    else
      let c := c.skipBlanks
      let size := c.rest.length
      let c ←
        if c.head == '!' then Tag.uri? Tag.isUriChar size c.skip
        else if Tag.isTagChar c.head then Tag.uri? Tag.isUriChar size c
        else none
      if endsWord c.head then some (name, c) else none

/-- A directive: none for the version, or the handle that it declares, which is empty for
directives of no meaning. -/
def read? (c : Cursor) : Option (Option String × Cursor) := do
  let (name, c) := c.skip.span isNameChar
  if name.isEmpty || !endsWord c.head then none
  else
    let (declared, c) ←
      if name == "YAML".toList then (version? c).map (none, ·)
      else if name == "TAG".toList then (tag? c).map fun (handle, c) => (some handle, c)
      else some (some "", c.skipLine)
    let (_, c) ← c.inlineEnd?
    if isBreak c.head then some (declared, c.skipBreak)
    else if c.atEnd then some (declared, c)
    else none

end Directive

end PropertyGraph.Yaml
