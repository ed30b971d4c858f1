import PropertyGraph.Hex
import PropertyGraph.Json

/-! Reading JSON text. Of members with the same key the last one stays. -/
namespace PropertyGraph.Json.Reader

def skipBlank (cs : List Char) : List Char :=
  cs.dropWhile fun c => c = ' ' ∨ c = '\n' ∨ c = '\r' ∨ c = '\t'

def digitsValue (cs : List Char) : Nat :=
  cs.foldl (fun n c => 10 * n + (c.toNat - '0'.toNat)) 0

def unit? (a b c d : Char) : Option Nat := do
  let ns ← [a, b, c, d].mapM Hex.digit?
  some (ns.foldl (fun n digit => 16 * n + digit) 0)

def escaped? : Char → Option Char
  | '"' => some '"'
  | '\\' => some '\\'
  | '/' => some '/'
  | 'b' => some '\x08'
  | 'f' => some '\x0c'
  | 'n' => some '\n'
  | 'r' => some '\r'
  | 't' => some '\t'
  | _ => none

/-- The rest of a string, up to its closing quote; `acc` holds what is read, last first.
Characters beyond the first plane may be written as two escaped units, which never stand alone. -/
def string? (acc : List Char) : List Char → Option (String × List Char)
  | [] => none
  | '"' :: cs => some (.ofList acc.reverse, cs)
  | '\\' :: 'u' :: a :: b :: c :: d :: cs => do
    let u ← unit? a b c d
    if 0xd800 ≤ u ∧ u < 0xdc00 then
      match cs with
      | '\\' :: 'u' :: a' :: b' :: c' :: d' :: cs' => do
        let v ← unit? a' b' c' d'
        if 0xdc00 ≤ v ∧ v < 0xe000 then
          string? (.ofNat (0x10000 + (u - 0xd800) * 0x400 + (v - 0xdc00)) :: acc) cs'
        else none
      | _ => none
    else if 0xdc00 ≤ u ∧ u < 0xe000 then none
    else string? (.ofNat u :: acc) cs
  | '\\' :: c :: cs => do string? ((← escaped? c) :: acc) cs
  | c :: cs => if c.toNat < 0x20 then none else string? (c :: acc) cs

/-- Digits without a leading zero, or a single zero. -/
def whole? (cs : List Char) : Option (List Char × List Char) :=
  match cs.span Char.isDigit with
  | ([], _) => none
  | ('0' :: _ :: _, _) => none
  | split => some split

/-- The digits behind a point; none if there is no point. -/
def fraction? : List Char → Option (List Char × List Char)
  | '.' :: cs =>
    match cs.span Char.isDigit with
    | ([], _) => none
    | split => some split
  | cs => some ([], cs)

def exponentDigits? (sign : Int) (cs : List Char) : Option (Option Int × List Char) :=
  match cs.span Char.isDigit with
  | ([], _) => none
  | (ds, rest) => some (some (sign * digitsValue ds), rest)

def exponent? : List Char → Option (Option Int × List Char)
  | e :: cs =>
    if e = 'e' ∨ e = 'E' then
      match cs with
      | '+' :: cs' => exponentDigits? 1 cs'
      | '-' :: cs' => exponentDigits? (-1) cs'
      | cs' => exponentDigits? 1 cs'
    else some (none, e :: cs)
  | [] => some (none, [])

/-- A number without point and exponent is an integer, except that a zero keeps its sign. -/
def number? (cs : List Char) : Option (Number × List Char) := do
  let (negative, cs) := match cs with
    | '-' :: cs' => (true, cs')
    | cs' => (false, cs')
  let (ws, cs) ← whole? cs
  let (fs, cs') ← fraction? cs
  let (e, rest) ← exponent? cs'
  let n := digitsValue (ws ++ fs)
  let value ←
    if fs.isEmpty ∧ e.isNone ∧ ¬ (negative ∧ n = 0) then
      Number.ofInt? (if negative then -n else n)
    else Number.ofDecimal? negative n (e.getD 0 - fs.length)
  some (value, rest)

def expect? (word : String) (value : Json) (cs : List Char) : Option (Json × List Char) :=
  if word.toList.isPrefixOf cs then some (value, cs.drop word.length) else none

mutual

def value? : Nat → List Char → Option (Json × List Char)
  | 0, _ => none
  | fuel + 1, cs =>
    match skipBlank cs with
    | '"' :: cs => (string? [] cs).map fun (s, rest) => (.str s, rest)
    | '{' :: cs =>
      match skipBlank cs with
      | '}' :: rest => some (.obj ∅, rest)
      | cs => members? fuel ∅ cs
    | '[' :: cs =>
      match skipBlank cs with
      | ']' :: rest => some (.arr [], rest)
      | cs => elements? fuel [] cs
    | 't' :: cs => expect? "rue" (.bool true) cs
    | 'f' :: cs => expect? "alse" (.bool false) cs
    | 'n' :: cs => expect? "ull" .null cs
    | cs => (number? cs).map fun (n, rest) => (.num n, rest)

def elements? : Nat → List Json → List Char → Option (Json × List Char)
  | 0, _, _ => none
  | fuel + 1, acc, cs => do
    let (v, cs) ← value? fuel cs
    match skipBlank cs with
    | ',' :: cs => elements? fuel (v :: acc) cs
    | ']' :: rest => some (.arr (v :: acc).reverse, rest)
    | _ => none

def members? : Nat → OrderedMap String Json → List Char → Option (Json × List Char)
  | 0, _, _ => none
  | fuel + 1, acc, cs =>
    match skipBlank cs with
    | '"' :: cs => do
      let (k, cs) ← string? [] cs
      match skipBlank cs with
      | ':' :: cs => do
        let (v, cs) ← value? fuel cs
        match skipBlank cs with
        | ',' :: cs => members? fuel (acc.insert k v) cs
        | '}' :: rest => some (.obj (acc.insert k v), rest)
        | _ => none
      | _ => none
    | _ => none

end

end Reader

/-- The document that a text holds, and nothing beside it. No step is taken without a character,
and no character takes more than two. -/
def parse? (text : String) : Option Json := do
  let cs := text.toList
  let (v, rest) ← Reader.value? (2 * cs.length + 2) cs
  if (Reader.skipBlank rest).isEmpty then some v else none

end PropertyGraph.Json
