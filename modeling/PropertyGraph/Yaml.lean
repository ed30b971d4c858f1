/-! YAML documents as trees of scalars, lists and mappings. -/
namespace PropertyGraph

/-- Plain scalars are kept apart from those in quotes or blocks. Entries of a mapping stay as they
are written, so a repeated key can be told. -/
inductive Yaml
  | plain (text : String)
  | quoted (text : String)
  | seq (items : List Yaml)
  | mapping (entries : List (Yaml × Yaml))

namespace Yaml

instance : Inhabited Yaml := ⟨plain "~"⟩

def text? : Yaml → Option String
  | plain text | quoted text => some text
  | _ => none

/-- Where a value may be missing, its null may also stand in quotes. -/
def isNull (y : Yaml) : Bool := y.text?.any fun text => text = "~" || text = "null"

def flag? : Yaml → Option Bool
  | plain "true" => some true
  | plain "false" => some false
  | _ => none

/-- Decimal digits, which a plus sign may precede. -/
def digits? (cs : List Char) : Option Nat :=
  let digits := if cs.head? = some '+' then cs.drop 1 else cs
  if !digits.isEmpty && digits.all Char.isDigit then
    some (digits.foldl (fun n c => 10 * n + (c.toNat - '0'.toNat)) 0)
  else none

/-- A plain number of 64 bits without a sign of its own. -/
def word? : Yaml → Option UInt64
  | plain text => do
    let n ← digits? text.toList
    if n < 0x10000000000000000 then some (.ofNat n) else none
  | _ => none

/-- The scalars that look like numbers and have no value. -/
def unreadable : List String := [
  ".inf", ".Inf", ".INF", "+.inf", "+.Inf", "+.INF", "-.inf", "-.Inf", "-.INF", ".nan", ".NAN"]

mutual

/-- Also what nobody asks for is read, and its numbers need a value, in quotes too. -/
def isReadable : Yaml → Bool
  | plain text | quoted text => !unreadable.contains text
  | seq items => areReadable items
  | mapping entries => entriesReadable entries

def areReadable : List Yaml → Bool
  | [] => true
  | y :: ys => y.isReadable && areReadable ys

def entriesReadable : List (Yaml × Yaml) → Bool
  | [] => true
  | (k, y) :: rest => k.isReadable && y.isReadable && entriesReadable rest

end

end Yaml

end PropertyGraph
