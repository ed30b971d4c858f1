import PropertyGraph.Ascending
import PropertyGraph.Hex

/-! Node identifiers: sixteen bytes with one written form and four that are read. -/
namespace PropertyGraph

structure NodeId where
  bytes : List UInt8
  length_eq : bytes.length = 16
  deriving DecidableEq

namespace NodeId

def ofBytes? (bytes : List UInt8) : Option NodeId :=
  if h : bytes.length = 16 then some ⟨bytes, h⟩ else none

/-- Hexadecimal digits in groups of 8, 4, 4, 4 and 12, with hyphens between them. -/
def text (id : NodeId) : String :=
  let group (start size : Nat) := Hex.ofBytes ((id.bytes.drop start).take size)
  .ofList (group 0 4 ++ '-' :: group 4 2 ++ '-' :: group 6 2 ++ '-' :: group 8 2
    ++ '-' :: group 10 6)

instance : ToString NodeId := ⟨text⟩

def ofDigits? (cs : List Char) : Option NodeId := (Hex.bytes? cs).bind ofBytes?

def ofHyphenated? (cs : List Char) : Option NodeId :=
  if cs.length = 36 ∧ [8, 13, 18, 23].all fun i => cs[i]? = some '-' then
    ofDigits? (cs.take 8 ++ (cs.drop 9).take 4 ++ (cs.drop 14).take 4 ++ (cs.drop 19).take 4
      ++ cs.drop 24)
  else none

def ofBraced? : List Char → Option NodeId
  | '\x7b' :: cs => if cs.getLast? = some '\x7d' then ofHyphenated? cs.dropLast else none
  | _ => none

def ofUrn? (cs : List Char) : Option NodeId :=
  if (cs.take 9).map Char.toLower = "urn:uuid:".toList then ofHyphenated? (cs.drop 9) else none

/-- Reads plain digits, hyphenated digits, those in braces, and those behind `urn:uuid:`; digits and
scheme in letters of either case. -/
def ofText? (text : String) : Option NodeId :=
  let cs := text.toList
  ofDigits? cs <|> ofHyphenated? cs <|> ofBraced? cs <|> ofUrn? cs

/-- Identifiers are ordered by their bytes. -/
instance : LT NodeId := ⟨fun a b => a.bytes < b.bytes⟩

instance : DecidableLT NodeId := fun a b => inferInstanceAs (Decidable (a.bytes < b.bytes))

theorem ext_bytes {a b : NodeId} (h : a.bytes = b.bytes) : a = b := by
  cases a; cases b; simp_all

instance : LinearKey NodeId where
  irrefl a := List.lt_irrefl a.bytes
  trans := List.lt_trans
  trichotomy a b := by
    by_cases h : a.bytes < b.bytes
    · exact .inl h
    · by_cases h' : b.bytes < a.bytes
      · exact .inr (.inr h')
      · exact .inr (.inl (ext_bytes (List.le_antisymm (List.not_lt.1 h') (List.not_lt.1 h))))

end NodeId

end PropertyGraph
