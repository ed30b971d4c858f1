import PropertyGraph.Ascending
import PropertyGraph.Error

/-! Property names: paths of segments joined by dots. -/
namespace PropertyGraph

/-- The pieces between dots; there is always one. -/
def splitDots : List Char → List (List Char)
  | [] => [[]]
  | c :: cs =>
    if c = '.' then [] :: splitDots cs
    else match splitDots cs with
      | [] => [[c]]
      | piece :: pieces => (c :: piece) :: pieces

def segmentsOf (text : String) : List String := (splitDots text.toList).map .ofList

/-- A key that can be addressed as one segment of a path. A leading dollar sign is kept for
operators. -/
def IsSegment (key : String) : Prop :=
  key ≠ "" ∧ '.' ∉ key.toList ∧ key.toList.head? ≠ some '$'

instance (key : String) : Decidable (IsSegment key) :=
  inferInstanceAs (Decidable (_ ∧ _ ∧ _))

/-- A path of one or more segments, at most 255 bytes long as text. -/
structure PropertyName where
  text : String
  length_le : text.utf8ByteSize ≤ 255
  segments_valid : ∀ s ∈ segmentsOf text, IsSegment s
  deriving DecidableEq

namespace PropertyName

def segments (name : PropertyName) : List String := segmentsOf name.text

/-- The length is checked before the segments. -/
def ofText (text : String) : Except RequestError PropertyName :=
  if text.utf8ByteSize = 0 then .error .nameLength
  else if h : text.utf8ByteSize ≤ 255 then
    if hs : ∀ s ∈ segmentsOf text, IsSegment s then .ok ⟨text, h, hs⟩
    else .error (.name text)
  else .error .nameLength

/-- Names are ordered by their text. -/
instance : LT PropertyName := ⟨fun a b => a.text < b.text⟩

instance : DecidableLT PropertyName := fun a b => inferInstanceAs (Decidable (a.text < b.text))

theorem ext_text {a b : PropertyName} (h : a.text = b.text) : a = b := by
  cases a; cases b; simp_all

instance : LinearKey PropertyName where
  irrefl a := LinearKey.irrefl a.text
  trans {a b c} := LinearKey.trans (a := a.text) (b := b.text) (c := c.text)
  trichotomy a b := (LinearKey.trichotomy a.text b.text).imp_right (·.imp_left ext_text)

end PropertyName

end PropertyGraph
