import PropertyGraph.Ascending
import PropertyGraph.Binary64

/-! JSON documents, with integers and fractions apart and members in the order of their keys. -/
namespace PropertyGraph

/-- A number as a document holds it: the first form that fits, so each number has one form. -/
inductive Json.Number
  | int (value : Int64)
  | large (value : UInt64) (above : 0x8000000000000000 ≤ value.toNat)
  | float (value : Binary64) (finite : value.IsFinite)
  deriving DecidableEq

inductive Json
  | null
  | bool (value : Bool)
  | num (value : Json.Number)
  | str (value : String)
  | arr (items : List Json)
  | obj (members : Ascending String Json none)

namespace Json

instance : Inhabited Json := ⟨null⟩

/-- A float as a document can hold it; documents have no text for infinities and NaN. -/
def ofBinary64 (x : Binary64) : Json :=
  if h : x.IsFinite then num (.float x h) else null

namespace Number

/-- An integer in the narrowest form that holds it, at last as the nearest float. -/
def ofInt? (i : Int) : Option Number :=
  if -0x8000000000000000 ≤ i ∧ i < 0x8000000000000000 then some (.int (.ofInt i))
  else if h : 0x8000000000000000 ≤ i ∧ i < 0x10000000000000000 then
    some (.large (.ofNat i.toNat) (by
      rw [UInt64.toNat_ofNat_of_lt' (by simp only [UInt64.size]; omega)]
      omega))
  else
    let x := Binary64.ofInt i
    if hx : x.IsFinite then some (.float x hx) else none

/-- The number nearest to `±digits * 10 ^ exponent`. -/
def ofDecimal? (negative : Bool) (digits : Nat) (exponent : Int) : Option Number :=
  let x := Binary64.ofDecimal negative digits exponent
  if hx : x.IsFinite then some (.float x hx) else none

end Number

end Json

end PropertyGraph
