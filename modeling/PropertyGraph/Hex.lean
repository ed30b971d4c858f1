/-! Bytes as pairs of hexadecimal digits. -/
namespace PropertyGraph.Hex

/-- Digits of either case are read. -/
def digit? (c : Char) : Option Nat :=
  if '0' ≤ c ∧ c ≤ '9' then some (c.toNat - '0'.toNat)
  else if 'a' ≤ c ∧ c ≤ 'f' then some (c.toNat - 'a'.toNat + 10)
  else if 'A' ≤ c ∧ c ≤ 'F' then some (c.toNat - 'A'.toNat + 10)
  else none

/-- Digits are written in lower case. -/
def digit (n : Nat) : Char :=
  if n < 10 then .ofNat ('0'.toNat + n) else .ofNat ('a'.toNat + (n - 10))

def ofByte (b : UInt8) : List Char := [digit (b.toNat / 16), digit (b.toNat % 16)]

def ofBytes (bs : List UInt8) : List Char := bs.flatMap ofByte

def bytes? : List Char → Option (List UInt8)
  | [] => some []
  | [_] => none
  | a :: b :: cs => do
    let hi ← digit? a
    let lo ← digit? b
    let rest ← bytes? cs
    some (.ofNat (16 * hi + lo) :: rest)

end PropertyGraph.Hex
