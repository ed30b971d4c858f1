/-! Numbers as bytes, the highest first. -/
namespace PropertyGraph.BigEndian

/-- How many numbers `width` bytes can tell apart. -/
def range (width : Nat) : Nat := 1 <<< (8 * width)

/-- The lowest `width` bytes of a number. -/
def ofNat : Nat → Nat → List UInt8
  | 0, _ => []
  | width + 1, n => .ofNat (n / range width) :: ofNat width n

def toNat (bs : List UInt8) : Nat := bs.foldl (fun n b => 256 * n + b.toNat) 0

end PropertyGraph.BigEndian
