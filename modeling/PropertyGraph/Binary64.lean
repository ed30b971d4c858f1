/-! Double-precision numbers by their bits: order, and rounding of exact quotients. -/
namespace PropertyGraph

/-- A double-precision number. Two of them are equal when their bits are, so zero has two forms
and each NaN equals itself. -/
structure Binary64 where
  bits : UInt64
  deriving DecidableEq, Inhabited

namespace Binary64
variable (x y : Binary64)

def negative : Bool := 0x8000000000000000 ≤ x.bits.toNat

/-- All bits but the sign. Numbers of one sign are ordered as their magnitudes are. -/
def magnitude : Nat := x.bits.toNat % 0x8000000000000000

def infinityMagnitude : Nat := 0x7ff0000000000000

def IsNaN : Prop := infinityMagnitude < x.magnitude

def IsFinite : Prop := x.magnitude < infinityMagnitude

instance : Decidable x.IsNaN := inferInstanceAs (Decidable (_ < _))

instance : Decidable x.IsFinite := inferInstanceAs (Decidable (_ < _))

/-- The place among all numbers; both zeros have the same. -/
def rank : Int := if x.negative then -x.magnitude else x.magnitude

/-- A NaN has no order. -/
def compare? : Option Ordering :=
  if x.IsNaN ∨ y.IsNaN then none else some (compare x.rank y.rank)

def ofMagnitude (negative : Bool) (magnitude : Nat) : Binary64 :=
  ⟨.ofNat (magnitude + if negative then 0x8000000000000000 else 0)⟩

/-- The integer nearest to a quotient; halfway the even one. -/
def roundDiv (num den : Nat) : Nat :=
  let q := num / den
  let r := num % den
  if 2 * r < den then q
  else if den < 2 * r then q + 1
  else q + q % 2

/-- The greatest `e` with `2 ^ e ≤ num / den`. -/
def floorLog2 (num den : Nat) : Int :=
  let e : Int := num.log2 - den.log2
  if num <<< (-e).toNat < den <<< e.toNat then e - 1 else e

/-- The magnitude nearest to a quotient. With `2 ^ q` the unit in the last place, the quotient is
rounded to `m` units, and `m` adds itself to the exponent below it also when it carries over. -/
def nearestMagnitude (num den : Nat) : Nat :=
  if num = 0 then 0
  else
    let q := max (floorLog2 num den - 52) (-1074)
    let m := roundDiv (num <<< (-q).toNat) (den <<< q.toNat)
    min ((q + 1074).toNat <<< 52 + m) infinityMagnitude

def ofRatio (negative : Bool) (num den : Nat) : Binary64 :=
  ofMagnitude negative (nearestMagnitude num den)

/-- The nearest number; integers up to `2 ^ 53` are kept exactly. -/
def ofInt (i : Int) : Binary64 := ofRatio (i < 0) i.natAbs 1

/-- The number nearest to `digits * 10 ^ exponent`. Exponents far outside the range are decided by
size alone, since the power itself would be too long to write down. -/
def ofDecimal (negative : Bool) (digits : Nat) (exponent : Int) : Binary64 :=
  if digits = 0 ∨ digits.log2 + 1 + 3 * exponent < -1076 ∧ exponent < 0 then ofMagnitude negative 0
  else if 1024 < digits.log2 + 3 * exponent ∧ 0 < exponent then
    ofMagnitude negative infinityMagnitude
  else ofRatio negative (digits * .pow 10 exponent.toNat) (.pow 10 (-exponent).toNat)

/-- The same number from single precision. A NaN keeps its payload and becomes quiet. -/
def widen (bits : UInt32) : Binary64 :=
  let n := bits.toNat
  let negative : Bool := 0x80000000 ≤ n
  let field := n >>> 23 % 0x100
  let fraction := n % 0x800000
  if field = 255 then
    let quiet := if fraction ≠ 0 ∧ fraction < 0x400000 then 0x400000 else 0
    ofMagnitude negative (infinityMagnitude + (fraction + quiet) <<< 29)
  else
    let m := if field = 0 then fraction else fraction + 0x800000
    let e : Int := (max field 1 : Nat) - 150
    ofRatio negative (m <<< e.toNat) (1 <<< (-e).toNat)

end Binary64

end PropertyGraph
