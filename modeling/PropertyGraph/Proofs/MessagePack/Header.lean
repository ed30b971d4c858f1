import Mathlib.Algebra.Group.Nat.Defs
import PropertyGraph.MessagePack.Reader

/-! What a header announces is what it was written for, at every width. -/
namespace PropertyGraph

namespace BigEndian

theorem range_eq (width : Nat) : range width = 256 ^ width := by
  rw [range, Nat.one_shiftLeft, Nat.pow_mul]

@[simp] theorem length_ofNat (width n : Nat) : (ofNat width n).length = width := by
  induction width with
  | zero => rfl
  | succ width ih => simp [ofNat, ih]

/-- What has been read so far stands above the bytes to come. -/
theorem foldl_bytes (bs : List UInt8) (high : Nat) :
    bs.foldl (fun n b => 256 * n + b.toNat) high = 256 ^ bs.length * high + toNat bs := by
  induction bs generalizing high with
  | nil => simp [toNat]
  | cons b bs ih =>
    have hb : toNat (b :: bs) = 256 ^ bs.length * b.toNat + toNat bs := by
      simpa [toNat] using ih (256 * 0 + b.toNat)
    rw [List.foldl_cons, ih, hb, List.length_cons, Nat.pow_succ, Nat.mul_add, Nat.mul_assoc]
    omega

theorem toNat_ofNat (width n : Nat) : toNat (ofNat width n) = n % 256 ^ width := by
  induction width with
  | zero => simp [ofNat, toNat, Nat.mod_one]
  | succ width ih =>
    have hb : (UInt8.ofNat (n / 256 ^ width)).toNat = n / 256 ^ width % 256 := by simp
    rw [ofNat, range_eq, toNat, List.foldl_cons, foldl_bytes, ih, hb, length_ofNat,
      Nat.mod_pow_succ, Nat.mul_zero, Nat.zero_add, Nat.add_comm]

end BigEndian

namespace MessagePack

theorem splitBytes_append (front rest : List UInt8) :
    splitBytes front.length (front ++ rest) = some (front, rest) := by
  induction front with
  | nil => simp [splitBytes]
  | cons b front ih => simp [splitBytes, ih]

theorem readNat_ofNat {width n : Nat} (h : n < 256 ^ width) (rest : List UInt8) :
    readNat width (BigEndian.ofNat width n ++ rest) = some (n, rest) := by
  have hs := splitBytes_append (BigEndian.ofNat width n) rest
  rw [BigEndian.length_ofNat] at hs
  simp [readNat, hs, BigEndian.toNat_ofNat, Nat.mod_eq_of_lt h]

namespace Header

theorem sized_ofNat (make : Nat → Header) {width n : Nat} (h : n < 256 ^ width)
    (rest : List UInt8) :
    sized make width (BigEndian.ofNat width n ++ rest) = some (make n, rest) := by
  simp [sized, readNat_ofNat h]

theorem toNat_marker {n : Nat} (h : n < 0x100) : (UInt8.ofNat n).toNat = n := by
  simp
  omega

theorem read?_fixuint {n : Nat} (h : n < 0x80) (rest : List UInt8) :
    read? (UInt8.ofNat n :: rest) = some (uint n, rest) := by
  simp only [read?, toNat_marker (show n < 0x100 by omega)]
  rw [if_pos h]

theorem read?_fixmap {n : Nat} (h : n < 0x10) (rest : List UInt8) :
    read? (UInt8.ofNat (0x80 + n) :: rest) = some (map n, rest) := by
  simp only [read?, toNat_marker (show 0x80 + n < 0x100 by omega)]
  rw [if_neg (by omega), if_pos (by omega), Nat.add_sub_cancel_left]

theorem read?_fixarr {n : Nat} (h : n < 0x10) (rest : List UInt8) :
    read? (UInt8.ofNat (0x90 + n) :: rest) = some (arr n, rest) := by
  simp only [read?, toNat_marker (show 0x90 + n < 0x100 by omega)]
  rw [if_neg (by omega), if_neg (by omega), if_pos (by omega), Nat.add_sub_cancel_left]

theorem read?_fixstr {n : Nat} (h : n < 0x20) (rest : List UInt8) :
    read? (UInt8.ofNat (0xa0 + n) :: rest) = some (str n, rest) := by
  simp only [read?, toNat_marker (show 0xa0 + n < 0x100 by omega)]
  rw [if_neg (by omega), if_neg (by omega), if_neg (by omega), if_pos (by omega),
    Nat.add_sub_cancel_left]

theorem read?_fixsint {n : Nat} (hn : 0xe0 ≤ n) (h : n < 0x100) (rest : List UInt8) :
    read? (UInt8.ofNat n :: rest) = some (sint 1 n, rest) := by
  simp only [read?, toNat_marker h]
  rw [if_neg (by omega), if_neg (by omega), if_neg (by omega), if_neg (by omega), if_pos hn]

theorem read?_uintBytes {n : Nat} (h : n < 2 ^ 64) (rest : List UInt8) :
    read? (uintBytes n ++ rest) = some (uint n, rest) := by
  unfold uintBytes
  split
  · exact read?_fixuint (by omega) rest
  split
  · exact sized_ofNat uint (by omega) rest
  split
  · exact sized_ofNat uint (by omega) rest
  split
  · exact sized_ofNat uint (by omega) rest
  · exact sized_ofNat uint (by omega) rest

/-- A number is found again from its lowest bytes if it lies in the range of their width. -/
theorem sint_wrapped {width : Nat} {i : Int64} (hl : -(BigEndian.range width : Int) ≤ 2 * i.toInt)
    (hu : 2 * i.toInt < BigEndian.range width) :
    sint width (i.toInt % BigEndian.range width).toNat = leaf (.sint i) := by
  have hr : (BigEndian.range width : Int) ≠ 0 := by omega
  have hn := Int.toNat_of_nonneg (Int.emod_nonneg i.toInt hr)
  rw [sint, hn, Int.emod_bmod, Int.bmod_eq_of_le_mul_two (by omega) (by omega), Int64.ofInt_toInt]

theorem sized_sint {width : Nat} {i : Int64} (hl : -(BigEndian.range width : Int) ≤ 2 * i.toInt)
    (hu : 2 * i.toInt < BigEndian.range width) (rest : List UInt8) :
    sized (sint width) width
        (BigEndian.ofNat width (i.toInt % BigEndian.range width).toNat ++ rest) =
      some (leaf (.sint i), rest) := by
  have hr : (0 : Int) < BigEndian.range width := by omega
  have hlt := Int.emod_lt_of_pos i.toInt hr
  have hn : (i.toInt % BigEndian.range width).toNat < 256 ^ width := by
    rw [← BigEndian.range_eq]
    omega
  rw [sized_ofNat _ hn, sint_wrapped hl hu]

/-- Negative numbers close to zero are their own marker, the others stand in the fewest bytes. -/
theorem read?_sintBytes (i : Int64) (rest : List UInt8) :
    read? (sintBytes i.toInt ++ rest) = some (leaf (.sint i), rest) := by
  have hl := Int64.le_toInt i
  have hu := Int64.toInt_lt i
  have h₁ : BigEndian.range 1 = 0x100 := rfl
  have h₂ : BigEndian.range 2 = 0x10000 := rfl
  have h₄ : BigEndian.range 4 = 0x100000000 := rfl
  have h₈ : BigEndian.range 8 = 0x10000000000000000 := rfl
  unfold sintBytes
  dsimp only
  split
  · have hm : i.toInt % BigEndian.range 1 = i.toInt % 0x100 := by rw [h₁]; rfl
    have hb : BigEndian.ofNat 1 (i.toInt % BigEndian.range 1).toNat =
        [UInt8.ofNat (i.toInt % BigEndian.range 1).toNat] := by
      simp [BigEndian.ofNat, BigEndian.range]
    rw [hb, List.singleton_append, read?_fixsint (by omega) (by omega),
      sint_wrapped (by omega) (by omega)]
  split
  · exact sized_sint (by omega) (by omega) rest
  split
  · exact sized_sint (by omega) (by omega) rest
  split
  · exact sized_sint (by omega) (by omega) rest
  · exact sized_sint (by omega) (by omega) rest

theorem read?_strHeader {n : Nat} (h : n < 2 ^ 32) (rest : List UInt8) :
    read? (strHeader n ++ rest) = some (str n, rest) := by
  unfold strHeader
  split
  · exact read?_fixstr (by omega) rest
  split
  · exact sized_ofNat str (by omega) rest
  split
  · exact sized_ofNat str (by omega) rest
  · exact sized_ofNat str (by omega) rest

theorem read?_binHeader {n : Nat} (h : n < 2 ^ 32) (rest : List UInt8) :
    read? (binHeader n ++ rest) = some (bin n, rest) := by
  unfold binHeader
  split
  · exact sized_ofNat bin (by omega) rest
  split
  · exact sized_ofNat bin (by omega) rest
  · exact sized_ofNat bin (by omega) rest

theorem read?_extHeader {n : Nat} (h : n < 2 ^ 32) (rest : List UInt8) :
    read? (extHeader n ++ rest) = some (ext n, rest) := by
  unfold extHeader
  split
  · exact sized_ofNat ext (by omega) rest
  split
  · exact sized_ofNat ext (by omega) rest
  · exact sized_ofNat ext (by omega) rest

theorem read?_arrHeader {n : Nat} (h : n < 2 ^ 32) (rest : List UInt8) :
    read? (arrHeader n ++ rest) = some (arr n, rest) := by
  unfold arrHeader
  split
  · exact read?_fixarr (by omega) rest
  split
  · exact sized_ofNat arr (by omega) rest
  · exact sized_ofNat arr (by omega) rest

theorem read?_mapHeader {n : Nat} (h : n < 2 ^ 32) (rest : List UInt8) :
    read? (mapHeader n ++ rest) = some (map n, rest) := by
  unfold mapHeader
  split
  · exact read?_fixmap (by omega) rest
  split
  · exact sized_ofNat map (by omega) rest
  · exact sized_ofNat map (by omega) rest

end Header
end MessagePack
end PropertyGraph
