import Mathlib.Algebra.Group.Nat.Defs
import PropertyGraph.Binary64

/-! The places of doubles, and the places to which integers are rounded. -/
namespace PropertyGraph.Binary64

variable {x y : Binary64} {i j : Int} {m n a b : Nat} {s : Bool}

section Rank

/-- Zero in both of its forms. -/
def zero (negative : Bool) : Binary64 := ofMagnitude negative 0

theorem toNat_bits (x : Binary64) :
    x.bits.toNat = x.magnitude + if x.negative then 0x8000000000000000 else 0 := by
  have hx := x.bits.toNat_lt
  simp only [magnitude, negative, decide_eq_true_eq]
  split <;> omega

theorem ext_magnitude (hs : x.negative = y.negative) (hm : x.magnitude = y.magnitude) : x = y := by
  have hb : x.bits.toNat = y.bits.toNat := by rw [toNat_bits x, toNat_bits y, hs, hm]
  cases x
  cases y
  exact congrArg mk (UInt64.toNat_inj.mp hb)

theorem toNat_bits_ofMagnitude (hm : m ≤ infinityMagnitude) :
    (ofMagnitude s m).bits.toNat = m + if s then 0x8000000000000000 else 0 := by
  apply UInt64.toNat_ofNat_of_lt'
  simp only [infinityMagnitude, UInt64.size] at *
  split <;> omega

theorem magnitude_ofMagnitude (hm : m ≤ infinityMagnitude) : (ofMagnitude s m).magnitude = m := by
  rw [magnitude, toNat_bits_ofMagnitude hm]
  simp only [infinityMagnitude] at hm
  split <;> omega

theorem negative_ofMagnitude (hm : m ≤ infinityMagnitude) : (ofMagnitude s m).negative = s := by
  rw [negative, toNat_bits_ofMagnitude hm]
  simp only [infinityMagnitude] at hm
  cases s
  · exact decide_eq_false (by simp; omega)
  · exact decide_eq_true (by simp)

theorem natAbs_rank (x : Binary64) : x.rank.natAbs = x.magnitude := by
  simp only [rank]
  split <;> omega

theorem rank_ofMagnitude (hm : m ≤ infinityMagnitude) :
    (ofMagnitude s m).rank = if s then -(m : Int) else m := by
  rw [rank, negative_ofMagnitude hm, magnitude_ofMagnitude hm]

@[simp] theorem rank_zero (s : Bool) : (zero s).rank = 0 := by cases s <;> rfl

theorem eq_zero_of_rank (h : x.rank = 0) : x = zero x.negative := by
  have hm : x.magnitude = 0 := by
    rw [← natAbs_rank, h]
    rfl
  apply ext_magnitude
  · exact (negative_ofMagnitude (Nat.zero_le _)).symm
  · rw [hm]
    exact (magnitude_ofMagnitude (Nat.zero_le _)).symm

/-- Two doubles at one place are the same, or else the two zeros. -/
theorem rank_eq_iff : x.rank = y.rank ↔ x = y ∨ ∃ s, x = zero s ∧ y = zero (!s) := by
  constructor
  · intro h
    by_cases hs : x.negative = y.negative
    · left
      apply ext_magnitude hs
      rw [← natAbs_rank x, ← natAbs_rank y, h]
    · right
      have hy : y.negative = !x.negative := Bool.eq_not.mpr fun he => hs he.symm
      have hz : x.rank = 0 := by
        rw [rank, rank, hy] at h
        rw [rank]
        cases hx : x.negative with
        | false | true =>
          simp only [hx, Bool.not_false, Bool.not_true, Bool.false_eq_true, if_true,
            if_false] at h ⊢
          omega
      refine ⟨x.negative, eq_zero_of_rank hz, ?_⟩
      rw [← hy]
      exact eq_zero_of_rank (h.symm.trans hz)
  · rintro (rfl | ⟨s, rfl, rfl⟩)
    · rfl
    · rw [rank_zero, rank_zero]

theorem compare?_eq (hx : ¬ x.IsNaN) (hy : ¬ y.IsNaN) :
    x.compare? y = some (compare x.rank y.rank) := if_neg (not_or.mpr ⟨hx, hy⟩)

end Rank

section RoundDiv

/-- What rounding adds to a quotient for what is left. -/
def carry (den q r : Nat) : Nat :=
  if 2 * r < den then 0 else if den < 2 * r then 1 else q % 2

theorem roundDiv_eq (num den : Nat) :
    roundDiv num den = num / den + carry den (num / den) (num % den) := by
  simp only [roundDiv, carry]
  split
  · rfl
  · split <;> rfl

theorem carry_le_one (den q r : Nat) : carry den q r ≤ 1 := by
  unfold carry
  split
  · omega
  · split <;> omega

/-- The more is left of one quotient, the more is added to it. -/
theorem carry_mono (den q : Nat) (h : m ≤ n) : carry den q m ≤ carry den q n := by
  unfold carry
  by_cases hless : 2 * m < den
  · rw [if_pos hless]
    exact Nat.zero_le _
  · have hless' : ¬ 2 * n < den := by omega
    rw [if_neg hless, if_neg hless']
    by_cases hmore : den < 2 * m
    · have hmore' : den < 2 * n := by omega
      simp only [if_pos hmore, if_pos hmore', Nat.le_refl]
    · rw [if_neg hmore]
      split <;> omega

theorem le_roundDiv (num den : Nat) : num / den ≤ roundDiv num den := by
  rw [roundDiv_eq]
  omega

theorem roundDiv_le (num den : Nat) : roundDiv num den ≤ num / den + 1 := by
  have hc := carry_le_one den (num / den) (num % den)
  rw [roundDiv_eq]
  omega

theorem roundDiv_mono (den : Nat) (h : a ≤ b) : roundDiv a den ≤ roundDiv b den := by
  have hq : a / den ≤ b / den := Nat.div_le_div_right h
  by_cases he : a / den = b / den
  · have hr : a % den ≤ b % den := by
      have ha := Nat.div_add_mod a den
      have hb := Nat.div_add_mod b den
      rw [he] at ha
      omega
    rw [roundDiv_eq, roundDiv_eq, he]
    exact Nat.add_le_add_left (carry_mono den _ hr) _
  · calc roundDiv a den ≤ a / den + 1 := roundDiv_le a den
      _ ≤ b / den := by omega
      _ ≤ roundDiv b den := le_roundDiv b den

theorem roundDiv_one (n : Nat) : roundDiv n 1 = n := by simp [roundDiv, Nat.mod_one]

end RoundDiv

section Integers

/-- The leading digits of a positive integer, as many as there is room for; the last one is
rounded. -/
def significand (n : Nat) : Nat := roundDiv (n * 2 ^ (52 - n.log2)) (2 ^ (n.log2 - 52))

theorem nearestMagnitude_one (hn : n ≠ 0) : nearestMagnitude n 1 =
    min ((n.log2 + 1022) * 2 ^ 52 + significand n) infinityMagnitude := by
  have hl : floorLog2 n 1 = n.log2 := by
    have hle := Nat.log2_self_le hn
    have he : ((n.log2 : Int) - (Nat.log2 1 : Nat)) = n.log2 := Int.sub_zero _
    have hneg : (-(n.log2 : Int)).toNat = 0 := by omega
    simp only [floorLog2, he, hneg, Int.toNat_natCast, Nat.shiftLeft_eq, Nat.pow_zero,
      Nat.mul_one, Nat.one_mul]
    exact if_neg (by omega)
  have hq : max ((n.log2 : Int) - 52) (-1074) = n.log2 - 52 := by omega
  have he : ((n.log2 : Int) - 52 + 1074).toNat = n.log2 + 1022 := by omega
  have hd : ((n.log2 : Int) - 52).toNat = n.log2 - 52 := by omega
  have hu : (-((n.log2 : Int) - 52)).toNat = 52 - n.log2 := by omega
  simp only [nearestMagnitude, if_neg hn, hl, hq, he, hd, hu, significand, Nat.shiftLeft_eq,
    Nat.one_mul]

theorem le_significand (hn : n ≠ 0) : 2 ^ 52 ≤ significand n := by
  have hp : 2 ^ n.log2 ≤ n := Nat.log2_self_le hn
  calc 2 ^ 52 ≤ n * 2 ^ (52 - n.log2) / 2 ^ (n.log2 - 52) := by
        rw [Nat.le_div_iff_mul_le (Nat.two_pow_pos _), ← Nat.pow_add]
        calc 2 ^ (52 + (n.log2 - 52)) = 2 ^ n.log2 * 2 ^ (52 - n.log2) := by
              rw [← Nat.pow_add]
              congr 1
              omega
          _ ≤ n * 2 ^ (52 - n.log2) := Nat.mul_le_mul_right _ hp
    _ ≤ significand n := le_roundDiv _ _

theorem scaled_lt (n : Nat) : n * 2 ^ (52 - n.log2) < 2 ^ (53 + (n.log2 - 52)) := by
  have hp : n < 2 ^ (n.log2 + 1) := Nat.lt_log2_self
  calc n * 2 ^ (52 - n.log2) < 2 ^ (n.log2 + 1) * 2 ^ (52 - n.log2) :=
        Nat.mul_lt_mul_of_pos_right hp (Nat.two_pow_pos _)
    _ = 2 ^ (53 + (n.log2 - 52)) := by
        rw [← Nat.pow_add]
        congr 1
        omega

theorem significand_le (n : Nat) : significand n ≤ 2 ^ 53 := by
  have hq : n * 2 ^ (52 - n.log2) / 2 ^ (n.log2 - 52) < 2 ^ 53 := by
    rw [Nat.div_lt_iff_lt_mul (Nat.two_pow_pos _), ← Nat.pow_add]
    exact scaled_lt n
  calc significand n ≤ n * 2 ^ (52 - n.log2) / 2 ^ (n.log2 - 52) + 1 := roundDiv_le _ _
    _ ≤ 2 ^ 53 := by omega

/-- With up to 53 digits there is room for all of them. -/
theorem significand_eq (h : n.log2 ≤ 52) : significand n = n * 2 ^ (52 - n.log2) := by
  have hd : n.log2 - 52 = 0 := by omega
  rw [significand, hd]
  exact roundDiv_one _

theorem log2_mono (hm : m ≠ 0) (h : m ≤ n) : m.log2 ≤ n.log2 := by
  rw [Nat.le_log2 (by omega)]
  exact Nat.le_trans (Nat.log2_self_le hm) h

theorem nearestMagnitude_mono (h : m ≤ n) : nearestMagnitude m 1 ≤ nearestMagnitude n 1 := by
  by_cases hm : m = 0
  · rw [hm]
    exact Nat.zero_le _
  · have hn : n ≠ 0 := by omega
    have hl := log2_mono hm h
    have hs : (m.log2 + 1022) * 2 ^ 52 + significand m ≤
        (n.log2 + 1022) * 2 ^ 52 + significand n := by
      by_cases he : m.log2 = n.log2
      · have hr : significand m ≤ significand n := by
          rw [significand, significand, he]
          exact roundDiv_mono _ (Nat.mul_le_mul_right _ h)
        omega
      · have hm' := significand_le m
        have hn' := le_significand hn
        omega
    rw [nearestMagnitude_one hm, nearestMagnitude_one hn]
    omega

/-- Integers with room for all their digits stay apart. -/
theorem nearestMagnitude_lt (h : m < n) (hn : n ≤ 2 ^ 53) :
    nearestMagnitude m 1 < nearestMagnitude n 1 := by
  have hn₀ : n ≠ 0 := by omega
  have hl₅₃ : n.log2 ≤ 53 := by
    have hl := log2_mono hn₀ hn
    rwa [Nat.log2_two_pow] at hl
  have hn' := le_significand hn₀
  have hn'' := significand_le n
  by_cases hm : m = 0
  · rw [hm, nearestMagnitude_one hn₀]
    change 0 < _
    simp only [infinityMagnitude]
    omega
  · have hm₅₂ : m.log2 ≤ 52 := Nat.lt_succ_iff.mp ((Nat.log2_lt hm).mpr (by omega))
    have hm' := significand_eq hm₅₂
    have hm'' := scaled_lt m
    rw [Nat.sub_eq_zero_of_le hm₅₂] at hm''
    have hl := log2_mono hm (Nat.le_of_lt h)
    have hs : (m.log2 + 1022) * 2 ^ 52 + significand m <
        (n.log2 + 1022) * 2 ^ 52 + significand n := by
      by_cases he : m.log2 = n.log2
      · have hr : significand m < significand n := by
          rw [hm', significand_eq (he ▸ hm₅₂), he]
          exact Nat.mul_lt_mul_of_pos_right h (Nat.two_pow_pos _)
        omega
      · omega
    rw [nearestMagnitude_one hm, nearestMagnitude_one hn₀]
    simp only [infinityMagnitude]
    omega

theorem nearestMagnitude_le (n : Nat) : nearestMagnitude n 1 ≤ infinityMagnitude := by
  by_cases hn : n = 0
  · rw [hn]
    exact Nat.zero_le _
  · rw [nearestMagnitude_one hn]
    exact Nat.min_le_right _ _

theorem not_isNaN_ofInt (i : Int) : ¬ (ofInt i).IsNaN := by
  rw [IsNaN, ofInt, ofRatio, magnitude_ofMagnitude (nearestMagnitude_le _)]
  exact Nat.not_lt.mpr (nearestMagnitude_le _)

/-- Integers of 64 bits are far below all that is infinite. -/
theorem isFinite_ofInt (h : i.natAbs < 2 ^ 64) : (ofInt i).IsFinite := by
  rw [IsFinite, ofInt, ofRatio, magnitude_ofMagnitude (nearestMagnitude_le _)]
  by_cases hi : i.natAbs = 0
  · rw [hi]
    decide
  · have hl : i.natAbs.log2 < 64 := (Nat.log2_lt hi).mpr h
    have hs := significand_le i.natAbs
    rw [nearestMagnitude_one hi]
    simp only [infinityMagnitude]
    omega

theorem rank_ofInt (i : Int) : (ofInt i).rank =
    if i < 0 then -(nearestMagnitude i.natAbs 1 : Int) else nearestMagnitude i.natAbs 1 := by
  rw [ofInt, ofRatio, rank_ofMagnitude (nearestMagnitude_le _)]
  simp only [decide_eq_true_eq]

theorem rank_ofInt_mono (h : i ≤ j) : (ofInt i).rank ≤ (ofInt j).rank := by
  rw [rank_ofInt, rank_ofInt]
  split
  · split
    · have hn := nearestMagnitude_mono (m := j.natAbs) (n := i.natAbs) (by omega)
      omega
    · omega
  · have hn := nearestMagnitude_mono (m := i.natAbs) (n := j.natAbs) (by omega)
    split <;> omega

theorem rank_ofInt_lt (h : i < j) (hi : i.natAbs ≤ 2 ^ 53) (hj : j.natAbs ≤ 2 ^ 53) :
    (ofInt i).rank < (ofInt j).rank := by
  rw [rank_ofInt, rank_ofInt]
  split
  · split
    · have hn := nearestMagnitude_lt (m := j.natAbs) (n := i.natAbs) (by omega) hi
      omega
    · have hn := nearestMagnitude_lt (m := 0) (n := i.natAbs) (by omega) hi
      omega
  · have hn := nearestMagnitude_lt (m := i.natAbs) (n := j.natAbs) (by omega) hj
    split <;> omega

end Integers

end PropertyGraph.Binary64
