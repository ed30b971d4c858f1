import PropertyGraph.Proofs.NumberOrder

/-! Equality and order as conditions ask for them: they fit together but for the two zeros. -/
namespace PropertyGraph

variable {v b : Value} {o : Ordering} {x y : Binary64}

theorem Binary64.not_isNaN_of_compare? (h : x.compare? y = some o) : ¬ x.IsNaN ∧ ¬ y.IsNaN := by
  rw [compare?] at h
  split at h
  · cases h
  · next hn => exact not_or.mp hn

namespace Value

/-- Two numbers, two texts or two flags. -/
inductive Comparable : Value → Value → Prop
  | numbers {v b : Value} (hv : v.IsNumber) (hb : b.IsNumber) : Comparable v b
  | texts (s t : String) : Comparable (.str s) (.str t)
  | flags (p q : Bool) : Comparable (.bool p) (.bool q)

/-- The two floats that are zero, in either order. -/
def OppositeZeros (v b : Value) : Prop :=
  ∃ s, v = float (.zero s) ∧ b = float (.zero (!s))

section Comparison

theorem isNumber_of_number? (h : v.number? = some x) (hx : ¬ x.IsNaN) : v.IsNumber := by
  cases v with
  | int i => exact .int i
  | float y =>
    cases h
    exact .float hx
  | _ => cases h

theorem exists_compare?_iff : (∃ o, v.compare? b = some o) ↔ Comparable v b := by
  constructor
  · rintro ⟨o, h⟩
    unfold compare? at h
    split at h
    · exact .numbers (.int _) (.int _)
    · exact .texts _ _
    · exact .flags _ _
    · obtain ⟨x, hx, h⟩ := Option.bind_eq_some_iff.mp h
      obtain ⟨y, hy, h⟩ := Option.bind_eq_some_iff.mp h
      obtain ⟨hnx, hny⟩ := Binary64.not_isNaN_of_compare? h
      exact .numbers (isNumber_of_number? hx hnx) (isNumber_of_number? hy hny)
  · intro h
    cases h with
    | numbers hv hb =>
      obtain ⟨o, ho, -⟩ := compare?_reverse hv hb
      exact ⟨o, ho⟩
    | texts s t => exact ⟨_, rfl⟩
    | flags p q => exact ⟨_, rfl⟩

theorem Comparable.ne_arr (h : Comparable v b) (items : List Value) : v ≠ arr items := by
  rintro rfl
  cases h with
  | numbers hv _ => cases hv

theorem float_eq_iff : x = y ↔ x.rank = y.rank ∧ ¬ OppositeZeros (float x) (float y) := by
  have hz : ∀ s, Binary64.zero s ≠ .zero (!s) := by decide
  rw [Binary64.rank_eq_iff]
  constructor
  · rintro rfl
    refine ⟨.inl rfl, ?_⟩
    rintro ⟨s, hs, hs'⟩
    exact hz s ((float.inj hs).symm.trans (float.inj hs'))
  · rintro ⟨rfl | ⟨s, rfl, rfl⟩, hn⟩
    · rfl
    · exact absurd ⟨s, rfl, rfl⟩ hn

theorem looselyEquals_of_mixed {i : Int64} (h : v.compare? b = some o)
    (hm : v = int i ∧ b = float x ∨ v = float x ∧ b = int i) :
    v.looselyEquals b = true ↔ o = .eq := by
  have hl : v.looselyEquals b = (v.compare? b == some .eq) := by
    rcases hm with ⟨rfl, rfl⟩ | ⟨rfl, rfl⟩
    · rfl
    · rfl
  rw [hl, h, beq_iff_eq, Option.some.injEq]

/-- Equality is what the order says, except that it tells the two zeros apart. -/
theorem looselyEquals_iff (h : v.compare? b = some o) :
    v.looselyEquals b = true ↔ o = .eq ∧ ¬ OppositeZeros v b := by
  have hc := exists_compare?_iff.mp ⟨o, h⟩
  cases hc with
  | numbers hv hb =>
    cases hv with
    | int i =>
      have hn : ¬ OppositeZeros (int i) b := nofun
      cases hb with
      | int j =>
        cases h
        rw [and_iff_left hn, compare_eq_iff_eq, Int64.toInt_inj]
        exact beq_iff_eq.trans (iff_of_eq (int.injEq i j))
      | float hy =>
        rw [and_iff_left hn]
        exact looselyEquals_of_mixed h (.inl ⟨rfl, rfl⟩)
    | @float x hx =>
      cases hb with
      | int j =>
        have hn : ¬ OppositeZeros (float x) (int j) := nofun
        rw [and_iff_left hn]
        exact looselyEquals_of_mixed h (.inr ⟨rfl, rfl⟩)
      | @float y hy =>
        cases (Binary64.compare?_eq hx hy).symm.trans h
        rw [compare_eq_iff_eq, ← float_eq_iff]
        exact beq_iff_eq.trans (iff_of_eq (float.injEq x y))
  | texts s t =>
    cases h
    have hn : ¬ OppositeZeros (str s) (str t) := nofun
    rw [and_iff_left hn, Std.compare_eq_iff_eq]
    exact beq_iff_eq.trans (iff_of_eq (str.injEq s t))
  | flags p q =>
    cases h
    have hn : ¬ OppositeZeros (bool p) (bool q) := nofun
    rw [and_iff_left hn, Std.compare_eq_iff_eq]
    exact beq_iff_eq.trans (iff_of_eq (bool.injEq p q))

end Comparison

end Value

namespace Condition
open Value

/-- Answers that fit together: to be equal is to be at least and at most, to be at least is to be
greater or equal, and just one of less, equal and greater is so. -/
structure Fits (v b : Value) : Prop where
  equal : holds (some v) (.ops [.eq b]) = true ↔ holds (some v) (.ops [.gte b, .lte b]) = true
  atLeast : holds (some v) (.ops [.gte b]) = true ↔
    holds (some v) (.ops [.gt b]) = true ∨ holds (some v) (.ops [.eq b]) = true
  one : ∃! op, op ∈ [Operator.lt b, .eq b, .gt b] ∧ holds (some v) (.ops [op]) = true

theorem holds_single (field : Option Value) (op : Operator) :
    holds field (.ops [op]) = op.holds field := Bool.and_true _

theorem holds_pair (field : Option Value) (op op' : Operator) :
    holds field (.ops [op, op']) = (op.holds field && op'.holds field) := by
  rw [holds, List.all_cons, List.all_cons, List.all_nil, Bool.and_true]

theorem ordered_of_compare? {accept : Ordering → Bool} (h : v.compare? b = some o) :
    Operator.ordered accept (some v) b = accept o := by
  rw [ordered_eq (exists_compare?_iff.mp ⟨o, h⟩).ne_arr, h, Option.any_some]

theorem equals_iff (h : v.compare? b = some o) :
    Operator.equals (some v) b = true ↔ o = .eq ∧ ¬ OppositeZeros v b := by
  have hv := (exists_compare?_iff.mp ⟨o, h⟩).ne_arr
  rw [← looselyEquals_iff h]
  cases v with
  | arr items => exact absurd rfl (hv items)
  | _ => rfl

/-- The operator among less, equal and greater that asks for an order. -/
def asking (b : Value) : Ordering → Operator
  | .lt => .lt b
  | .eq => .eq b
  | .gt => .gt b

theorem asking_iff (h : v.compare? b = some o) (hz : ¬ OppositeZeros v b) (o' : Ordering) :
    (asking b o').holds (some v) = true ↔ o' = o := by
  cases o' with
  | eq =>
    have he := equals_iff h
    rw [and_iff_left hz] at he
    exact he.trans eq_comm
  | lt =>
    change Operator.ordered (· == .lt) (some v) b = true ↔ _
    rw [ordered_of_compare? h, beq_iff_eq, eq_comm]
  | gt =>
    change Operator.ordered (· == .gt) (some v) b = true ↔ _
    rw [ordered_of_compare? h, beq_iff_eq, eq_comm]

theorem fits_of_compare? (h : v.compare? b = some o) (hz : ¬ OppositeZeros v b) : Fits v b := by
  have hlt : (Operator.lt b).holds (some v) = true ↔ .lt = o := asking_iff h hz .lt
  have heq : (Operator.eq b).holds (some v) = true ↔ .eq = o := asking_iff h hz .eq
  have hgt : (Operator.gt b).holds (some v) = true ↔ .gt = o := asking_iff h hz .gt
  have hge : (Operator.gte b).holds (some v) = (o != .lt) := ordered_of_compare? h
  have hle : (Operator.lte b).holds (some v) = (o != .gt) := ordered_of_compare? h
  constructor
  · rw [holds_single, holds_pair, heq, hge, hle]
    cases o <;> decide
  · rw [holds_single, holds_single, holds_single, heq, hgt, hge]
    cases o <;> decide
  · refine ⟨asking b o, ⟨?_, ?_⟩, ?_⟩
    · cases o <;> simp [asking]
    · rw [holds_single]
      exact (asking_iff h hz o).mpr rfl
    · rintro op ⟨hop, hh⟩
      rw [holds_single] at hh
      simp only [List.mem_cons, List.not_mem_nil, or_false] at hop
      rcases hop with rfl | rfl | rfl
      · rw [← hlt.mp hh]
        rfl
      · rw [← heq.mp hh]
        rfl
      · rw [← hgt.mp hh]
        rfl

/-- Of the two zeros each is at least and at most the other one, and yet not equal to it. -/
structure Splits (v b : Value) : Prop where
  between : holds (some v) (.ops [.gte b, .lte b]) = true
  none : ∀ op ∈ [Operator.lt b, .eq b, .gt b], holds (some v) (.ops [op]) = false

theorem splits_of_oppositeZeros (h : OppositeZeros v b) : Splits v b := by
  obtain ⟨s, rfl, rfl⟩ := h
  constructor
  · cases s <;> rfl
  · intro op hop
    simp only [List.mem_cons, List.not_mem_nil, or_false] at hop
    rcases hop with rfl | rfl | rfl
    · cases s <;> rfl
    · cases s <;> rfl
    · cases s <;> rfl

/-- Between an integer and a float it is the order that tells whether they are equal. -/
theorem int_zero_equals (s : Bool) :
    holds (some (.int 0)) (.ops [.eq (.float (.zero s))]) = true ∧
      holds (some (.float (.zero s))) (.ops [.eq (.int 0)]) = true := by
  cases s <;> exact ⟨rfl, rfl⟩

/-- Which values compare with each other, and what conditions say of those that do. Equality goes
by the bits of floats and order by their places, so the two zeros fall out of line, and nothing
else; the integer zero is equal to both of them. -/
theorem equality_fits_order :
    (∀ v b, (∃ o, Value.compare? v b = some o) ↔ Comparable v b) ∧
    (∀ v b, Comparable v b → ¬ OppositeZeros v b → Fits v b) ∧
    (∀ v b, OppositeZeros v b → Splits v b) ∧
    ∀ s, holds (some (.int 0)) (.ops [.eq (.float (.zero s))]) = true ∧
      holds (some (.float (.zero s))) (.ops [.eq (.int 0)]) = true := by
  refine ⟨?_, ?_, ?_, int_zero_equals⟩
  · intro v b
    exact exists_compare?_iff
  · intro v b hc hz
    obtain ⟨o, h⟩ := exists_compare?_iff.mpr hc
    exact fits_of_compare? h hz
  · intro v b hz
    exact splits_of_oppositeZeros hz

/-- An integer that is no float, against the float that it is rounded to. -/
theorem equality_fits_order_sample :
    let v : Value := .int 9007199254740993
    let b : Value := .float ⟨0x4340000000000000⟩
    Comparable v b ∧ ¬ OppositeZeros v b ∧ Fits v b ∧
      OppositeZeros (.float (.zero false)) (.float (.zero true)) ∧
      Splits (.float (.zero false)) (.float (.zero true)) ∧
      holds (some (.int 0)) (.ops [.eq (.float (.zero true))]) = true := by
  intro v b
  obtain ⟨-, hfits, hsplits, hint⟩ := equality_fits_order
  have hc : Comparable v b := .numbers (.int _) (.float (by decide))
  have hz : ¬ OppositeZeros v b := nofun
  have ho : OppositeZeros (.float (.zero false)) (.float (.zero true)) := ⟨false, rfl, rfl⟩
  exact ⟨hc, hz, hfits v b hc hz, ho, hsplits _ _ ho, (hint true).1⟩

/-- Zero and minus zero are alike in the order, and no operator but equality can tell. -/
theorem zeros_unequal :
    let zero : Value := .float ⟨0⟩
    let minus : Value := .float ⟨0x8000000000000000⟩
    zero.compare? minus = some .eq ∧ Comparable zero minus ∧ (∀ items, zero ≠ .arr items) ∧
      holds (some zero) (.ops [.gte minus, .lte minus]) = true ∧
      holds (some zero) (.ops [.eq minus]) = false ∧
      holds (some zero) (.ops [.gt minus]) = false ∧
      holds (some zero) (.ops [.lt minus]) = false ∧ ¬ Fits zero minus := by
  intro zero minus
  have he : holds (some zero) (.ops [.eq minus]) = false := by rfl
  have hb : holds (some zero) (.ops [.gte minus, .lte minus]) = true := by rfl
  refine ⟨by rfl, .numbers (.float (by decide)) (.float (by decide)), nofun, hb, he, by rfl,
    by rfl, fun hf => ?_⟩
  cases he.symm.trans (hf.equal.mpr hb)

end Condition

end PropertyGraph
