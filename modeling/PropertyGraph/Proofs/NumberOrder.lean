import Mathlib.Data.List.Sort
import Mathlib.Data.Prod.Lex
import PropertyGraph.Condition
import PropertyGraph.Proofs.Binary64

/-! The order of numbers: integers among each other exactly, with floats as the nearest ones. -/
namespace PropertyGraph

namespace Value

variable {a b c v : Value} {vs ws : List Value} {i j : Int64} {x : Binary64}

/-- Integers, and the floats that are numbers. -/
inductive IsNumber : Value → Prop
  | int (i : Int64) : IsNumber (.int i)
  | float {x : Binary64} (h : ¬ x.IsNaN) : IsNumber (.float x)

/-- The place among the floats; an integer has that of the nearest one. -/
def rank (v : Value) : Int := v.number?.elim 0 Binary64.rank

def Alike (a b : Value) : Prop := a.compare? b = some .eq

def AtMost (a b : Value) : Prop := a.compare? b = some .lt ∨ Alike a b

/-- Among some values the order is transitive, and equal ones have only equal ones between them. -/
structure Coherent (vs : List Value) : Prop where
  trans : ∀ a ∈ vs, ∀ b ∈ vs, ∀ c ∈ vs, AtMost a b → AtMost b c → AtMost a c
  between : ∀ a ∈ vs, ∀ b ∈ vs, ∀ c ∈ vs, AtMost a b → AtMost b c → Alike a c →
    Alike a b ∧ Alike b c

/-- No float among some values stands for two integers among them. -/
def Sharp (vs : List Value) : Prop := ∀ x i j, float x ∈ vs → int i ∈ vs → int j ∈ vs →
  Alike (float x) (int i) → Alike (float x) (int j) → i = j

section Pairs

theorem compare?_cases (ha : a.IsNumber) (hb : b.IsNumber) :
    (∃ i j, a = int i ∧ b = int j) ∨ a.compare? b = some (compare a.rank b.rank) ∧
      b.compare? a = some (compare b.rank a.rank) := by
  have hi := Binary64.not_isNaN_ofInt
  cases ha with
  | int i =>
    cases hb with
    | int j => exact .inl ⟨i, j, rfl, rfl⟩
    | float hy => exact .inr ⟨Binary64.compare?_eq (hi _) hy, Binary64.compare?_eq hy (hi _)⟩
  | float hx =>
    right
    cases hb with
    | int j => exact ⟨Binary64.compare?_eq hx (hi _), Binary64.compare?_eq (hi _) hx⟩
    | float hy => exact ⟨Binary64.compare?_eq hx hy, Binary64.compare?_eq hy hx⟩

theorem compare?_int (i j : Int64) :
    (int i).compare? (int j) = some (compare i.toInt j.toInt) := rfl

theorem compare?_reverse (ha : a.IsNumber) (hb : b.IsNumber) :
    ∃ o, a.compare? b = some o ∧ b.compare? a = some o.swap := by
  obtain ⟨i, j, rfl, rfl⟩ | ⟨h, h'⟩ := compare?_cases ha hb
  · exact ⟨_, rfl, congrArg some Std.OrientedCmp.eq_swap⟩
  · refine ⟨_, h, h'.trans ?_⟩
    exact congrArg some Std.OrientedCmp.eq_swap

/-- Rounding to floats may make two integers alike, but it never turns them around. -/
theorem compare?_of_rank_lt (ha : a.IsNumber) (hb : b.IsNumber) (h : a.rank < b.rank) :
    a.compare? b = some .lt := by
  obtain ⟨i, j, rfl, rfl⟩ | ⟨hc, -⟩ := compare?_cases ha hb
  · have hij : i.toInt < j.toInt := by
      by_contra hge
      have hr := Binary64.rank_ofInt_mono (Int.not_lt.mp hge)
      exact absurd h (Int.not_lt.mpr hr)
    exact congrArg some (compare_lt_iff_lt.mpr hij)
  · rw [hc, compare_lt_iff_lt.mpr h]

theorem alike_of_rank_eq (ha : a.IsNumber) (hb : b.IsNumber)
    (hi : ¬ ∃ i j, a = int i ∧ b = int j) (h : a.rank = b.rank) : Alike a b := by
  obtain hn | ⟨hc, -⟩ := compare?_cases ha hb
  · exact absurd hn hi
  · rw [Alike, hc, compare_eq_iff_eq.mpr h]

theorem alike_int_iff : Alike (int i) (int j) ↔ i = j := by
  rw [Alike, compare?_int, Option.some.injEq, compare_eq_iff_eq, Int64.toInt_inj]

theorem Alike.swap (ha : a.IsNumber) (hb : b.IsNumber) (h : Alike a b) : Alike b a := by
  obtain ⟨o, ho, ho'⟩ := compare?_reverse ha hb
  cases ho.symm.trans h
  exact ho'

end Pairs

section Keys

/-- Whether a float among some values has a place. -/
def occupied (vs : List Value) (place : Int) : Bool :=
  vs.any fun
    | float x => x.rank == place
    | _ => false

/-- What an integer is apart from its place. -/
def offset : Value → Int
  | int i => i.toInt
  | _ => 0

/-- A number by its place, and an integer that no float can be mistaken for by its value too. -/
def key (vs : List Value) (v : Value) : ℤ ×ₗ ℤ :=
  toLex (v.rank, if occupied vs v.rank then 0 else v.offset)

theorem occupied_iff {place : Int} :
    occupied vs place = true ↔ ∃ x, float x ∈ vs ∧ x.rank = place := by
  rw [occupied, List.any_eq_true]
  constructor
  · rintro ⟨v, hv, h⟩
    cases v with
    | float x => exact ⟨x, hv, eq_of_beq h⟩
    | _ => cases h
  · rintro ⟨x, hx, rfl⟩
    exact ⟨float x, hx, beq_self_eq_true _⟩

theorem compare_key (vs : List Value) (a b : Value) : compare (key vs a) (key vs b) =
    (compare a.rank b.rank).then (compare (if occupied vs a.rank then 0 else a.offset)
      (if occupied vs b.rank then 0 else b.offset)) := rfl

theorem compare_key_of_lt (h : a.rank < b.rank) : compare (key vs a) (key vs b) = .lt := by
  rw [compare_key, compare_lt_iff_lt.mpr h]
  rfl

/-- Numbers at the place of a float are all alike. -/
theorem alike_of_occupied (hn : ∀ v ∈ vs, v.IsNumber) (hs : Sharp vs) (ha : a ∈ vs) (hb : b ∈ vs)
    (h : a.rank = b.rank) (ho : occupied vs a.rank = true) : Alike a b := by
  obtain ⟨x, hx, hr⟩ := occupied_iff.mp ho
  by_cases hi : ∃ i j, a = int i ∧ b = int j
  · obtain ⟨i, j, rfl, rfl⟩ := hi
    have hxi : Alike (float x) (int i) := alike_of_rank_eq (hn _ hx) (.int i) nofun hr
    have hxj : Alike (float x) (int j) :=
      alike_of_rank_eq (hn _ hx) (.int j) nofun (hr.trans h)
    exact alike_int_iff.mpr (hs x i j hx ha hb hxi hxj)
  · exact alike_of_rank_eq (hn a ha) (hn b hb) hi h

theorem exists_int_of_not_occupied (hn : ∀ v ∈ vs, v.IsNumber) (ha : a ∈ vs)
    (ho : occupied vs a.rank = false) : ∃ i, a = int i := by
  have hna := hn a ha
  cases hna with
  | int i => exact ⟨i, rfl⟩
  | @float x hx =>
    have hf : occupied vs x.rank = true := occupied_iff.mpr ⟨x, ha, rfl⟩
    cases hf.symm.trans ho

/-- Where no float stands for two integers, the order is that of the keys. -/
theorem compare?_eq_key (hn : ∀ v ∈ vs, v.IsNumber) (hs : Sharp vs) (ha : a ∈ vs) (hb : b ∈ vs) :
    a.compare? b = some (compare (key vs a) (key vs b)) := by
  rcases Int.lt_trichotomy a.rank b.rank with hlt | heq | hgt
  · rw [compare?_of_rank_lt (hn a ha) (hn b hb) hlt, compare_key_of_lt hlt]
  · rw [compare_key, compare_eq_iff_eq.mpr heq, ← heq]
    cases ho : occupied vs a.rank with
    | true => exact alike_of_occupied hn hs ha hb heq ho
    | false =>
      obtain ⟨i, rfl⟩ := exists_int_of_not_occupied hn ha ho
      obtain ⟨j, rfl⟩ := exists_int_of_not_occupied hn hb (heq ▸ ho)
      rfl
  · obtain ⟨o, ho, ho'⟩ := compare?_reverse (hn b hb) (hn a ha)
    cases ho.symm.trans (compare?_of_rank_lt (hn b hb) (hn a ha) hgt)
    have hk : compare (key vs a) (key vs b) = (compare (key vs b) (key vs a)).swap :=
      Std.OrientedCmp.eq_swap
    rw [ho', hk, compare_key_of_lt hgt]

theorem atMost_iff_key (hn : ∀ v ∈ vs, v.IsNumber) (hs : Sharp vs) (ha : a ∈ vs) (hb : b ∈ vs) :
    AtMost a b ↔ key vs a ≤ key vs b := by
  rw [AtMost, Alike, compare?_eq_key hn hs ha hb, Option.some.injEq, Option.some.injEq,
    compare_lt_iff_lt, compare_eq_iff_eq, ← le_iff_lt_or_eq]

theorem alike_iff_key (hn : ∀ v ∈ vs, v.IsNumber) (hs : Sharp vs) (ha : a ∈ vs) (hb : b ∈ vs) :
    Alike a b ↔ key vs a = key vs b := by
  rw [Alike, compare?_eq_key hn hs ha hb, Option.some.injEq, compare_eq_iff_eq]

end Keys

section Order

theorem Sharp.coherent (hs : Sharp vs) (hn : ∀ v ∈ vs, v.IsNumber) : Coherent vs := by
  constructor
  · intro a ha b hb c hc hab hbc
    rw [atMost_iff_key hn hs ha hb] at hab
    rw [atMost_iff_key hn hs hb hc] at hbc
    exact (atMost_iff_key hn hs ha hc).mpr (le_trans hab hbc)
  · intro a ha b hb c hc hab hbc hac
    rw [atMost_iff_key hn hs ha hb] at hab
    rw [atMost_iff_key hn hs hb hc] at hbc
    rw [alike_iff_key hn hs ha hc] at hac
    rw [alike_iff_key hn hs ha hb, alike_iff_key hn hs hb hc]
    exact ⟨le_antisymm hab (hac ▸ hbc), le_antisymm hbc (hac ▸ hab)⟩

theorem atMost_int_iff : AtMost (int i) (int j) ↔ i.toInt ≤ j.toInt := by
  rw [AtMost, alike_int_iff, compare?_int, Option.some.injEq, compare_lt_iff_lt, ← Int64.toInt_inj]
  omega

/-- Two integers that a float stands for come before each other by way of the float. -/
theorem Coherent.sharp (hc : Coherent vs) (hn : ∀ v ∈ vs, v.IsNumber) : Sharp vs := by
  intro x i j hx hi hj hxi hxj
  have hle : ∀ {i j : Int64}, int i ∈ vs → int j ∈ vs → Alike (float x) (int i) →
      Alike (float x) (int j) → i.toInt ≤ j.toInt := by
    intro i j hi hj hxi hxj
    have hix := hxi.swap (hn _ hx) (.int i)
    exact atMost_int_iff.mp (hc.trans _ hi _ hx _ hj (.inr hix) (.inr hxj))
  exact Int64.toInt_inj.mp (Int.le_antisymm (hle hi hj hxi hxj) (hle hj hi hxj hxi))

theorem coherent_iff_sharp (hn : ∀ v ∈ vs, v.IsNumber) : Coherent vs ↔ Sharp vs :=
  ⟨fun hc => hc.sharp hn, fun hs => hs.coherent hn⟩

theorem rank_of_alike (hx : (float x).IsNumber) (h : Alike (float x) (int i)) :
    x.rank = (int i).rank := by
  obtain ⟨_, _, hxi, -⟩ | ⟨hc, -⟩ := compare?_cases hx (.int i)
  · cases hxi
  · exact compare_eq_iff_eq.mp (Option.some.inj (hc.symm.trans h))

/-- Integers that floats hold exactly are told apart. -/
theorem sharp_of_small (hn : ∀ v ∈ vs, v.IsNumber)
    (h : ∀ i, int i ∈ vs → i.toInt.natAbs ≤ 2 ^ 53) : Sharp vs := by
  intro x i j hx hi hj hxi hxj
  have hr : (int i).rank = (int j).rank :=
    (rank_of_alike (hn _ hx) hxi).symm.trans (rank_of_alike (hn _ hx) hxj)
  rcases Int.lt_trichotomy i.toInt j.toInt with hlt | heq | hgt
  · exact absurd hr (Int.ne_of_lt (Binary64.rank_ofInt_lt hlt (h i hi) (h j hj)))
  · exact Int64.toInt_inj.mp heq
  · exact absurd hr.symm (Int.ne_of_lt (Binary64.rank_ofInt_lt hgt (h j hj) (h i hi)))

end Order

section Sorting

/-- The test by which values are sorted. -/
def inOrder (a b : Value) : Bool := (a.compare? b).any (· != .gt)

theorem inOrder_iff : inOrder a b = true ↔ AtMost a b := by
  rw [inOrder, AtMost, Alike]
  cases a.compare? b with
  | none => simp
  | some o => cases o <;> simp

/-- Sorting puts values in order, and any other way to put them in order has like values at the
same places. -/
structure Sorts (vs : List Value) : Prop where
  sorted : (vs.mergeSort inOrder).Pairwise AtMost
  unique : ∀ ws, ws.Perm vs → ws.Pairwise AtMost → List.Forall₂ Alike ws (vs.mergeSort inOrder)

theorem map_key_sort (hn : ∀ v ∈ vs, v.IsNumber) (hs : Sharp vs) :
    (vs.mergeSort inOrder).map (key vs) = (vs.map (key vs)).mergeSort (· ≤ ·) := by
  apply List.map_mergeSort
  intro a ha b hb
  rw [Bool.eq_iff_iff, inOrder_iff, atMost_iff_key hn hs ha hb, decide_eq_true_iff]

theorem Sharp.sorts (hs : Sharp vs) (hn : ∀ v ∈ vs, v.IsNumber) : Sorts vs := by
  have hmem : ∀ a ∈ vs.mergeSort inOrder, a ∈ vs := fun a => List.mem_mergeSort.mp
  have hsort : ((vs.mergeSort inOrder).map (key vs)).Pairwise (· ≤ ·) := by
    rw [map_key_sort hn hs]
    exact List.pairwise_mergeSort' _ _
  constructor
  · refine (List.pairwise_map.mp hsort).imp_of_mem fun ha hb hab => ?_
    exact (atMost_iff_key hn hs (hmem _ ha) (hmem _ hb)).mpr hab
  · intro ws hp hws
    have hkeys : (ws.map (key vs)).Pairwise (· ≤ ·) := by
      refine List.pairwise_map.mpr (hws.imp_of_mem fun ha hb hab => ?_)
      exact (atMost_iff_key hn hs (hp.subset ha) (hp.subset hb)).mp hab
    have heq : ws.map (key vs) = (vs.mergeSort inOrder).map (key vs) :=
      ((hp.trans (List.mergeSort_perm vs inOrder).symm).map _).eq_of_pairwise' hkeys hsort
    rw [← List.forall₂_eq_eq_eq, List.forall₂_map_left_iff, List.forall₂_map_right_iff,
      List.forall₂_iff_zip] at heq
    refine List.forall₂_iff_zip.mpr ⟨heq.1, fun {a b} hab => ?_⟩
    obtain ⟨ha, hb⟩ := List.of_mem_zip hab
    exact (alike_iff_key hn hs (hp.subset ha) (hmem b hb)).mpr (heq.2 hab)

end Sorting

section Ranges

theorem ordered_eq {accept : Ordering → Bool} (hv : ∀ items, v ≠ arr items) :
    Operator.ordered accept (some v) b = (v.compare? b).any accept := by
  cases v with
  | arr items => exact absurd rfl (hv items)
  | _ => rfl

theorem holds_lte_iff (hv : v.IsNumber) :
    Condition.holds (some v) (.ops [.lte b]) = true ↔ AtMost v b := by
  have ho : Condition.holds (some v) (.ops [.lte b]) = inOrder v b := by
    refine (Bool.and_true _).trans (ordered_eq ?_)
    rintro items rfl
    cases hv
  rw [ho, inOrder_iff]

end Ranges

/-- Numbers are in an order with each other. It is transitive just where no float stands for two
integers, so where integers are at most `2 ^ 53`, and there it sorts values and bounds ranges. -/
theorem order_consistent :
    (∀ a b : Value, a.IsNumber → b.IsNumber →
      ∃ o, a.compare? b = some o ∧ b.compare? a = some o.swap) ∧
    ∀ vs : List Value, (∀ v ∈ vs, v.IsNumber) →
      (Coherent vs ↔ Sharp vs) ∧
      ((∀ i, int i ∈ vs → i.toInt.natAbs ≤ 2 ^ 53) → Sharp vs) ∧
      (Sharp vs → Sorts vs ∧ ∀ b ∈ vs, ∀ c ∈ vs, ∀ d ∈ vs,
        Condition.holds (some c) (.ops [.lte b]) = true → AtMost d c →
          Condition.holds (some d) (.ops [.lte b]) = true) := by
  refine ⟨fun a b => compare?_reverse, fun vs hn => ?_⟩
  refine ⟨coherent_iff_sharp hn, sharp_of_small hn, fun hs => ⟨hs.sorts hn, ?_⟩⟩
  intro b hb c hc d hd hcb hdc
  have hcb := (holds_lte_iff (hn c hc)).mp hcb
  have hdb := (hs.coherent hn).trans d hd c hc b hb hdc hcb
  exact (holds_lte_iff (hn d hd)).mpr hdb

/-- A float and two integers around it; it stands for the greater one only. -/
def sampleNumbers : List Value :=
  [int 9007199254740994, float ⟨0x4340000000000000⟩, int 9007199254740993]

theorem sharp_sampleNumbers : Sharp sampleNumbers := by
  intro x i j hx hi hj hxi hxj
  simp only [sampleNumbers, List.mem_cons, reduceCtorEq, float.injEq, int.injEq, false_or, or_false,
    List.not_mem_nil] at hx hi hj
  subst hx
  rcases hi with rfl | rfl
  · cases hxi
  · rcases hj with rfl | rfl
    · cases hxj
    · rfl

theorem order_consistent_sample :
    (∀ v ∈ sampleNumbers, v.IsNumber) ∧ Sharp sampleNumbers ∧ Coherent sampleNumbers ∧
      Sorts sampleNumbers ∧
      Condition.holds (some (float ⟨0x4340000000000000⟩)) (.ops [.lte (int 9007199254740994)]) =
        true ∧
      AtMost (int 9007199254740993) (float ⟨0x4340000000000000⟩) ∧
      Condition.holds (some (int 9007199254740993)) (.ops [.lte (int 9007199254740994)]) =
        true := by
  have hx : IsNumber (float ⟨0x4340000000000000⟩) := .float (by decide)
  have hn : ∀ v ∈ sampleNumbers, v.IsNumber := by
    simp only [sampleNumbers, List.forall_mem_cons]
    exact ⟨.int _, hx, .int _, nofun⟩
  have hs := sharp_sampleNumbers
  obtain ⟨hc, -, ho⟩ := order_consistent.2 sampleNumbers hn
  obtain ⟨hsort, hrange⟩ := ho hs
  have hle : Condition.holds (some (float ⟨0x4340000000000000⟩))
      (.ops [.lte (int 9007199254740994)]) = true := by decide +kernel
  have hat : AtMost (int 9007199254740993) (float ⟨0x4340000000000000⟩) := .inr (by rfl)
  have hb := hrange _ (by simp [sampleNumbers]) _ (by simp [sampleNumbers]) _
    (by simp [sampleNumbers]) hle hat
  exact ⟨hn, hs, hc.mpr hs, hsort, hle, hat, hb⟩

/-- Two integers next to each other beyond `2 ^ 53`, and the float that stands for both. -/
theorem float_between_integers :
    let low : Value := int 9007199254740992
    let mid : Value := float ⟨0x4340000000000000⟩
    let high : Value := int 9007199254740993
    low.IsNumber ∧ mid.IsNumber ∧ high.IsNumber ∧
      (AtMost high mid ∧ AtMost mid low ∧ ¬ AtMost high low) ∧
      (AtMost low high ∧ AtMost high mid ∧ Alike low mid ∧ ¬ Alike low high) ∧
      Condition.holds (some mid) (.ops [.lte low]) = true ∧
      Condition.holds (some high) (.ops [.lte low]) = false := by
  intro low mid high
  have hlh : low.compare? high = some .lt := by rfl
  have hhl : high.compare? low = some .gt := by rfl
  have hn : ¬ AtMost high low := by
    rintro (h | h)
    · cases hhl.symm.trans h
    · cases hhl.symm.trans h
  have ha : ¬ Alike low high := fun h => by cases hlh.symm.trans h
  refine ⟨.int _, .float (by decide), .int _, ⟨.inr (by rfl), .inr (by rfl), hn⟩, ?_, ?_, ?_⟩
  · exact ⟨.inl hlh, .inr (by rfl), by rfl, ha⟩
  · decide +kernel
  · decide +kernel

end Value

end PropertyGraph
