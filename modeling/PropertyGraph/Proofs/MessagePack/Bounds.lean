import PropertyGraph.Proofs.MessagePack.RoundTrip

/-! What is read is within the limits of what can be written and read again. -/
namespace PropertyGraph

theorem BigEndian.toNat_lt (bs : List UInt8) : toNat bs < 256 ^ bs.length := by
  induction bs with
  | nil => exact Nat.one_pos
  | cons b bs ih =>
    have hb : toNat (b :: bs) = 256 ^ bs.length * b.toNat + toNat bs := by
      simpa [toNat] using foldl_bytes bs (256 * 0 + b.toNat)
    have hm : 256 ^ bs.length * (b.toNat + 1) ≤ 256 ^ bs.length * 256 :=
      Nat.mul_le_mul_left _ b.toNat_lt
    rw [hb, List.length_cons, Nat.pow_succ]
    rw [Nat.mul_add, Nat.mul_one] at hm
    omega

namespace MessagePack

variable {depth width n : Nat} {bs rest : List UInt8} {m : MessagePack}

theorem length_of_splitBytes {front : List UInt8} (h : splitBytes n bs = some (front, rest)) :
    front.length = n := by
  induction n generalizing bs front with
  | zero =>
    cases h
    rfl
  | succ n ih =>
    cases bs with
    | nil => cases h
    | cons b bs =>
      obtain ⟨⟨front', rest'⟩, hs, he⟩ := Option.bind_eq_some_iff.mp h
      cases he
      exact congrArg (· + 1) (ih hs)

theorem readNat_lt (h : readNat width bs = some (n, rest)) : n < 256 ^ width := by
  obtain ⟨⟨front, rest'⟩, hs, he⟩ := Option.bind_eq_some_iff.mp h
  cases he
  exact length_of_splitBytes hs ▸ BigEndian.toNat_lt front

namespace Header

/-- A size that fits into four bytes, or a tree without parts. -/
def Small : Header → Prop
  | leaf m => m.longest = 0 ∧ m.nesting = 0
  | str n | bin n | ext n | arr n | map n => n < 2 ^ 32

theorem small_of_sized {make : Nat → Header} {header : Header}
    (h : sized make width bs = some (header, rest)) (hm : ∀ n, n < 256 ^ width → (make n).Small) :
    header.Small := by
  obtain ⟨⟨n, rest'⟩, hn, he⟩ := Option.bind_eq_some_iff.mp h
  cases he
  exact hm n (readNat_lt hn)

theorem small_of_read? {header : Header} (h : read? bs = some (header, rest)) : header.Small := by
  cases bs with
  | nil => cases h
  | cons b bs =>
    have hb := b.toNat_lt
    simp only [read?] at h
    split at h
    · cases h
      exact ⟨rfl, rfl⟩
    split at h
    · cases h
      exact (by omega : b.toNat - 0x80 < 2 ^ 32)
    split at h
    · cases h
      exact (by omega : b.toNat - 0x90 < 2 ^ 32)
    split at h
    · cases h
      exact (by omega : b.toNat - 0xa0 < 2 ^ 32)
    split at h
    · cases h
      exact ⟨rfl, rfl⟩
    have hw : ∀ {width n : Nat}, width ≤ 4 → n < 256 ^ width → n < 2 ^ 32 :=
      fun hw hn => Nat.lt_of_lt_of_le hn (Nat.pow_le_pow_right (by decide) hw)
    split at h
    all_goals first
      | (cases h; exact ⟨rfl, rfl⟩)
      | (cases h; simp only [Small]; decide)
      | exact small_of_sized h fun _ _ => ⟨rfl, rfl⟩
      | exact small_of_sized h fun _ hn => hw (by decide) hn
      | cases h

end Header

/-- Sizes that a header can announce, and at most so many collections one inside the other. -/
structure Fits (depth : Nat) (m : MessagePack) : Prop where
  longest_lt : m.longest < 2 ^ 32
  nesting_le : m.nesting ≤ depth

theorem itemsNesting_le_iff {items : List MessagePack} :
    itemsNesting items ≤ n ↔ ∀ m ∈ items, m.nesting ≤ n := by
  induction items with
  | nil => simp [itemsNesting]
  | cons m ms ih => rw [itemsNesting, Nat.max_le, List.forall_mem_cons, ih]

theorem itemsLongest_lt_iff {items : List MessagePack} (hn : 0 < n) :
    itemsLongest items < n ↔ ∀ m ∈ items, m.longest < n := by
  induction items with
  | nil => simp [itemsLongest, hn]
  | cons m ms ih => rw [itemsLongest, Nat.max_lt, List.forall_mem_cons, ih]

theorem entriesNesting_le_iff {entries : List (MessagePack × MessagePack)} :
    entriesNesting entries ≤ n ↔ ∀ e ∈ entries, e.1.nesting ≤ n ∧ e.2.nesting ≤ n := by
  induction entries with
  | nil => simp [entriesNesting]
  | cons e es ih => rw [entriesNesting, Nat.max_le, Nat.max_le, List.forall_mem_cons, ih]

theorem entriesLongest_lt_iff {entries : List (MessagePack × MessagePack)} (hn : 0 < n) :
    entriesLongest entries < n ↔ ∀ e ∈ entries, e.1.longest < n ∧ e.2.longest < n := by
  induction entries with
  | nil => simp [entriesLongest, hn]
  | cons e es ih => rw [entriesLongest, Nat.max_lt, Nat.max_lt, List.forall_mem_cons, ih]

theorem fits_arr_iff {items : List MessagePack} : (arr items).Fits (depth + 1) ↔
    items.length < 2 ^ 32 ∧ ∀ m ∈ items, m.Fits depth := by
  have hl : (arr items).longest < 2 ^ 32 ↔
      items.length < 2 ^ 32 ∧ ∀ m ∈ items, m.longest < 2 ^ 32 := by
    rw [longest, Nat.max_lt, itemsLongest_lt_iff (by decide)]
  have hn : (arr items).nesting ≤ depth + 1 ↔ ∀ m ∈ items, m.nesting ≤ depth := by
    rw [nesting, Nat.add_le_add_iff_right, itemsNesting_le_iff]
  constructor
  · rintro ⟨h, h'⟩
    exact ⟨(hl.mp h).1, fun m hm => ⟨(hl.mp h).2 m hm, hn.mp h' m hm⟩⟩
  · rintro ⟨h, h'⟩
    exact ⟨hl.mpr ⟨h, fun m hm => (h' m hm).longest_lt⟩, hn.mpr fun m hm => (h' m hm).nesting_le⟩

theorem fits_map_iff {entries : List (MessagePack × MessagePack)} :
    (map entries).Fits (depth + 1) ↔
      entries.length < 2 ^ 32 ∧ ∀ e ∈ entries, e.1.Fits depth ∧ e.2.Fits depth := by
  have hl : (map entries).longest < 2 ^ 32 ↔ entries.length < 2 ^ 32 ∧
      ∀ e ∈ entries, e.1.longest < 2 ^ 32 ∧ e.2.longest < 2 ^ 32 := by
    rw [longest, Nat.max_lt, entriesLongest_lt_iff (by decide)]
  have hn : (map entries).nesting ≤ depth + 1 ↔
      ∀ e ∈ entries, e.1.nesting ≤ depth ∧ e.2.nesting ≤ depth := by
    rw [nesting, Nat.add_le_add_iff_right, entriesNesting_le_iff]
  constructor
  · rintro ⟨h, h'⟩
    exact ⟨(hl.mp h).1, fun e he => ⟨⟨((hl.mp h).2 e he).1, (hn.mp h' e he).1⟩,
      ⟨((hl.mp h).2 e he).2, (hn.mp h' e he).2⟩⟩⟩
  · rintro ⟨h, h'⟩
    exact ⟨hl.mpr ⟨h, fun e he => ⟨(h' e he).1.longest_lt, (h' e he).2.longest_lt⟩⟩,
      hn.mpr fun e he => ⟨(h' e he).1.nesting_le, (h' e he).2.nesting_le⟩⟩

theorem fits_succ_of_nested (h : m.Fits depth) (hn : 0 < m.nesting) :
    ∃ inner, depth = inner + 1 :=
  ⟨depth - 1, by have := h.nesting_le; omega⟩

section Many
variable {α : Type} {step : List UInt8 → Option (α × List UInt8)} {good : α → Prop}

theorem readMany_spec (hs : ∀ {bs x rest}, step bs = some (x, rest) → good x) {xs : List α}
    (h : readMany step n bs = some (xs, rest)) : xs.length = n ∧ ∀ x ∈ xs, good x := by
  induction n generalizing bs xs with
  | zero =>
    cases h
    exact ⟨rfl, fun _ h => absurd h List.not_mem_nil⟩
  | succ n ih =>
    obtain ⟨⟨x, bs'⟩, hx, h⟩ := Option.bind_eq_some_iff.mp h
    obtain ⟨⟨xs', rest'⟩, hxs, h⟩ := Option.bind_eq_some_iff.mp h
    cases h
    obtain ⟨hl, hg⟩ := ih hxs
    exact ⟨congrArg (· + 1) hl, List.forall_mem_cons.mpr ⟨hs hx, hg⟩⟩

end Many

theorem readEntry_spec {step : List UInt8 → Option (MessagePack × List UInt8)}
    {good : MessagePack → Prop} (hs : ∀ {bs m rest}, step bs = some (m, rest) → good m)
    {e : MessagePack × MessagePack} (h : readEntry step bs = some (e, rest)) :
    good e.1 ∧ good e.2 := by
  obtain ⟨⟨k, bs'⟩, hk, h⟩ := Option.bind_eq_some_iff.mp h
  obtain ⟨⟨v, rest'⟩, hv, h⟩ := Option.bind_eq_some_iff.mp h
  cases h
  exact ⟨hs hk, hs hv⟩

theorem fits_of_readBody {header : Header} (hh : header.Small)
    (hs : ∀ step, stepAt depth = some step →
      ∀ {bs m rest}, step bs = some (m, rest) → m.Fits (depth - 1))
    (h : readBody (stepAt depth) header bs = some (m, rest)) : m.Fits depth := by
  cases header with
  | leaf tree =>
    rw [readBody] at h
    cases h
    exact ⟨hh.1 ▸ by decide, hh.2 ▸ Nat.zero_le depth⟩
  | str n =>
    rw [readBody] at h
    obtain ⟨⟨text, rest'⟩, hf, he⟩ := Option.map_eq_some_iff.mp h
    cases he
    exact ⟨Nat.lt_of_le_of_lt (Nat.le_of_eq (length_of_splitBytes hf)) hh, Nat.zero_le depth⟩
  | bin n =>
    rw [readBody] at h
    obtain ⟨⟨text, rest'⟩, hf, he⟩ := Option.map_eq_some_iff.mp h
    cases he
    exact ⟨Nat.lt_of_le_of_lt (Nat.le_of_eq (length_of_splitBytes hf)) hh, Nat.zero_le depth⟩
  | ext n =>
    cases depth with
    | zero => cases h
    | succ depth =>
      rw [stepAt, readBody] at h
      split at h
      · next kind data rest' hf =>
        cases h
        have hl : data.length = n := Nat.succ.inj (length_of_splitBytes hf)
        exact ⟨Nat.lt_of_le_of_lt (Nat.le_of_eq hl) hh, Nat.succ_le_succ (Nat.zero_le depth)⟩
      · cases h
  | arr n =>
    cases depth with
    | zero => cases h
    | succ depth =>
      rw [stepAt, readBody] at h
      obtain ⟨⟨items, rest'⟩, hm, he⟩ := Option.map_eq_some_iff.mp h
      cases he
      obtain ⟨hl, hg⟩ := readMany_spec (hs _ rfl) hm
      exact fits_arr_iff.mpr ⟨hl.symm ▸ hh, hg⟩
  | map n =>
    cases depth with
    | zero => cases h
    | succ depth =>
      rw [stepAt, readBody] at h
      obtain ⟨⟨entries, rest'⟩, hm, he⟩ := Option.map_eq_some_iff.mp h
      cases he
      obtain ⟨hl, hg⟩ := readMany_spec (readEntry_spec (hs _ rfl)) hm
      exact fits_map_iff.mpr ⟨hl.symm ▸ hh, hg⟩

theorem fits_of_readWithin (h : readWithin depth bs = some (m, rest)) : m.Fits depth := by
  induction depth generalizing bs m rest with
  | zero =>
    obtain ⟨⟨header, bs'⟩, hh, h⟩ := Option.bind_eq_some_iff.mp h
    exact fits_of_readBody (Header.small_of_read? hh) (fun step hs => by cases hs) h
  | succ depth ih =>
    obtain ⟨⟨header, bs'⟩, hh, h⟩ := Option.bind_eq_some_iff.mp h
    refine fits_of_readBody (Header.small_of_read? hh) (fun step hs => ?_) h
    cases hs
    exact ih

theorem length_bytes_pos (m : MessagePack) : 0 < m.bytes.length := by
  cases m with
  | bool b => cases b <;> exact Nat.one_pos
  | nil | float _ => exact Nat.succ_pos _
  | uint _ | sint _ | str _ | bin _ | ext _ _ | arr _ | map _ =>
    simp only [bytes, uintBytes, sintBytes, strHeader, binHeader, extHeader, arrHeader, mapHeader]
    repeat' split
    all_goals exact Nat.succ_pos _

mutual

/-- All that is announced is there. -/
theorem longest_le_length_bytes (m : MessagePack) : m.longest ≤ m.bytes.length := by
  cases m with
  | nil | bool _ | uint _ | sint _ | float _ => exact Nat.zero_le _
  | str bs | bin bs =>
    rw [longest, bytes, List.length_append]
    omega
  | ext kind bs =>
    rw [longest, bytes, List.length_append, List.length_cons]
    omega
  | arr items =>
    have hi := itemsLongest_le_length_bytes items
    rw [longest, bytes, List.length_append]
    omega
  | map entries =>
    have he := entriesLongest_le_length_bytes entries
    rw [longest, bytes, List.length_append]
    omega

theorem itemsLongest_le_length_bytes (items : List MessagePack) :
    max items.length (itemsLongest items) ≤ (itemsBytes items).length := by
  cases items with
  | nil => exact Nat.le_refl 0
  | cons m ms =>
    have hpos := m.length_bytes_pos
    have hm := longest_le_length_bytes m
    have hms := itemsLongest_le_length_bytes ms
    rw [itemsLongest, itemsBytes, List.length_append, List.length_cons]
    omega

theorem entriesLongest_le_length_bytes (entries : List (MessagePack × MessagePack)) :
    max entries.length (entriesLongest entries) ≤ (entriesBytes entries).length := by
  cases entries with
  | nil => exact Nat.le_refl 0
  | cons e es =>
    obtain ⟨k, v⟩ := e
    have hpos := k.length_bytes_pos
    have hk := longest_le_length_bytes k
    have hv := longest_le_length_bytes v
    have hes := entriesLongest_le_length_bytes es
    rw [entriesLongest, entriesBytes, List.length_append, List.length_append, List.length_cons]
    omega

end

end MessagePack
end PropertyGraph
