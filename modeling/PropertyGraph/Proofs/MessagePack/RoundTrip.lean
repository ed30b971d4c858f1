import PropertyGraph.Proofs.MessagePack.Header

/-! Reading MessagePack undoes writing it, exactly as deep as collections may be opened. -/
namespace PropertyGraph.MessagePack

variable {depth : Nat} {bs rest : List UInt8}

mutual

/-- The most collections one inside the other, in the way the reader counts them. -/
def nesting : MessagePack → Nat
  | ext _ _ => 1
  | arr items => itemsNesting items + 1
  | map entries => entriesNesting entries + 1
  | _ => 0

def itemsNesting : List MessagePack → Nat
  | [] => 0
  | m :: ms => max m.nesting (itemsNesting ms)

def entriesNesting : List (MessagePack × MessagePack) → Nat
  | [] => 0
  | (k, v) :: rest => max (max k.nesting v.nesting) (entriesNesting rest)

end

mutual

/-- The largest size that a header of the tree has to announce. -/
def longest : MessagePack → Nat
  | str bs | bin bs | ext _ bs => bs.length
  | arr items => max items.length (itemsLongest items)
  | map entries => max entries.length (entriesLongest entries)
  | _ => 0

def itemsLongest : List MessagePack → Nat
  | [] => 0
  | m :: ms => max m.longest (itemsLongest ms)

def entriesLongest : List (MessagePack × MessagePack) → Nat
  | [] => 0
  | (k, v) :: rest => max (max k.longest v.longest) (entriesLongest rest)

end

/-- The limits of the format: what a header can announce, and how deep a reader goes. -/
structure WithinLimits (m : MessagePack) : Prop where
  longest_lt : m.longest < 2 ^ 32
  nesting_le : m.nesting ≤ maxDepth

instance (m : MessagePack) : Decidable m.WithinLimits :=
  decidable_of_iff (m.longest < 2 ^ 32 ∧ m.nesting ≤ maxDepth)
    ⟨fun h => ⟨h.1, h.2⟩, fun h => ⟨h.longest_lt, h.nesting_le⟩⟩

/-- How the parts of a collection are read, where one may still be opened. -/
def stepAt : Nat → Option (List UInt8 → Option (MessagePack × List UInt8))
  | 0 => none
  | depth + 1 => some (readWithin depth)

theorem readWithin_of_header {header : Header} (h : Header.read? bs = some (header, rest)) :
    readWithin depth bs = readBody (stepAt depth) header rest := by
  cases depth <;> simp [readWithin, stepAt, h]

theorem readWithin_of_leaf {m : MessagePack} (h : Header.read? bs = some (.leaf m, rest)) :
    readWithin depth bs = some (m, rest) := by
  rw [readWithin_of_header h, readBody]

mutual

/-- A tree whose sizes can be announced is read again if it is not nested too deep, and refused
otherwise. -/
theorem readWithin_bytes (m : MessagePack) (h : m.longest < 2 ^ 32) (depth : Nat)
    (rest : List UInt8) :
    readWithin depth (m.bytes ++ rest) = if m.nesting ≤ depth then some (m, rest) else none := by
  cases m with
  | nil => exact readWithin_of_leaf rfl
  | bool b => cases b <;> exact readWithin_of_leaf rfl
  | uint n =>
    have hr := Header.read?_uintBytes n.toNat_lt rest
    rw [Header.uint, UInt64.ofNat_toNat] at hr
    exact readWithin_of_leaf hr
  | sint i => exact readWithin_of_leaf (Header.read?_sintBytes i rest)
  | float x =>
    have hx : x.bits.toNat < 256 ^ 8 := x.bits.toNat_lt
    have hr := Header.sized_ofNat (fun n => .leaf (.float ⟨.ofNat n⟩)) hx rest
    rw [UInt64.ofNat_toNat] at hr
    exact readWithin_of_leaf hr
  | str bs =>
    rw [longest] at h
    have hr := Header.read?_strHeader h (bs ++ rest)
    simp [bytes, nesting, readWithin_of_header hr, readBody, splitBytes_append]
  | bin bs =>
    rw [longest] at h
    have hr := Header.read?_binHeader h (bs ++ rest)
    simp [bytes, nesting, readWithin_of_header hr, readBody, splitBytes_append]
  | ext kind bs =>
    rw [longest] at h
    have hr := Header.read?_extHeader h (kind :: bs ++ rest)
    have hs := splitBytes_append (kind :: bs) rest
    rw [bytes, List.append_assoc, readWithin_of_header hr]
    cases depth with
    | zero => simp [readBody, stepAt, nesting]
    | succ depth => simp_all [readBody, stepAt, nesting]
  | arr items =>
    simp only [longest, Nat.max_lt] at h
    have hr := Header.read?_arrHeader h.1 (itemsBytes items ++ rest)
    rw [bytes, List.append_assoc, readWithin_of_header hr]
    cases depth with
    | zero => simp [readBody, stepAt, nesting]
    | succ depth =>
      simp only [readBody, stepAt, nesting, readMany_itemsBytes items h.2, Nat.add_le_add_iff_right]
      split <;> rfl
  | map entries =>
    simp only [longest, Nat.max_lt] at h
    have hr := Header.read?_mapHeader h.1 (entriesBytes entries ++ rest)
    rw [bytes, List.append_assoc, readWithin_of_header hr]
    cases depth with
    | zero => simp [readBody, stepAt, nesting]
    | succ depth =>
      simp only [readBody, stepAt, nesting, readMany_entriesBytes entries h.2,
        Nat.add_le_add_iff_right]
      split <;> rfl

theorem readMany_itemsBytes (items : List MessagePack) (h : itemsLongest items < 2 ^ 32)
    (depth : Nat) (rest : List UInt8) :
    readMany (readWithin depth) items.length (itemsBytes items ++ rest) =
      if itemsNesting items ≤ depth then some (items, rest) else none := by
  cases items with
  | nil => simp [readMany, itemsBytes, itemsNesting]
  | cons m ms =>
    simp only [itemsLongest, Nat.max_lt] at h
    have hm := readWithin_bytes m h.1 depth (itemsBytes ms ++ rest)
    have hms := readMany_itemsBytes ms h.2 depth rest
    simp only [itemsBytes, List.length_cons, readMany, List.append_assoc, hm, itemsNesting,
      Nat.max_le]
    by_cases hd : m.nesting ≤ depth <;> by_cases hds : itemsNesting ms ≤ depth <;>
      simp [hd, hds, hms]

theorem readMany_entriesBytes (entries : List (MessagePack × MessagePack))
    (h : entriesLongest entries < 2 ^ 32) (depth : Nat) (rest : List UInt8) :
    readMany (readEntry (readWithin depth)) entries.length (entriesBytes entries ++ rest) =
      if entriesNesting entries ≤ depth then some (entries, rest) else none := by
  cases entries with
  | nil => simp [readMany, entriesBytes, entriesNesting]
  | cons e es =>
    obtain ⟨k, v⟩ := e
    simp only [entriesLongest, Nat.max_lt] at h
    have hk := readWithin_bytes k h.1.1 depth (v.bytes ++ (entriesBytes es ++ rest))
    have hv := readWithin_bytes v h.1.2 depth (entriesBytes es ++ rest)
    have hes := readMany_entriesBytes es h.2 depth rest
    simp only [entriesBytes, List.length_cons, readMany, readEntry, List.append_assoc, hk,
      entriesNesting, Nat.max_le]
    by_cases hdk : k.nesting ≤ depth <;> by_cases hdv : v.nesting ≤ depth <;>
      by_cases hds : entriesNesting es ≤ depth <;> simp [hdk, hdv, hds, hv, hes]

end

/-- Nothing is left behind a tree that was written alone. -/
theorem read?_bytes (m : MessagePack) (h : m.longest < 2 ^ 32) :
    read? m.bytes = if m.nesting ≤ maxDepth then some (m, []) else none := by
  have hr := readWithin_bytes m h maxDepth []
  rwa [List.append_nil] at hr

end PropertyGraph.MessagePack
