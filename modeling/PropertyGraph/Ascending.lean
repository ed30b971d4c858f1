/-! Finite maps as entries with ascending keys; maps that answer every lookup alike are equal. -/
namespace PropertyGraph

/-- The laws that make one list of entries the only form of a map. -/
class LinearKey (κ : Type) [LT κ] : Prop where
  irrefl : ∀ a : κ, ¬ a < a
  trans : ∀ {a b c : κ}, a < b → b < c → a < c
  trichotomy : ∀ a b : κ, a < b ∨ a = b ∨ b < a

/-- A lower bound, absent at the front of a map. -/
def Above {κ : Type} [LT κ] : Option κ → κ → Prop
  | none, _ => True
  | some b, k => b < k

theorem Above.of_lt {κ : Type} [LT κ] {b k : κ} (h : b < k) : Above (some b) k := h

theorem Above.lt {κ : Type} [LT κ] {b k : κ} (h : Above (some b) k) : b < k := h

/-- Entries with ascending keys, all above `lo`. -/
inductive Ascending (κ : Type) [LT κ] (α : Type) : Option κ → Type
  | nil {lo : Option κ} : Ascending κ α lo
  | cons {lo : Option κ} (key : κ) (value : α) (above : Above lo key)
      (rest : Ascending κ α (some key)) : Ascending κ α lo

/-- A finite map; its entries are read in the order of their keys. -/
abbrev OrderedMap (κ : Type) [LT κ] (α : Type) : Type := Ascending κ α none

/-- A finite set; its members are read in order. -/
abbrev OrderedSet (κ : Type) [LT κ] : Type := OrderedMap κ Unit

instance : LinearKey String where
  irrefl := String.lt_irrefl
  trans := String.lt_trans
  trichotomy a b := by
    by_cases h : a < b
    · exact .inl h
    · by_cases h' : b < a
      · exact .inr (.inr h')
      · exact .inr (.inl (String.le_antisymm (String.not_lt.1 h') (String.not_lt.1 h)))

theorem Above.trans {κ : Type} [LT κ] [LinearKey κ] {lo : Option κ} {a b : κ}
    (h : Above lo a) (hab : a < b) : Above lo b := by
  cases lo with
  | none => trivial
  | some c => exact LinearKey.trans (a := c) h hab

namespace Ascending
variable {κ α : Type} [LT κ]

instance {lo : Option κ} : EmptyCollection (Ascending κ α lo) := ⟨nil⟩

instance {lo : Option κ} : Inhabited (Ascending κ α lo) := ⟨nil⟩

def toList {lo : Option κ} : Ascending κ α lo → List (κ × α)
  | nil => []
  | cons k v _ rest => (k, v) :: rest.toList

def keys {lo : Option κ} (m : Ascending κ α lo) : List κ := m.toList.map (·.1)

def values {lo : Option κ} (m : Ascending κ α lo) : List α := m.toList.map (·.2)

def isEmpty {lo : Option κ} : Ascending κ α lo → Bool
  | nil => true
  | cons .. => false

/-- The same entries under a lower bound. -/
def relax [LinearKey κ] {b : κ} {lo : Option κ} (hb : Above lo b) :
    Ascending κ α (some b) → Ascending κ α lo
  | nil => nil
  | cons k v h rest => cons k v (hb.trans h) rest

variable [DecidableEq κ]

def get? {lo : Option κ} (m : Ascending κ α lo) (k : κ) : Option α :=
  match m with
  | nil => none
  | cons k' v _ rest => if k = k' then some v else rest.get? k

def contains {lo : Option κ} (m : Ascending κ α lo) (k : κ) : Bool := (m.get? k).isSome

def erase [LinearKey κ] {lo : Option κ} (m : Ascending κ α lo) (k : κ) : Ascending κ α lo :=
  match m with
  | nil => nil
  | cons k' v h rest => if k = k' then rest.relax h else cons k' v h (rest.erase k)

variable [DecidableLT κ]

/-- Writes one entry; an entry under the same key is replaced. -/
def insertAbove [LinearKey κ] {lo : Option κ} (m : Ascending κ α lo) (k : κ) (v : α)
    (above : Above lo k) : Ascending κ α lo :=
  match m with
  | nil => cons k v above nil
  | cons k' v' h rest =>
    if below : k < k' then cons k v above (cons k' v' (.of_lt below) rest)
    else if same : k = k' then cons k' v h rest
    else cons k' v' h (rest.insertAbove k v
      (.of_lt (((LinearKey.trichotomy k k').resolve_left below).resolve_left same)))

end Ascending

namespace OrderedMap
variable {κ α : Type} [LT κ] [LinearKey κ] [DecidableEq κ] [DecidableLT κ]

def insert (m : OrderedMap κ α) (k : κ) (v : α) : OrderedMap κ α := m.insertAbove k v trivial

/-- Of entries with the same key the last one stays. -/
def ofList (entries : List (κ × α)) : OrderedMap κ α :=
  entries.foldl (fun m e => m.insert e.1 e.2) .nil

end OrderedMap

/-- The members in order, each once. -/
def OrderedSet.ofList {κ : Type} [LT κ] [LinearKey κ] [DecidableEq κ] [DecidableLT κ]
    (members : List κ) : OrderedSet κ :=
  OrderedMap.ofList (members.map fun k => (k, ()))

namespace Ascending
variable {κ α : Type} [LT κ] {lo : Option κ}

@[simp] theorem get?_nil [DecidableEq κ] (k : κ) : (nil : Ascending κ α lo).get? k = none := rfl

@[simp] theorem toList_nil : (nil : Ascending κ α lo).toList = [] := rfl

@[simp] theorem toList_cons {k : κ} {v : α} {h : Above lo k} {rest : Ascending κ α (some k)} :
    (cons k v h rest).toList = (k, v) :: rest.toList := rfl

@[simp] theorem toList_relax [LinearKey κ] {b : κ} (hb : Above lo b) (m : Ascending κ α (some b)) :
    (m.relax hb).toList = m.toList := by
  cases m <;> rfl

theorem toList_inj {a b : Ascending κ α lo} (h : a.toList = b.toList) : a = b := by
  induction a with
  | nil => cases b with
    | nil => rfl
    | cons => simp at h
  | cons k v above rest ih => cases b with
    | nil => simp at h
    | cons k' v' above' rest' =>
      simp only [toList_cons, List.cons.injEq, Prod.mk.injEq] at h
      obtain ⟨⟨rfl, rfl⟩, hr⟩ := h
      rw [ih hr]

instance [DecidableEq κ] [DecidableEq α] : DecidableEq (Ascending κ α lo) := fun a b =>
  decidable_of_iff (a.toList = b.toList) ⟨toList_inj, fun h => h ▸ rfl⟩

variable [LinearKey κ]

theorem above_of_mem {m : Ascending κ α lo} {e : κ × α} (h : e ∈ m.toList) : Above lo e.1 := by
  induction m with
  | nil => simp at h
  | cons k v above rest ih =>
    obtain rfl | h := List.mem_cons.1 h
    · exact above
    · exact above.trans (ih h)

variable [DecidableEq κ]

theorem get?_eq_none_of_not_above {b k : κ} (m : Ascending κ α (some b)) (h : ¬ b < k) :
    m.get? k = none := by
  cases hm : m.get? k with
  | none => rfl
  | some v =>
    suffices ∀ {lo : Option κ} (m : Ascending κ α lo), m.get? k = some v → Above lo k from
      absurd (this m hm) h
    intro lo m hm
    induction m with
    | nil => simp [get?] at hm
    | cons k' v' above rest ih =>
      rw [get?] at hm
      split at hm
      · next he => exact he ▸ above
      · exact above.trans (ih hm)

@[simp] theorem get?_relax {b : κ} (hb : Above lo b) (m : Ascending κ α (some b)) (k : κ) :
    (m.relax hb).get? k = m.get? k := by
  cases m <;> rfl

/-- Maps that answer every lookup alike are the same map. -/
theorem ext_get? {a b : Ascending κ α lo} (h : ∀ k, a.get? k = b.get? k) : a = b := by
  induction a with
  | nil => cases b with
    | nil => rfl
    | cons k v above rest => simpa [get?] using h k
  | cons k v above rest ih => cases b with
    | nil => simpa [get?] using h k
    | cons k' v' above' rest' =>
      obtain hk | rfl | hk := LinearKey.trichotomy k k'
      · have hne : k ≠ k' := fun he => LinearKey.irrefl k' (he ▸ hk)
        have := h k
        simp [get?, hne, rest'.get?_eq_none_of_not_above
          fun hlt => LinearKey.irrefl k (LinearKey.trans hk hlt)] at this
      · have hv := h k
        simp only [get?, if_true, Option.some.injEq] at hv
        subst hv
        congr 1
        apply ih
        intro j
        by_cases hj : j = k
        · rw [hj, rest.get?_eq_none_of_not_above (LinearKey.irrefl k),
            rest'.get?_eq_none_of_not_above (LinearKey.irrefl k)]
        · simpa [get?, hj] using h j
      · have hne : k' ≠ k := fun he => LinearKey.irrefl k (he ▸ hk)
        have := h k'
        simp [get?, hne, rest.get?_eq_none_of_not_above
          fun hlt => LinearKey.irrefl k' (LinearKey.trans hk hlt)] at this

theorem get?_erase (m : Ascending κ α lo) (k j : κ) :
    (m.erase k).get? j = if j = k then none else m.get? j := by
  induction m with
  | nil => simp [erase]
  | cons k' v above rest ih =>
    rw [erase]
    by_cases hk : k = k'
    · subst hk
      by_cases hj : j = k
      · simp [hj, rest.get?_eq_none_of_not_above (LinearKey.irrefl k)]
      · simp [hj, get?]
    · simp only [hk, if_false, get?, ih]
      by_cases hj : j = k' <;> grind

theorem get?_insertAbove [DecidableLT κ] (m : Ascending κ α lo) (k : κ) (v : α)
    (above : Above lo k) (j : κ) :
    (m.insertAbove k v above).get? j = if j = k then some v else m.get? j := by
  induction m with
  | nil => simp [insertAbove, get?]
  | cons k' v' h rest ih =>
    rw [insertAbove]
    split
    · rfl
    · split
      · next he => subst he; by_cases hj : j = k <;> simp [get?, hj]
      · rw [get?, ih, get?]
        by_cases hj : j = k' <;> grind

end Ascending

theorem OrderedMap.get?_insert {κ α : Type} [LT κ] [LinearKey κ] [DecidableEq κ] [DecidableLT κ]
    (m : OrderedMap κ α) (k : κ) (v : α) (j : κ) :
    (m.insert k v).get? j = if j = k then some v else m.get? j :=
  Ascending.get?_insertAbove m k v trivial j

end PropertyGraph
