import PropertyGraph.Ascending

/-! Ordered maps as lists: their entries ascend, and a list of ascending entries is one map. -/
namespace PropertyGraph

/-- In a list that is in order, what stands before an element is what is below it. -/
theorem mem_before_iff {κ γ : Type} [LT κ] [LinearKey κ] {g : γ → κ}
    {before after : List γ} {x y : γ} (h : (before ++ x :: after).Pairwise (g · < g ·)) :
    y ∈ before ↔ y ∈ before ++ x :: after ∧ g y < g x := by
  obtain ⟨-, hr, hb⟩ := List.pairwise_append.mp h
  constructor
  · intro hy
    exact ⟨List.mem_append_left _ hy, hb y hy x List.mem_cons_self⟩
  · rintro ⟨hy, hlt⟩
    rcases List.mem_append.mp hy with hy | hy
    · exact hy
    · rcases List.mem_cons.mp hy with rfl | hy
      · exact absurd hlt (LinearKey.irrefl _)
      · have hgt := (List.pairwise_cons.mp hr).1 y hy
        exact absurd (LinearKey.trans hlt hgt) (LinearKey.irrefl _)

namespace Ascending
variable {κ α : Type} [LT κ] [LinearKey κ] {lo : Option κ}

theorem pairwise_toList (m : Ascending κ α lo) : m.toList.Pairwise (·.1 < ·.1) := by
  induction m with
  | nil => exact .nil
  | cons k v above rest ih => exact .cons (fun e he => (above_of_mem he).lt) ih

/-- A key above all others is put behind them. -/
theorem toList_insertAbove_last [DecidableEq κ] [DecidableLT κ] (m : Ascending κ α lo) (k : κ)
    (v : α) (above : Above lo k) (hk : ∀ e ∈ m.toList, e.1 < k) :
    (m.insertAbove k v above).toList = m.toList ++ [(k, v)] := by
  induction m with
  | nil => rfl
  | cons k' v' h rest ih =>
    have hlt : k' < k := hk (k', v') (by simp)
    have hge : ¬ k < k' := fun h => LinearKey.irrefl k (LinearKey.trans h hlt)
    have hne : k ≠ k' := by
      rintro rfl
      exact LinearKey.irrefl k hlt
    rw [insertAbove, dif_neg hge, dif_neg hne, toList_cons,
      ih _ (fun e he => hk e (by simp [he]))]
    rfl

theorem length_insertAbove_le [DecidableEq κ] [DecidableLT κ] (m : Ascending κ α lo) (k : κ)
    (v : α) (above : Above lo k) :
    (m.insertAbove k v above).toList.length ≤ m.toList.length + 1 := by
  induction m with
  | nil => exact Nat.le_refl 1
  | cons k' v' h rest ih =>
    rw [insertAbove]
    split
    · exact Nat.le_refl _
    · split
      · exact Nat.le_succ _
      · exact Nat.succ_le_succ (ih _)

theorem mem_toList_iff [DecidableEq κ] (m : Ascending κ α lo) (k : κ) (v : α) :
    (k, v) ∈ m.toList ↔ m.get? k = some v := by
  induction m with
  | nil => simp
  | cons k' v' above rest ih =>
    by_cases hk : k = k'
    · subst hk
      have hr := rest.get?_eq_none_of_not_above (LinearKey.irrefl k)
      have hn : (k, v) ∉ rest.toList := fun h => by simp [ih.mp h] at hr
      simp [get?, hn, eq_comm]
    · simp [get?, hk, ih]

theorem mem_keys_iff [DecidableEq κ] {m : Ascending κ α lo} {k : κ} :
    k ∈ m.keys ↔ ∃ v, m.get? k = some v := by
  rw [keys, List.mem_map]
  constructor
  · rintro ⟨⟨k', v⟩, he, rfl⟩
    exact ⟨v, (mem_toList_iff m k' v).mp he⟩
  · rintro ⟨v, hv⟩
    exact ⟨(k, v), (mem_toList_iff m k v).mpr hv, rfl⟩

theorem pairwise_keys (m : Ascending κ α lo) : m.keys.Pairwise (· < ·) :=
  List.pairwise_map.mpr m.pairwise_toList

/-- Whoever goes through a map comes to a smaller key first. -/
theorem exists_keys_eq {m : Ascending κ α lo} {k j : κ} (hk : k ∈ m.keys) (hj : j ∈ m.keys)
    (h : k < j) : ∃ before between after, m.keys = before ++ k :: between ++ j :: after := by
  have hm := m.pairwise_keys
  obtain ⟨front, after, hs⟩ := List.append_of_mem hj
  rw [hs] at hm hk
  have hf : k ∈ front := (mem_before_iff (g := id) hm).mpr ⟨hk, h⟩
  obtain ⟨before, between, rfl⟩ := List.append_of_mem hf
  exact ⟨before, between, after, hs⟩

theorem sublist_erase [DecidableEq κ] (m : Ascending κ α lo) (k : κ) :
    (m.erase k).toList.Sublist m.toList := by
  induction m with
  | nil => exact List.Sublist.refl _
  | cons j v above rest ih =>
    rw [erase]
    split
    · rw [toList_relax]
      exact List.sublist_cons_self _ _
    · exact ih.cons_cons _

/-- Values that can only stand under one key are found by looking there. -/
theorem filter_values_of_key [DecidableEq κ] {m : Ascending κ α lo} {k : κ} {pred : α → Bool}
    (h : ∀ e ∈ m.toList, pred e.2 = true → e.1 = k) :
    m.values.filter pred = ((m.get? k).filter pred).toList := by
  induction m with
  | nil => rfl
  | cons k' v above rest ih =>
    have hr := ih fun e he => h e (List.mem_cons_of_mem _ he)
    have hv : (cons k' v above rest).values = v :: rest.values := rfl
    rw [hv, List.filter_cons, hr, get?]
    by_cases hk : k = k'
    · subst hk
      rw [rest.get?_eq_none_of_not_above (LinearKey.irrefl k), if_pos rfl]
      cases hp : pred v <;> simp [Option.filter, hp]
    · have hp : ¬ pred v = true := fun hp => hk (h (k', v) List.mem_cons_self hp).symm
      rw [if_neg hp, if_neg hk]

theorem mem_values_of_get? [DecidableEq κ] {m : Ascending κ α lo} {k : κ} {v : α}
    (h : m.get? k = some v) : v ∈ m.values :=
  List.mem_map.mpr ⟨(k, v), (mem_toList_iff m k v).mpr h, rfl⟩

theorem get?_of_mem_values [DecidableEq κ] {m : Ascending κ α lo} {v : α} (h : v ∈ m.values) :
    ∃ k, m.get? k = some v := by
  obtain ⟨⟨k, w⟩, he, rfl⟩ := List.mem_map.mp h
  exact ⟨k, (mem_toList_iff m k w).mp he⟩

end Ascending

namespace Ascending
variable {κ α β : Type} [LT κ] {lo : Option κ} {f : α → β}

theorem isEmpty_toList (m : Ascending κ α lo) : m.toList.isEmpty = m.isEmpty := by
  cases m <;> rfl

/-- Other values under the same keys. -/
def mapValues (f : α → β) {lo : Option κ} : Ascending κ α lo → Ascending κ β lo
  | nil => nil
  | cons k v above rest => cons k (f v) above (rest.mapValues f)

@[simp] theorem values_mapValues (m : Ascending κ α lo) :
    (m.mapValues f).values = m.values.map f := by
  induction m with
  | nil => rfl
  | cons k v above rest ih => simpa [values, mapValues] using ih

/-- Values that are made from others one by one can stand under the keys of those. -/
theorem exists_mapValues {γ : Type} {g : γ → β} (m : Ascending κ α lo) {vs : List γ}
    (h : m.values.map f = vs.map g) :
    ∃ m' : Ascending κ γ lo, m.mapValues f = m'.mapValues g := by
  induction m generalizing vs with
  | nil => exact ⟨nil, rfl⟩
  | cons k v above rest ih =>
    cases vs with
    | nil => simp [values] at h
    | cons w vs =>
      obtain ⟨hw, hvs⟩ := List.cons.inj h
      obtain ⟨rest', hr⟩ := ih hvs
      exact ⟨cons k w above rest', by rw [mapValues, mapValues, hw, hr]⟩

@[simp] theorem get?_mapValues [DecidableEq κ] (m : Ascending κ α lo) (k : κ) :
    (m.mapValues f).get? k = (m.get? k).map f := by
  induction m with
  | nil => rfl
  | cons k' v above rest ih =>
    rw [mapValues, get?, get?, ih]
    split <;> rfl

end Ascending

namespace OrderedMap
variable {κ α β : Type} [LT κ] [LinearKey κ] [DecidableEq κ] [DecidableLT κ]

theorem insert_get? {m : OrderedMap κ α} {k : κ} {v : α} (h : m.get? k = some v) :
    m.insert k v = m := by
  apply Ascending.ext_get?
  intro j
  rw [get?_insert]
  split
  · next hj => rw [hj, h]
  · rfl

theorem insert_insert (m : OrderedMap κ α) (k : κ) (v w : α) :
    (m.insert k v).insert k w = m.insert k w := by
  apply Ascending.ext_get?
  intro j
  simp only [get?_insert]
  split <;> rfl

theorem insert_comm (m : OrderedMap κ α) {k k' : κ} (h : k ≠ k') (v w : α) :
    (m.insert k v).insert k' w = (m.insert k' w).insert k v := by
  apply Ascending.ext_get?
  intro j
  simp only [get?_insert]
  by_cases hj : j = k
  · subst hj
    rw [if_neg h, if_pos rfl, if_pos rfl]
  · rw [if_neg hj, if_neg hj]

theorem length_insert_le (m : OrderedMap κ α) (k : κ) (v : α) :
    (m.insert k v).toList.length ≤ m.toList.length + 1 :=
  Ascending.length_insertAbove_le m k v trivial

theorem mapValues_insert (f : α → β) (m : OrderedMap κ α) (k : κ) (v : α) :
    (m.insert k v).mapValues f = insert (m.mapValues f) k (f v) := by
  apply Ascending.ext_get?
  intro j
  rw [Ascending.get?_mapValues, get?_insert, get?_insert, Ascending.get?_mapValues]
  split <;> rfl

/-- Entries that come in order stay in that order behind those that are there. -/
theorem toList_foldl_insert (m : OrderedMap κ α) (entries : List (κ × α))
    (h : (m.toList ++ entries).Pairwise (·.1 < ·.1)) :
    (entries.foldl (fun m e => m.insert e.1 e.2) m).toList = m.toList ++ entries := by
  induction entries generalizing m with
  | nil => simp
  | cons e es ih =>
    have hm : (m.insert e.1 e.2).toList = m.toList ++ [e] :=
      Ascending.toList_insertAbove_last m e.1 e.2 trivial fun x hx =>
        (List.pairwise_append.mp h).2.2 x hx e (by simp)
    rw [List.foldl_cons, ih _ (by simpa [hm] using h), hm, List.append_assoc]
    rfl

theorem toList_ofList {entries : List (κ × α)} (h : entries.Pairwise (·.1 < ·.1)) :
    (ofList entries).toList = entries := toList_foldl_insert .nil entries h

@[simp] theorem ofList_toList (m : OrderedMap κ α) : ofList m.toList = m :=
  Ascending.toList_inj (toList_ofList m.pairwise_toList)

end OrderedMap

end PropertyGraph
