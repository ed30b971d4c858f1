import PropertyGraph.Proofs.Restriction
import PropertyGraph.Proofs.StoredKeys

/-! Properties whose names are single segments: they are set, shown and removed key by key. -/
namespace PropertyGraph

variable {m P : Properties} {k j : String} {v : Value} {keys : List String} {name : PropertyName}
  {names : OrderedSet PropertyName} {props : Option Properties}
  {entries : List (String × Value)}

namespace Value

mutual

theorem wellKeyed_of_hasKey (v : Value) (h : ∀ k, v.HasKey k → IsSegment k) : v.WellKeyed := by
  cases v with
  | arr items =>
    refine (checkItems_eq_ok items).mpr (wellKeyed_of_items items fun w hw k hk => ?_)
    exact h k (.item hw hk)
  | map fields =>
    refine Properties.wellKeyed_iff.mpr fun k u hu => ⟨h k (.own hu), ?_⟩
    refine wellKeyed_of_fields fields (k, u) ((fields.mem_toList_iff k u).mpr hu) fun j hj => ?_
    exact h j (.field hu hj)
  | null | bool _ | int _ | float _ | str _ => rfl

theorem wellKeyed_of_items (items : List Value)
    (h : ∀ w ∈ items, ∀ k, w.HasKey k → IsSegment k) : ∀ w ∈ items, w.WellKeyed := by
  cases items with
  | nil => simp
  | cons v vs =>
    obtain ⟨hv, hvs⟩ := List.forall_mem_cons.mp h
    exact List.forall_mem_cons.mpr ⟨wellKeyed_of_hasKey v hv, wellKeyed_of_items vs hvs⟩

theorem wellKeyed_of_fields {lo : Option String} (fields : Ascending String Value lo) :
    ∀ e ∈ fields.toList, (∀ k, e.2.HasKey k → IsSegment k) → e.2.WellKeyed := by
  cases fields with
  | nil => simp
  | cons k v above rest =>
    intro e he h
    rcases List.mem_cons.mp he with rfl | he
    · exact wellKeyed_of_hasKey v h
    · exact wellKeyed_of_fields rest e he h

end

end Value

theorem segmentsOf_of_dotless (h : '.' ∉ k.toList) : segmentsOf k = [k] := by
  have hj : joinDots [k] = k := String.intercalate_singleton
  rw [← hj]
  exact segmentsOf_joinDots (by simp) (by simpa using h)

namespace Properties

/-- The names of properties that are no paths, and values with keys that paths could name. -/
def TopLevel (P : Properties) : Prop :=
  ∀ k v, P.get? k = some v → (∃ name, PropertyName.ofText k = .ok name) ∧ '.' ∉ k.toList ∧
    ∀ key, v.HasKey key → IsSegment key

theorem topLevel_of_checked (h : ∀ e ∈ P.toList, (∃ name, PropertyName.ofText e.1 = .ok name) ∧
    '.' ∉ e.1.toList ∧ e.2.checkKeys = .ok ()) : P.TopLevel := by
  intro k v hv
  obtain ⟨hn, hd, hc⟩ := h (k, v) ((P.mem_toList_iff k v).mpr hv)
  have hw : v.WellKeyed := hc
  exact ⟨hn, hd, fun key hk => hw.isSegment hk⟩

section Lookups

/-- A map with the entries of another one over its own. -/
def overriddenBy (m P : Properties) : Properties :=
  P.toList.foldl (fun m e => m.insert e.1 e.2) m

/-- The entries under some keys alone. -/
def only (m : Properties) (keys : List String) : Properties :=
  .ofList (m.toList.filter fun e => e.1 ∈ keys)

/-- The entries under all other keys. -/
def without (m : Properties) (keys : List String) : Properties := keys.foldl Ascending.erase m

theorem get?_foldl_insert {lo : Option String} (P : Ascending String Value lo) (m : Properties)
    (k : String) : (P.toList.foldl (fun m e => OrderedMap.insert m e.1 e.2) m).get? k =
      (P.get? k).or (m.get? k) := by
  induction P generalizing m with
  | nil => rfl
  | cons j v above rest ih =>
    rw [Ascending.toList_cons, List.foldl_cons, ih, OrderedMap.get?_insert, Ascending.get?]
    by_cases hk : k = j
    · subst hk
      rw [rest.get?_eq_none_of_not_above (LinearKey.irrefl k), if_pos rfl, if_pos rfl]
      rfl
    · rw [if_neg hk, if_neg hk]

theorem get?_overriddenBy (m P : Properties) (k : String) :
    (m.overriddenBy P).get? k = (P.get? k).or (m.get? k) := get?_foldl_insert P m k

theorem overriddenBy_empty (P : Properties) : overriddenBy ∅ P = P := OrderedMap.ofList_toList P

theorem get?_only (m : Properties) (keys : List String) (k : String) :
    (m.only keys).get? k = if k ∈ keys then m.get? k else none := by
  refine Option.ext fun v => ?_
  have hl := OrderedMap.toList_ofList (m.pairwise_toList.filter fun e => e.1 ∈ keys)
  rw [← Ascending.mem_toList_iff, only, hl, List.mem_filter, Ascending.mem_toList_iff,
    decide_eq_true_iff]
  by_cases hk : k ∈ keys
  · rw [if_pos hk]
    exact and_iff_left hk
  · rw [if_neg hk]
    simp [hk]

theorem get?_without (m : Properties) (keys : List String) (k : String) :
    (m.without keys).get? k = if k ∈ keys then none else m.get? k := by
  rw [without]
  induction keys generalizing m with
  | nil => rfl
  | cons j js ih =>
    rw [List.foldl_cons, ih, Ascending.get?_erase]
    by_cases hj : k = j
    · simp [hj]
    · simp [hj]

theorem getD_map_without (props : Option Properties) (keys : List String) :
    (props.map (·.without keys)).getD ∅ = (props.getD ∅).without keys := by
  cases props with
  | none =>
    refine Ascending.ext_get? fun k => ?_
    rw [Option.getD_none, get?_without]
    exact (ite_self none).symm
  | some m => rfl

/-- Without the keys of what was put over a map there is what was left uncovered of it. -/
theorem without_overriddenBy (m P : Properties) :
    (m.overriddenBy P).without P.keys = m.without P.keys := by
  refine Ascending.ext_get? fun k => ?_
  rw [get?_without, get?_without, get?_overriddenBy]
  by_cases hk : k ∈ P.keys
  · rw [if_pos hk, if_pos hk]
  · have hn : P.get? k = none := by
      rw [Option.eq_none_iff_forall_ne_some]
      exact fun v hv => hk (Ascending.mem_keys_iff.mpr ⟨v, hv⟩)
    rw [if_neg hk, if_neg hk, hn, Option.none_or]

theorem sublist_without (m : Properties) (keys : List String) :
    (m.without keys).toList.Sublist m.toList := by
  rw [without]
  induction keys generalizing m with
  | nil => exact List.Sublist.refl _
  | cons k ks ih => exact (ih (m.erase k)).trans (m.sublist_erase k)

end Lookups

section Writes

theorem write_single (hs : name.segments = [k]) (m : Properties) (v : Value) :
    m.write name v = .ok (m.insert k v) := by
  rw [write, hs]
  rfl

theorem unset_single (hs : name.segments = [k]) (m : Properties) : m.unset name = m.erase k := by
  rw [unset, hs, unsetAt?]
  split
  · rfl
  · next hc =>
    rw [Ascending.contains, Option.not_isSome_iff_eq_none] at hc
    refine Ascending.ext_get? fun j => ?_
    rw [Option.getD_none, Ascending.get?_erase]
    split
    · next hj => rw [hj, hc]
    · rfl

theorem foldl_unset {removed : List PropertyName} (hn : ∀ n ∈ removed, n.segments = [n.text])
    (m : Properties) : removed.foldl unset m = m.without (removed.map (·.text)) := by
  induction removed generalizing m with
  | nil => rfl
  | cons n ns ih =>
    obtain ⟨hs, hns⟩ := List.forall_mem_cons.mp hn
    rw [List.foldl_cons, unset_single hs, ih hns]
    rfl

/-- Names that pass their checks are written under the keys that they were. -/
theorem exists_writes (h : ∀ e ∈ entries, ∃ name, Reference.checked e = .ok (name, e.2) ∧
    name.segments = [e.1]) :
    ∃ writes, entries.mapM Reference.checked = .ok writes ∧ writes.isEmpty = entries.isEmpty ∧
      ∀ m : Properties, writes.foldlM (fun m w => m.write w.1 w.2) m =
        .ok (entries.foldl (fun m e => m.insert e.1 e.2) m) := by
  induction entries with
  | nil => exact ⟨[], rfl, rfl, fun _ => rfl⟩
  | cons e es ih =>
    obtain ⟨⟨name, hc, hs⟩, hes⟩ := List.forall_mem_cons.mp h
    obtain ⟨writes, hw, -, hf⟩ := ih hes
    refine ⟨(name, e.2) :: writes, ?_, rfl, fun m => ?_⟩
    · rw [List.mapM_cons, hc, hw]
      rfl
    · rw [List.foldlM_cons, write_single hs]
      exact hf _

theorem TopLevel.checked (h : P.TopLevel) : ∀ e ∈ P.toList, ∃ name,
    Reference.checked e = .ok (name, e.2) ∧ name.segments = [e.1] := by
  rintro ⟨k, v⟩ he
  obtain ⟨⟨name, hn⟩, hd, hk⟩ := h k v ((P.mem_toList_iff k v).mp he)
  have hv : v.checkKeys = .ok () := v.wellKeyed_of_hasKey hk
  refine ⟨name, ?_, ?_⟩
  · rw [Reference.checked, hn, hv]
    rfl
  · rw [PropertyName.segments, PropertyName.text_of_ofText hn]
    exact segmentsOf_of_dotless hd

/-- Setting single segments never fails, and it is an override. -/
theorem TopLevel.apply_set (h : P.TopLevel) (props : Option Properties) :
    ∃ props', (PairEdit.set P).apply props = .ok props' ∧
      props'.getD ∅ = (props.getD ∅).overriddenBy P := by
  obtain ⟨writes, hw, he, hf⟩ := exists_writes h.checked
  rw [PairEdit.apply, hw]
  change ∃ props', Reference.assign props writes = .ok props' ∧ _
  rw [Reference.assign, he, hf]
  cases hp : P.toList with
  | nil =>
    refine ⟨props, rfl, ?_⟩
    rw [overriddenBy, hp]
    rfl
  | cons e es =>
    refine ⟨_, rfl, ?_⟩
    rw [overriddenBy, hp]
    rfl

theorem exists_ofNames (h : ∀ k ∈ keys, ∃ name, PropertyName.ofText k = .ok name)
    (hs : keys.Pairwise (· < ·)) : ∃ names : OrderedSet PropertyName,
      Selector.ofNames keys = .ok (.named names) ∧ names.keys.map (·.text) = keys := by
  have hm : ∃ ns, keys.mapM PropertyName.ofText = .ok ns ∧ ns.map (·.text) = keys := by
    clear hs
    induction keys with
    | nil => exact ⟨[], rfl, rfl⟩
    | cons k ks ih =>
      obtain ⟨⟨name, hn⟩, hks⟩ := List.forall_mem_cons.mp h
      obtain ⟨ns, hm, ht⟩ := ih hks
      refine ⟨name :: ns, ?_, ?_⟩
      · rw [List.mapM_cons, hn, hm]
        rfl
      · rw [List.map_cons, ht, PropertyName.text_of_ofText hn]
  obtain ⟨ns, hm, rfl⟩ := hm
  refine ⟨.ofList ns, ?_, ?_⟩
  · rw [Selector.ofNames, hm]
    rfl
  · have hns : ns.Pairwise (·.text < ·.text) := List.pairwise_map.mp hs
    have hp : (ns.map fun n => (n, ())).Pairwise (·.1 < ·.1) := List.pairwise_map.mpr hns
    rw [Ascending.keys, OrderedSet.ofList, OrderedMap.toList_ofList hp, List.map_map,
      List.map_map]
    rfl

theorem TopLevel.exists_names (h : P.TopLevel) : ∃ names : OrderedSet PropertyName,
    Selector.ofNames P.keys = .ok (.named names) ∧
      ∀ m : Properties, names.keys.foldl unset m = m.without P.keys := by
  have hk : ∀ k ∈ P.keys, (∃ name, PropertyName.ofText k = .ok name) ∧ '.' ∉ k.toList := by
    intro k hk
    obtain ⟨v, hv⟩ := Ascending.mem_keys_iff.mp hk
    obtain ⟨hn, hd, -⟩ := h k v hv
    exact ⟨hn, hd⟩
  obtain ⟨names, hs, ht⟩ := exists_ofNames (fun k hm => (hk k hm).1) P.pairwise_keys
  refine ⟨names, hs, fun m => ?_⟩
  rw [← ht]
  refine foldl_unset (fun n hn => segmentsOf_of_dotless (hk n.text ?_).2) m
  exact ht ▸ List.mem_map_of_mem hn

end Writes

/-- A selection by single segments is one by keys. -/
theorem restrict_dotless (h : ∀ n ∈ names.keys, '.' ∉ n.text.toList) (m : Properties) :
    m.restrict names = m.only (names.keys.map (·.text)) := by
  obtain ⟨r, hr, hc⟩ := m.copies_nil.run names.keys
  rw [restrict_of_foldlM hr]
  have hat : ∀ (m : Properties) k, m.at? [k] = m.get? k := by
    intro m k
    rw [at?]
    cases m.get? k <;> rfl
  have hseg : ∀ n ∈ names.keys, n.segments = [n.text] := fun n hn => segmentsOf_of_dotless (h n hn)
  refine Ascending.ext_get? fun k => ?_
  rw [get?_only, ← hat, ← hat]
  by_cases hk : k ∈ names.keys.map (·.text)
  · rw [if_pos hk]
    obtain ⟨n, hn, rfl⟩ := List.mem_map.mp hk
    exact hc.restricts.named _ ⟨n, hn, hseg n hn ▸ List.prefix_refl _⟩
  · rw [if_neg hk]
    have hne : ∀ n ∈ names.keys, n.text ≠ k := by
      rintro n hn rfl
      exact hk (List.mem_map_of_mem hn)
    refine hc.restricts.hidden _ ?_ ?_
    · intro n hn hp
      rw [hseg n hn] at hp
      exact hne n hn (List.cons_prefix_cons.mp hp).1
    · intro n hn hl
      rw [hseg n hn] at hl
      exact absurd (onWay_cons_iff.mp hl).1.symm (hne n hn)

end Properties

end PropertyGraph
