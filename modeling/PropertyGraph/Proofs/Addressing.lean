import PropertyGraph.Proofs.Paths
import PropertyGraph.Proofs.Refinement

/-! What a store holds can be found by paths of segments, but not every path can be named. -/
namespace PropertyGraph

variable {s : Store} {kind : EngineKind} {upsertOnRead : Bool} {R : Reference} {p : Pair}
  {props : Option Properties} {m m' : Properties} {writes : List (PropertyName × Value)}

namespace Reference

/-- All that is stored has keys that are segments. -/
def WellKeyed (R : Reference) : Prop := ∀ p, ∀ m ∈ R.props p, m.WellKeyed

theorem wellKeyed_empty : WellKeyed ∅ := by
  intro p m hm
  cases hm

theorem props_insert (R : Reference) (p : Pair) (props : Option Properties) (q : Pair) :
    Reference.props (R.insert p props) q = if q = p then props else R.props q := by
  rw [Reference.props, OrderedMap.get?_insert]
  split <;> rfl

theorem WellKeyed.insert (h : R.WellKeyed) (hm : ∀ m ∈ props, m.WellKeyed) :
    WellKeyed (OrderedMap.insert R p props) := by
  intro q
  rw [props_insert]
  split
  · exact hm
  · exact h q

theorem wellKeyed_of_checked {entries : List (String × Value)}
    (h : entries.mapM checked = .ok writes) : ∀ w ∈ writes, w.2.WellKeyed := by
  have hm := mapM_eq_ok.mp h
  intro w hw
  have hc : Except.ok w ∈ entries.map checked := hm ▸ List.mem_map_of_mem hw
  obtain ⟨entry, -, he⟩ := List.mem_map.mp hc
  obtain ⟨name, -, he⟩ := bind_eq_ok.mp he
  obtain ⟨_, hv, he⟩ := bind_eq_ok.mp he
  cases he
  exact hv

theorem wellKeyed_foldlM (h : m.WellKeyed) (hw : ∀ w ∈ writes, w.2.WellKeyed)
    (hf : writes.foldlM (fun m w => m.write w.1 w.2) m = .ok m') : m'.WellKeyed := by
  induction writes generalizing m with
  | nil =>
    cases hf
    exact h
  | cons w ws ih =>
    rw [List.foldlM_cons] at hf
    obtain ⟨m₁, hm₁, hf⟩ := bind_eq_ok.mp hf
    obtain ⟨hw₁, hws⟩ := List.forall_mem_cons.mp hw
    exact ih (h.write hw₁ hm₁) hws hf

theorem wellKeyed_assign {props' : Option Properties} (h : ∀ m ∈ props, m.WellKeyed)
    (hw : ∀ w ∈ writes, w.2.WellKeyed) (ha : assign props writes = .ok props') :
    ∀ m ∈ props', m.WellKeyed := by
  rw [assign] at ha
  split at ha
  · cases ha
    exact h
  · obtain ⟨m', hf, rfl⟩ := map_eq_ok.mp ha
    have hb : (props.getD ∅).WellKeyed := by
      cases props with
      | none => exact Properties.wellKeyed_empty
      | some m => exact h m rfl
    intro m hm
    cases hm
    exact wellKeyed_foldlM hb hw hf

theorem WellKeyed.set {R' : Reference} {a : Assignment} (h : R.WellKeyed)
    (hs : R.set a = .ok R') : R'.WellKeyed := by
  obtain ⟨writes, hw, hs⟩ := bind_eq_ok.mp hs
  obtain ⟨props, ha, hs⟩ := bind_eq_ok.mp hs
  cases hs
  exact h.insert (wellKeyed_assign (h _) (wellKeyed_of_checked hw) ha)

theorem wellKeyed_clear {selected : Option Selector} (h : ∀ m ∈ props, m.WellKeyed) :
    ∀ m ∈ Selector.clear selected props, m.WellKeyed := by
  intro m' hm
  rcases selected with _ | _ | names
  · cases hm
  · cases hm
  · obtain ⟨m, hp, rfl⟩ := Option.map_eq_some_iff.mp hm
    have hu : ∀ (names : List PropertyName) (m : Properties), m.WellKeyed →
        (names.foldl Properties.unset m).WellKeyed := by
      intro names
      induction names with
      | nil => exact fun m hm => hm
      | cons name names ih => exact fun m hm => ih _ (hm.unset name)
    exact hu names.keys m (h m hp)

/-- One call: values are checked before they are written, and nothing else adds a key. -/
theorem WellKeyed.call (h : R.WellKeyed) (c : StoreCall) :
    (R.call upsertOnRead c).2.WellKeyed := by
  cases c with
  | set a =>
    rw [Reference.call]
    cases hs : R.set a with
    | ok R' => exact h.set hs
    | error fault => exact h
  | remove sel => exact h.insert (wellKeyed_clear (h _))
  | get sel =>
    rw [Reference.call, Reference.get]
    cases R.get? ⟨sel.src, sel.dest⟩ with
    | some props => exact h
    | none =>
      cases upsertOnRead with
      | true => exact h.insert fun m hm => by cases hm
      | false => exact h
  | find q => exact h

theorem WellKeyed.run (h : R.WellKeyed) (calls : List StoreCall) :
    (runCalls (Reference.call upsertOnRead) R calls).2.WellKeyed := by
  induction calls generalizing R with
  | nil => exact h
  | cons c cs ih => exact ih (h.call c)

theorem WellKeyed.edges {key : String} {e : Edge} (h : R.WellKeyed)
    (he : R.edges.get? key = some e) : ∀ m ∈ e.props, m.WellKeyed := by
  have hm := (Ascending.mem_toList_iff R.edges key e).mpr he
  rw [toList_edges] at hm
  obtain ⟨⟨p, props⟩, hp, hpe⟩ := List.mem_map.mp hm
  cases hpe
  have hr : R.props p = props := by
    rw [Reference.props, (Ascending.mem_toList_iff R p props).mp hp, Option.join_some]
  exact hr ▸ h p

end Reference

namespace Store

def outer : PropertyName := ⟨"a", by decide, by decide⟩

/-- One value below one key of a map. -/
def nested (p : Pair) (inner : String) : Assignment where
  src := p.src
  dest := p.dest
  props := OrderedMap.ofList [("a", .map (OrderedMap.ofList [(inner, .int 1)]))]

section Nested
variable {inner : String}

theorem mapM_checked_nested (p : Pair) (hk : IsSegment inner) :
    (nested p inner).props.toList.mapM Reference.checked =
      .ok [(outer, .map (OrderedMap.ofList [(inner, .int 1)]))] := by
  have hv : Value.checkKeys (.map (OrderedMap.ofList [(inner, .int 1)])) = .ok () := by
    refine (Value.checkFields_eq_ok _).mpr ?_
    intro e he
    obtain rfl := List.mem_singleton.mp he
    exact ⟨hk, rfl⟩
  have hn : PropertyName.ofText "a" = .ok outer := by rfl
  have hl : (nested p inner).props.toList =
      [("a", .map (OrderedMap.ofList [(inner, .int 1)]))] := rfl
  refine mapM_eq_ok.mpr ?_
  rw [hl, List.map_singleton, List.map_singleton, Reference.checked, hn]
  simp only [bind, Except.bind, hv, pure, Except.pure]

theorem assign_nested (p : Pair) (inner : String) :
    Reference.assign none [(outer, .map (OrderedMap.ofList [(inner, .int 1)]))] =
      .ok (some (nested p inner).props) := by
  have hs : outer.segments = ["a"] := by decide
  have hw : Properties.write ∅ outer (.map (OrderedMap.ofList [(inner, .int 1)])) =
      .ok (nested p inner).props := by
    rw [Properties.write, hs]
    rfl
  rw [Reference.assign, List.foldlM_cons, Option.getD_none, hw]
  rfl

/-- Of the keys in a value each is looked at alone. -/
theorem run_nested (hs : s.storage.Serves kind ∅) (p : Pair) (hk : IsSegment inner)
    (hl : kind = .tree →
      Edges.WithinLimits (Reference.edges (OrderedMap.insert ∅ p (some (nested p inner).props)))) :
    (runCalls call s [.set (nested p inner)]).1 = [.done (.ok ())] ∧
      (runCalls call s [.set (nested p inner)]).2.storage.stored? p.key =
        some (.ok (p.edge (some (nested p inner).props))) := by
  have hr : Reference.set ∅ (nested p inner) =
      .ok (OrderedMap.insert (∅ : Reference) p (some (nested p inner).props)) := by
    rw [Reference.set_of_checked _ (mapM_checked_nested p hk)]
    exact congrArg (Except.map _) (assign_nested p inner)
  have h : s.Refines kind s.upsertOnRead ∅ := ⟨hs, rfl⟩
  have hempty : (∅ : Reference).edges.WithinLimits := by decide
  obtain ⟨ha, hr'⟩ := h.setProperties (fun _ => hempty) (nested p inner)
  rw [Reference.call, hr] at ha hr'
  refine ⟨congrArg ([·]) ha, (hr'.serves.stored? hl p.key).trans ?_⟩
  rw [Reference.get?_edges, OrderedMap.get?_insert, if_pos rfl]
  rfl

theorem at?_nested (p : Pair) (inner : String) :
    (nested p inner).props.at? ["a", inner] = some (.int 1) := by
  have hi : (OrderedMap.ofList [(inner, Value.int 1)]).get? inner = some (.int 1) :=
    (OrderedMap.get?_insert _ inner _ inner).trans (if_pos rfl)
  exact congrArg (Option.bind · (·.at? [])) hi

theorem ofText_nested (hl : 254 ≤ inner.utf8ByteSize) :
    PropertyName.ofText (joinDots ["a", inner]) = .error .nameLength := by
  apply PropertyName.ofText_of_length
  have ha : ("a" ++ ".").utf8ByteSize = 2 := by decide
  rw [joinDots, String.intercalate_cons_cons, String.intercalate_singleton,
    String.utf8ByteSize_append, ha]
  omega

end Nested

/-- To every stored value a path leads whose keys are segments. If their names together are short
enough they are the name of the value. Only the length of a whole name is looked at and never that
of a key inside a value, so there may be values that have none. -/
theorem stored_paths (hs : s.storage.Serves kind ∅) (calls : List StoreCall)
    (limits : kind = .tree → ∀ before, before <+: calls →
      (runCalls (Reference.call s.upsertOnRead) ∅ before).2.WithinLimits)
    {key : String} {e : Edge} {keys : List String} {v : Value}
    (he : (runCalls call s calls).2.storage.stored? key = some (.ok e)) (hp : e.props = some m)
    (hne : keys ≠ []) (hv : m.at? keys = some v) :
    (∀ k ∈ keys, IsSegment k) ∧
      ((joinDots keys).utf8ByteSize ≤ 255 → ∃ name,
        PropertyName.ofText (joinDots keys) = .ok name ∧ name.segments = keys ∧
          m.Reaches name v) ∧
      (255 < (joinDots keys).utf8ByteSize →
        PropertyName.ofText (joinDots keys) = .error .nameLength) := by
  have h : s.Refines kind s.upsertOnRead ∅ := ⟨hs, rfl⟩
  obtain ⟨-, hr⟩ := h.run calls limits
  rw [hr.serves.stored? fun hk => limits hk calls (List.prefix_refl calls)] at he
  obtain ⟨e', hg, he⟩ := Option.map_eq_some_iff.mp he
  cases he
  have hw := (Reference.wellKeyed_empty.run calls).edges hg m hp
  rw [Properties.at?_eq hne] at hv
  obtain ⟨hk, -⟩ := hw.at? hv
  refine ⟨hk, ?_, PropertyName.ofText_of_length⟩
  intro hl
  obtain ⟨name, hn, hseg⟩ := PropertyName.ofText_joinDots hne hk hl
  refine ⟨name, hn, hseg, Properties.reaches_of_read ?_⟩
  rw [Properties.read, hseg, Properties.at?_eq hne, hv]

set_option maxRecDepth 8000 in
/-- On a tree, where the edge is read from its bytes. -/
theorem stored_paths_sample :
    let p : Pair := ⟨.ofByte 0xaa, .ofByte 0xaa⟩
    let m := (nested p "b").props
    let s : Store := { storage := ⟨.tree true, {}⟩ }
    let calls : List StoreCall := [.set (nested p "b")]
    s.storage.Serves .tree ∅ ∧
      (∀ before, before <+: calls →
        (runCalls (Reference.call true) ∅ before).2.WithinLimits) ∧
      (runCalls call s calls).2.storage.stored? p.key = some (.ok (p.edge (some m))) ∧
      ∃ name, PropertyName.ofText "a.b" = .ok name ∧ name.segments = ["a", "b"] ∧
        m.Reaches name (.int 1) := by
  intro p m s calls
  have hs : s.storage.Serves .tree ∅ := ⟨rfl, rfl, rfl⟩
  have hl : ∀ n ≤ 1, (runCalls (Reference.call true) ∅ (calls.take n)).2.edges.WithinLimits := by
    decide
  have limits : ∀ before, before <+: calls →
      (runCalls (Reference.call true) ∅ before).2.WithinLimits := by
    intro before hb
    rw [List.prefix_iff_eq_take.mp hb]
    exact hl _ hb.length_le
  have he : (runCalls call s calls).2.storage.stored? p.key = some (.ok (p.edge (some m))) :=
    (run_nested hs p (by decide) fun _ => hl 1 (Nat.le_refl 1)).2
  have hj : joinDots ["a", "b"] = "a.b" := by decide
  obtain ⟨-, hn, -⟩ := stored_paths hs calls (fun _ => limits) he rfl
    (List.cons_ne_nil _ _) (at?_nested p "b")
  rw [hj] at hn
  exact ⟨hs, limits, he, hn (by decide)⟩

/-- A key that is a segment and too long to stand below another one in a name. -/
theorem stored_path_without_name :
    let p : Pair := ⟨.ofByte 0xaa, .ofByte 0xaa⟩
    let inner := String.ofList (List.replicate 254 'b')
    let s : Store := { storage := ⟨.memory true false ∅, {}⟩ }
    s.storage.Serves .memory ∅ ∧
      (∃ e m, (runCalls call s [.set (nested p inner)]).2.storage.stored? p.key = some (.ok e) ∧
        e.props = some m ∧ m.at? ["a", inner] = some (.int 1)) ∧
      PropertyName.ofText (joinDots ["a", inner]) = .error .nameLength := by
  intro p inner s
  have hs : s.storage.Serves .memory ∅ := ⟨rfl, rfl, rfl⟩
  have hl : inner.toList = List.replicate 254 'b' := String.toList_ofList
  have hn : 254 ≤ inner.utf8ByteSize := by decide +kernel
  have hk : IsSegment inner := by
    refine ⟨?_, ?_, ?_⟩
    · intro h0
      rw [h0] at hn
      exact absurd hn (by decide)
    · intro hm
      rw [hl] at hm
      exact absurd (List.eq_of_mem_replicate hm) (by decide)
    · rw [hl, List.head?_replicate]
      decide
  have he := (run_nested hs p hk fun hm => by cases hm).2
  exact ⟨hs, ⟨_, _, he, rfl, at?_nested p inner⟩, ofText_nested hn⟩

end Store
end PropertyGraph
