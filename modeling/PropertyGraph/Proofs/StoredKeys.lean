import PropertyGraph.Proofs.Addressing
import PropertyGraph.Proofs.PairCalls

/-! Every key that is ever stored is one segment of a path, however deep it stands. -/
namespace PropertyGraph

variable {s : Store} {k : String} {v : Value} {m : Properties} {e e' : Edge} {edges : Edges}
  {existing : Option Edge} {f : Filter} {u : Update} {options : UpsertOptions}

namespace Value

/-- A key of some map inside a value, which may stand below other maps and in arrays. -/
inductive HasKey (k : String) : Value → Prop
  | own {fields : Properties} {v : Value} (h : fields.get? k = some v) : HasKey k (.map fields)
  | field {fields : Properties} {j : String} {v : Value} (h : fields.get? j = some v)
    (hv : HasKey k v) : HasKey k (.map fields)
  | item {items : List Value} {v : Value} (h : v ∈ items) (hv : HasKey k v) : HasKey k (.arr items)

theorem checkItems_eq_ok (items : List Value) :
    checkItems items = .ok () ↔ ∀ v ∈ items, v.WellKeyed := by
  induction items with
  | nil => simp [checkItems]
  | cons v vs ih =>
    rw [checkItems, List.forall_mem_cons, ← ih]
    refine bind_eq_ok.trans ⟨?_, ?_⟩
    · rintro ⟨_, hv, hvs⟩
      exact ⟨hv, hvs⟩
    · rintro ⟨hv, hvs⟩
      exact ⟨(), hv, hvs⟩

theorem WellKeyed.isSegment (h : v.WellKeyed) (hk : v.HasKey k) : IsSegment k := by
  induction hk with
  | own hg => exact (Properties.wellKeyed_iff.mp h _ _ hg).1
  | field hg _ ih => exact ih (Properties.wellKeyed_iff.mp h _ _ hg).2
  | item hm _ ih => exact ih ((checkItems_eq_ok _).mp h _ hm)

end Value

def Edge.WellKeyed (e : Edge) : Prop := ∀ m ∈ e.props, m.WellKeyed

/-- Values of which each has been checked. -/
def Update.WellKeyed (u : Update) : Prop := ∀ w ∈ u.assign.toList, w.2.WellKeyed

namespace Update

theorem wellKeyed_assignAll {writes : List (PropertyName × Value)} (h : m.WellKeyed)
    (hw : ∀ w ∈ writes, w.2.WellKeyed) : (assignAll m writes).2.WellKeyed := by
  induction writes generalizing m with
  | nil => exact h
  | cons w ws ih =>
    obtain ⟨hv, hws⟩ := List.forall_mem_cons.mp hw
    rw [assignAll]
    cases hm : m.write w.1 w.2 with
    | error fault => exact h
    | ok m' => exact ih (h.write hv hm) hws

theorem WellKeyed.assigned (hu : u.WellKeyed) (h : e.WellKeyed) : (u.assigned e).2.WellKeyed := by
  rw [Update.assigned]
  split
  · exact h
  · have hb : (e.props.getD ∅).WellKeyed := by
      cases hp : e.props with
      | none => exact Properties.wellKeyed_empty
      | some m => exact h m hp
    intro m hm
    cases hm
    exact wellKeyed_assignAll hb hu

theorem wellKeyed_cleared (u : Update) (h : e.WellKeyed) : (u.cleared e).WellKeyed := by
  rw [cleared]
  cases u.clear with
  | nothing => exact h
  | all =>
    intro m hm
    cases hm
  | paths names =>
    have hc : ∀ m ∈ Selector.clear (some (.named names)) e.props, m.WellKeyed :=
      Reference.wellKeyed_clear h
    exact hc

/-- Also after a fault the edge at hand has only keys that have been checked. -/
theorem WellKeyed.apply (hu : u.WellKeyed) (h : e.WellKeyed) : (u.apply e).2.WellKeyed := by
  have ha := hu.assigned h
  rw [Update.apply]
  split
  · next e₁ he =>
    rw [he] at ha
    exact u.wellKeyed_cleared ha
  · next he =>
    rw [he] at ha
    exact ha

end Update

theorem Filter.props_seed (h : f.seed = .ok e) : e.props = none := by
  rw [seed] at h
  split at h
  · dsimp only at h
    split at h
    · split at h
      · cases h
        rfl
      · cases h
    · cases h
      rfl
  · cases h

theorem Filter.wellKeyed_target (hx : ∀ e, existing = some e → e.WellKeyed)
    (h : f.target existing options = .ok (some e)) : e.WellKeyed := by
  cases existing with
  | some e₀ =>
    rw [target_existing h]
    exact hx e₀ rfl
  | none =>
    rw [target] at h
    split at h
    · obtain ⟨e₀, hs, he⟩ := map_eq_ok.mp h
      cases he
      intro m hm
      rw [props_seed hs] at hm
      cases hm
    · cases h

theorem wellKeyed_resolveUpsert (hu : u.WellKeyed) (hx : ∀ e, existing = some e → e.WellKeyed)
    (h : resolveUpsert existing f u options = .ok (some e')) : e'.WellKeyed := by
  obtain ⟨e, ht, ha⟩ := resolveUpsert_some h
  have hw := hu.apply (Filter.wellKeyed_target hx ht)
  rw [ha] at hw
  exact hw

namespace Storage
variable {s : Storage} {key : String}

/-- The edges that are held, whether or not they can be read. -/
def WellKeyed (s : Storage) : Prop :=
  ∃ edges, s.Holds edges ∧ ∀ key e, edges.get? key = some e → e.WellKeyed

theorem WellKeyed.put (h : s.WellKeyed) (he : e.WellKeyed) (key : String) :
    (s.put key e).WellKeyed := by
  obtain ⟨edges, hh, hw⟩ := h
  refine ⟨_, hh.put key e, ?_⟩
  intro key' e' hg
  rw [OrderedMap.get?_insert] at hg
  split at hg
  · cases hg
    exact he
  · exact hw key' e' hg

/-- What is read is what is held, so an upsert writes no more than its own keys. -/
theorem WellKeyed.upsert (h : s.WellKeyed) (hk : f.uniqueIndex = some key) (hc : s.Whole key)
    (hu : u.WellKeyed) (options : UpsertOptions) : (s.upsert f u options).2.WellKeyed := by
  rw [upsert_eq hk]
  cases hn : (do s.requireRunning; resolveUpsert (← s.edge? key) f u options) with
  | error fault => exact h
  | ok next =>
    cases next with
    | none => exact h
    | some e' =>
      obtain ⟨_, -, hn⟩ := bind_eq_ok.mp hn
      obtain ⟨existing, hx, hn⟩ := bind_eq_ok.mp hn
      refine h.put (wellKeyed_resolveUpsert hu ?_ hn) key
      rintro e rfl
      obtain ⟨edges, hh, hw⟩ := h
      exact hw key e (hh.get?_of_stored? hc (edge?_eq_ok.mp hx))

theorem WellKeyed.stop (h : s.WellKeyed) : s.stop.2.WellKeyed := by
  obtain ⟨edges, hh, hw⟩ := h
  refine ⟨edges, ?_, hw⟩
  obtain ⟨engine, disk⟩ := s
  cases engine with
  | memory running persistent edges₀ => cases running <;> cases persistent <;> exact hh
  | tree running => cases running <;> exact hh

theorem kind_stop (s : Storage) : s.stop.2.engine.kind = s.engine.kind := by
  obtain ⟨engine, disk⟩ := s
  cases engine with
  | memory running persistent edges => cases running <;> cases persistent <;> rfl
  | tree running => cases running <;> rfl

end Storage

/-- What is done with a store. After it has been closed its calls fail. -/
inductive StoreUse
  | call (c : StoreCall)
  | close

namespace Store

def use (s : Store) : StoreUse → StoreAnswer × Store
  | .call c => s.call c
  | .close =>
    let (answer, s') := s.close
    (.done answer, s')

theorem wellKeyed_descriptor {a : Assignment} {d : Descriptor} (h : a.descriptor = .ok d) :
    d.update.WellKeyed := by
  obtain ⟨writes, hw, h⟩ := bind_eq_ok.mp h
  cases h
  rw [Reference.named_eq_mapM] at hw
  have hl := OrderedMap.toList_ofList
    (Reference.pairwise_of_checked a.props.pairwise_toList hw)
  intro w hm
  exact Reference.wellKeyed_of_checked hw w (hl ▸ hm)

/-- A call is an upsert of values that have been checked, or leaves the storage as it is. -/
def Writes (s s' : Store) : Prop :=
  s'.storage = s.storage ∨ ∃ (p : Pair) (u : Update) (options : UpsertOptions),
    u.WellKeyed ∧ s'.storage = (s.storage.upsert p.filter u options).2

theorem writes_run (s : Store) {d : Descriptor} (hd : d.update.WellKeyed) :
    s.Writes (s.run d).2 := by
  rcases s.storage_run d with hs | ⟨p, hs⟩
  · exact .inl hs
  · exact .inr ⟨p, d.update, d.writeOptions, hd, hs⟩

theorem writes_call (s : Store) (c : StoreCall) : s.Writes (s.call c).2 := by
  have hn : ∀ d : Descriptor, d.set = none → d.update.WellKeyed := by
    intro d hd w hw
    rw [Descriptor.update, hd] at hw
    cases hw
  cases c with
  | set a =>
    rw [call, setProperties]
    cases hd : a.descriptor with
    | error fault => exact .inl rfl
    | ok d => exact s.writes_run (wellKeyed_descriptor hd)
  | remove sel => exact s.writes_run (hn sel.remove rfl)
  | get sel =>
    rw [call, getProperties]
    cases s.upsertOnRead with
    | true => exact s.writes_run (hn sel.get rfl)
    | false => exact s.writes_run (hn sel.peek rfl)
  | find q =>
    rw [call, findEdges]
    cases hd : q.descriptor? with
    | none => exact .inl rfl
    | some d =>
      refine s.writes_run (hn d ?_)
      rw [Query.descriptor?] at hd
      split at hd
      · cases hd
        rfl
      · cases hd

theorem wellKeyed_use (h : s.storage.WellKeyed) (hc : ∀ key, s.storage.Whole key)
    (c : StoreUse) : (s.use c).2.storage.WellKeyed := by
  cases c with
  | close => exact h.stop
  | call c =>
    rcases s.writes_call c with hs | ⟨p, u, options, hu, hs⟩
    · exact hs ▸ h
    · exact hs ▸ h.upsert (f := p.filter) rfl (hc p.key) hu options

theorem kind_use (s : Store) (c : StoreUse) :
    (s.use c).2.storage.engine.kind = s.storage.engine.kind := by
  cases c with
  | close => exact s.storage.kind_stop
  | call c => exact s.kind_call c

theorem wellKeyed_uses (h : s.storage.WellKeyed) (uses : List StoreUse)
    (hc : ∀ before, before <+: uses → ∀ key, (runCalls use s before).2.storage.Whole key) :
    (runCalls use s uses).2.storage.WellKeyed := by
  induction uses generalizing s with
  | nil => exact h
  | cons c cs ih =>
    have hs : ∀ key, s.storage.Whole key := hc [] List.nil_prefix
    refine ih (wellKeyed_use h hs c) fun before hb => ?_
    exact hc (c :: before) (List.cons_prefix_cons.mpr ⟨rfl, hb⟩)

theorem kind_uses (s : Store) (uses : List StoreUse) :
    (runCalls use s uses).2.storage.engine.kind = s.storage.engine.kind := by
  induction uses generalizing s with
  | nil => rfl
  | cons c cs ih => exact (ih _).trans (s.kind_use c)

/-- Starting without edges a store of either kind only ever holds keys that are segments, at any
depth and also in arrays, and what it reads it holds. In a tree this is so as long as no edge takes
4 GiB, where sizes are cut off when they are written. -/
theorem stored_keys_are_segments (h : s.storage.Holds ∅) (uses : List StoreUse)
    (hc : s.storage.engine.kind = .tree → ∀ before, before <+: uses → ∀ key,
      (runCalls use s before).2.storage.Whole key) :
    ∃ edges, (runCalls use s uses).2.storage.Holds edges ∧
      (∀ key e m k, edges.get? key = some e → e.props = some m → (Value.map m).HasKey k →
        k ≠ "" ∧ '.' ∉ k.toList ∧ k.toList.head? ≠ some '$') ∧
      ∀ key e, (runCalls use s uses).2.storage.stored? key = some (.ok e) →
        edges.get? key = some e := by
  have hw : s.storage.WellKeyed := ⟨∅, h, fun key e hg => by cases hg⟩
  have hall : ∀ before, before <+: uses → ∀ key,
      (runCalls use s before).2.storage.Whole key := by
    intro before hb key
    cases hk : s.storage.engine.kind with
    | tree => exact hc hk before hb key
    | memory => exact Storage.whole_of_memory ((s.kind_uses before).trans hk) key
  obtain ⟨edges, hh, hw⟩ := wellKeyed_uses hw uses hall
  refine ⟨edges, hh, ?_, ?_⟩
  · intro key e m k hg hm hk
    exact Value.WellKeyed.isSegment (hw key e hg m hm) hk
  · intro key e
    exact hh.get?_of_stored? (hall uses (List.prefix_refl uses) key)

theorem hasKey_nested (p : Pair) (inner : String) :
    (Value.map (nested p inner).props).HasKey inner := by
  have hi : (OrderedMap.ofList [(inner, Value.int 1)]).get? inner = some (.int 1) :=
    (OrderedMap.get?_insert _ inner _ inner).trans (if_pos rfl)
  exact .field (j := "a") rfl (.own hi)

set_option maxRecDepth 8000 in
/-- On a tree, where the bytes of the edge are short. -/
theorem stored_keys_are_segments_sample :
    let p : Pair := ⟨.ofByte 0xaa, .ofByte 0xaa⟩
    let s : Store := { storage := ⟨.tree true, {}⟩ }
    let uses : List StoreUse := [.call (.set (nested p "b"))]
    s.storage.Holds ∅ ∧ s.storage.engine.kind = .tree ∧
      (∀ before, before <+: uses → ∀ key, (runCalls use s before).2.storage.Whole key) ∧
      (runCalls use s uses).2.storage.stored? p.key =
        some (.ok (p.edge (some (nested p "b").props))) ∧
      "b" ≠ "" ∧ '.' ∉ "b".toList ∧ "b".toList.head? ≠ some '$' := by
  intro p s uses
  have he : (p.edge (some (nested p "b").props)).WithinLimits ∧
      (p.edge (some (nested p "b").props)).encode.length < 2 ^ 32 := by decide
  have hall : ∀ s : Store, s.storage.Serves .tree ∅ →
      (∀ before, before <+: uses → ∀ key, (runCalls use s before).2.storage.Whole key) ∧
      (runCalls use s uses).2.storage.stored? p.key =
        some (.ok (p.edge (some (nested p "b").props))) ∧
      "b" ≠ "" ∧ '.' ∉ "b".toList ∧ "b".toList.head? ≠ some '$' := by
    intro s hs
    have ha : (PairEdit.set (nested p "b").props).apply none = .ok (some (nested p "b").props) :=
      PairEdit.apply_single rfl rfl rfl none
    have hc : s.call (.set (nested p "b")) =
        (.done (.ok ()), s.place p (some (some (nested p "b").props))) := call_first hs ha
    have hrun : (runCalls use s uses).2 = s.place p (some (some (nested p "b").props)) :=
      congrArg Prod.snd hc
    have hw : ∀ before, before <+: uses → ∀ key,
        (runCalls use s before).2.storage.Whole key := by
      intro before hb key
      rcases List.prefix_cons_iff.mp hb with rfl | ⟨rest, rfl, hr⟩
      · exact hs.holds.whole_empty key
      · obtain rfl := List.prefix_nil.mp hr
        rw [hrun]
        exact (hs.holds.whole_empty key).put p.key he.2
    have hstored : (runCalls use s uses).2.storage.stored? p.key =
        some (.ok (p.edge (some (nested p "b").props))) := by
      rw [hrun, stored?_place, Storage.reread_of_withinLimits fun _ => he.1]
    obtain ⟨edges, -, hk, hr⟩ := stored_keys_are_segments hs.holds uses fun _ => hw
    exact ⟨hw, hstored, hk p.key _ _ "b" (hr p.key _ hstored) rfl (hasKey_nested p "b")⟩
  exact ⟨rfl, rfl, hall s ⟨rfl, rfl, rfl⟩⟩

end Store
end PropertyGraph
