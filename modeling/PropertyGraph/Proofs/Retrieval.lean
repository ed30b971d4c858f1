import PropertyGraph.Proofs.OwnWrites
import PropertyGraph.Proofs.PairCalls
import PropertyGraph.Proofs.ReadModes
import PropertyGraph.Proofs.TopLevel

/-! What is set on the edge of a pair is shown by the reads after it, until it is removed. -/
namespace PropertyGraph

variable {s : Store} {p : Pair} {sel : Selection} {m P : Properties}
  {props : Option Properties} {slot : Option (Option Properties)}
  {names : OrderedSet PropertyName}

namespace Edge

theorem fits_props {e : Edge} {depth : Nat} (h : e.toMessagePack.Fits (depth + 1)) :
    ∀ m ∈ e.props, (Value.map m).toMessagePack.Fits depth := by
  obtain ⟨-, he⟩ := MessagePack.fits_map_iff.mp h
  intro m hm
  refine (he (.ofText Field.props.name, (Value.map m).toMessagePack) ?_).2
  rw [hm]
  simp

end Edge

/-- Fewer properties are within the limits if more of them are. -/
theorem Pair.withinLimits_of_sublist (h : (p.edge (some m)).WithinLimits)
    (hs : P.toList.Sublist m.toList) : (p.edge (some P)).WithinLimits := by
  have hf : (p.edge (some m)).toMessagePack.Fits (1021 + 1 + 1) := ⟨h.longest_lt, h.nesting_le⟩
  obtain ⟨hl, he⟩ := Value.fits_map_iff.mp (Edge.fits_props hf m rfl)
  have hP : (Value.map P).toMessagePack.Fits (1021 + 1) :=
    Value.fits_map_iff.mpr ⟨Nat.lt_of_le_of_lt hs.length_le hl, fun e hm => he e (hs.subset hm)⟩
  have hk := Edge.fits_pairKey p.src p.dest (1021 + 1)
  obtain ⟨hlong, hnest⟩ := Edge.fits_toMessagePack (e := p.edge (some P)) hk
    fun m' hm' => Option.some.inj hm' ▸ hP
  exact ⟨hlong, hnest⟩

/-- An edge that cannot be read is beyond the limits. -/
theorem Storage.Holds.beyond_of_stored? {s : Storage} {edges : Edges} {key : String}
    {fault : StoreError} (h : s.Holds edges) (hs : s.stored? key = some (.error fault)) :
    s.engine.kind = .tree ∧ ∃ e, edges.get? key = some e ∧ ¬ e.WithinLimits := by
  obtain ⟨engine, disk⟩ := s
  cases engine with
  | memory running persistent edges₀ =>
    obtain ⟨e, -, he⟩ := Option.map_eq_some_iff.mp hs
    cases he
  | tree running =>
    have ht : disk.tree = .ofEdges edges := h
    obtain ⟨bytes, hb, hd⟩ := Option.map_eq_some_iff.mp hs
    rw [ht, EdgeTree.ofEdges, Ascending.get?_mapValues] at hb
    obtain ⟨e, he, rfl⟩ := Option.map_eq_some_iff.mp hb
    refine ⟨rfl, e, he, fun hl => ?_⟩
    rw [Edge.decode_encode hl] at hd
    cases hd

namespace Store

/-- A read of an edge just written, in either way. The edge that an upsert puts there again is the
same. -/
theorem getProperties_place (hr : s.storage.requireRunning = .ok ())
    (he : s.storage.reread (sel.pair.edge props) = .ok (sel.pair.edge props)) :
    (s.place sel.pair (some props)).getProperties sel =
      (.ok (some (sel.shown props)), s.place sel.pair (some props)) := by
  have hr' := (requireRunning_place s sel.pair (some props)).trans hr
  have hstored := stored?_place s sel.pair props
  rw [he] at hstored
  obtain ⟨storage, upsertOnRead⟩ := s
  cases upsertOnRead with
  | false => exact (readsAlike_of_stored hr' hstored fun _ => Storage.put_put _ _ _ _).peeking
  | true =>
    have hm := getProperties_making (Store.place ⟨storage, true⟩ sel.pair (some props)) sel
    have hx' : (Store.place ⟨storage, true⟩ sel.pair (some props)).storage.edge? sel.pair.key =
        .ok (some (sel.pair.edge props)) := Storage.edge?_eq_ok.mpr hstored
    simp only [hr', hx', bind, Except.bind, sel.resolve_stored] at hm
    refine hm.trans (Prod.ext ?_ ?_)
    · exact congrArg (fun shown => Except.ok (some shown)) (sel.projection_get props)
    · exact congrArg (Store.mk · true) (Storage.put_put _ _ _ _)

/-- What a read shows that changes nothing: the endpoints asked for and some properties, none being
the same as no map of them. -/
def Shows (s : Store) (sel : Selection) (m : Properties) : Prop :=
  ∃ shown, s.getProperties sel = (.ok (some shown), s) ∧ shown.src = sel.src ∧
    shown.dest = sel.dest ∧ shown.propsOrEmpty = m

theorem shows_place (sel : Selection) (hr : s.storage.requireRunning = .ok ())
    (he : s.storage.reread (sel.pair.edge props) = .ok (sel.pair.edge props)) :
    (s.place sel.pair (some props)).Shows sel ((Selector.pick sel.props props).getD ∅) :=
  ⟨_, getProperties_place hr he, rfl, rfl, rfl⟩

/-- The properties of a pair as a read shows them that makes nothing; without an edge there are
none. -/
def previous (s : Store) (p : Pair) : Except StoreError Properties :=
  (s.peeking.getProperties ⟨p.src, p.dest, none⟩).1.map fun found =>
    (found.map ProjectedEdge.propsOrEmpty).getD ∅

/-- What is shown after a set, and after the removal of all that was set. -/
structure RoundTrips (s t : Store) (p : Pair) (before P : Properties) : Prop where
  set : s.setProperties ⟨p.src, p.dest, P⟩ = (.ok (), t)
  all : ∀ selected, selected = none ∨ selected = some .all →
    t.Shows ⟨p.src, p.dest, selected⟩ (before.overriddenBy P)
  fresh : before = ∅ → t.Shows ⟨p.src, p.dest, none⟩ P
  named : ∀ names : OrderedSet PropertyName, (∀ n ∈ names.keys, '.' ∉ n.text.toList) →
    t.Shows ⟨p.src, p.dest, some (.named names)⟩
      ((before.overriddenBy P).only (names.keys.map (·.text)))
  removed : ∃ names t', Selector.ofNames P.keys = .ok names ∧
    t.removeProperties ⟨p.src, p.dest, some names⟩ = (.ok (), t') ∧
    t'.Shows ⟨p.src, p.dest, none⟩ (before.without P.keys)

theorem pick_dotless (hn : ∀ n ∈ names.keys, '.' ∉ n.text.toList) (props : Option Properties) :
    (Selector.pick (some (.named names)) props).getD ∅ =
      (props.getD ∅).only (names.keys.map (·.text)) := by
  cases props with
  | none => rfl
  | some m => exact Properties.restrict_dotless hn m

/-- From an edge that can be read to one that is within the limits with what is set. -/
theorem roundTrips_of_slot (hr : s.storage.requireRunning = .ok ())
    (hx : s.storage.edge? p.key = .ok (slot.map p.edge)) (hP : P.TopLevel)
    (hl : s.storage.engine.kind = .tree →
      (p.edge (some ((slot.join.getD ∅).overriddenBy P))).WithinLimits) :
    ∃ t, s.RoundTrips t p (slot.join.getD ∅) P := by
  obtain ⟨props, ha, hprops⟩ := hP.apply_set slot.join
  obtain ⟨keys, hk, hunset⟩ := hP.exists_names
  -- The edge after the set is read again, and so is any with fewer properties.
  have hreread : ∀ props', (∀ m ∈ props', m.toList.Sublist (props.getD ∅).toList) →
      s.storage.reread (p.edge props') = .ok (p.edge props') := by
    intro props' hs
    refine Storage.reread_of_withinLimits fun hkind => ?_
    cases props' with
    | none => exact p.withinLimits_edge_none
    | some m => exact Pair.withinLimits_of_sublist (hl hkind) (hprops ▸ hs m rfl)
  have he : s.storage.reread (p.edge props) = .ok (p.edge props) := by
    refine hreread props fun m hm => ?_
    rw [hm]
    exact List.Sublist.refl _
  have hshows : ∀ selected, (s.place p (some props)).Shows ⟨p.src, p.dest, selected⟩
      ((Selector.pick selected props).getD ∅) :=
    fun selected => shows_place ⟨p.src, p.dest, selected⟩ hr he
  refine ⟨s.place p (some props), setProperties_edit hr hx ha, ?_, ?_, ?_, .named keys,
    s.place p (some (Selector.clear (some (.named keys)) props)), hk, ?_, ?_⟩
  · rintro selected (rfl | rfl)
    · exact hprops ▸ hshows none
    · exact hprops ▸ hshows (some .all)
  · intro hb
    rw [hb, Properties.overriddenBy_empty] at hprops
    exact hprops ▸ hshows none
  · intro names hn
    rw [← hprops, ← pick_dotless hn]
    exact hshows (some (.named names))
  · have hx' : (s.place p (some props)).storage.edge? p.key =
        .ok (Option.map p.edge (some props)) := by
      rw [Storage.edge?_eq_ok, stored?_place, he]
      rfl
    rw [removeProperties_edit ((requireRunning_place s p _).trans hr) hx', place_place]
    rfl
  · have hcleared : Selector.clear (some (.named keys)) props = props.map (·.without P.keys) :=
      congrArg (Option.map · props) (funext hunset)
    rw [hcleared, ← Properties.without_overriddenBy, ← hprops, ← Properties.getD_map_without]
    refine shows_place ⟨p.src, p.dest, none⟩ hr (hreread _ fun m hm => ?_)
    obtain ⟨m', rfl, rfl⟩ := Option.map_eq_some_iff.mp hm
    exact m'.sublist_without P.keys

theorem previous_of_slot (h : s.storage.Reachable) (hr : s.storage.requireRunning = .ok ())
    (hx : s.storage.edge? p.key = .ok (slot.map p.edge)) :
    s.previous p = .ok (slot.join.getD ∅) := by
  rw [previous]
  have hstored := Storage.edge?_eq_ok.mp hx
  cases slot with
  | none =>
    have hm : s.ReadsMissing ⟨p.src, p.dest, none⟩ := readsMissing_of_stored? hr hstored
    rw [hm.peeking]
    rfl
  | some props =>
    obtain ⟨edges, hs⟩ := h.sound
    have ha : s.ReadsAlike ⟨p.src, p.dest, none⟩ _ :=
      readsAlike_of_stored hr hstored fun hw => hs.holds.put_stored hw hstored
    rw [ha.peeking]
    rfl

/-- What is set under plain names stands over what was there, and it goes when it is removed. Only
on a tree may the edge of the pair be beyond what is read from bytes, before the set or after it. -/
theorem sets_read_back (h : s.storage.Reachable) (hr : s.storage.engine.running = true) (p : Pair)
    (hP : P.TopLevel) :
    (∃ before t, s.previous p = .ok before ∧ s.RoundTrips t p before P) ∨
      s.storage.engine.kind = .tree ∧
        ((∃ edges e, s.storage.Holds edges ∧ edges.get? p.key = some e ∧ ¬ e.WithinLimits) ∨
          ∃ before t, s.previous p = .ok before ∧
            s.setProperties ⟨p.src, p.dest, P⟩ = (.ok (), t) ∧
            ¬ (p.edge (some (before.overriddenBy P))).WithinLimits) := by
  have hr' : s.storage.requireRunning = .ok () := if_pos hr
  obtain ⟨edges, hs⟩ := h.sound
  cases hx : s.storage.edge? p.key with
  | error fault =>
    obtain ⟨hk, e, he, hl⟩ := hs.holds.beyond_of_stored? (Storage.edge?_eq_error.mp hx)
    exact .inr ⟨hk, .inl ⟨edges, e, hs.holds, he, hl⟩⟩
  | ok existing =>
    obtain ⟨slot, rfl⟩ := hs.exists_slot hx
    have hprevious := previous_of_slot h hr' hx
    by_cases hl : s.storage.engine.kind = .tree →
        (p.edge (some ((slot.join.getD ∅).overriddenBy P))).WithinLimits
    · obtain ⟨t, ht⟩ := roundTrips_of_slot hr' hx hP hl
      exact .inl ⟨_, t, hprevious, ht⟩
    · obtain ⟨hk, hl⟩ := Classical.not_imp.mp hl
      obtain ⟨props, ha, -⟩ := hP.apply_set slot.join
      have hset := setProperties_edit hr' hx ha
      exact .inr ⟨hk, .inr ⟨_, _, hprevious, hset, hl⟩⟩

/-- A map that stays empty inside another one, which is set as a whole. -/
def sampleContact : Properties :=
  OrderedMap.ofList [("met", .map (OrderedMap.ofList [("at", .map ∅), ("year", .int 2024)]))]

theorem topLevel_sampleContact : sampleContact.TopLevel := by
  refine Properties.topLevel_of_checked fun e he => ?_
  obtain rfl := List.mem_singleton.mp he
  exact ⟨⟨_, rfl⟩, by decide, by rfl⟩

set_option maxRecDepth 8000 in
theorem sets_read_back_sample :
    let s : Store := { storage := { engine := .tree true, disk := {} } }
    let p : Pair := ⟨.ofByte 0xab, .ofByte 0xab⟩
    s.storage.Reachable ∧ s.storage.engine.running = true ∧ sampleContact.TopLevel ∧
      ∃ t, s.previous p = .ok ∅ ∧ s.RoundTrips t p ∅ sampleContact := by
  intro s p
  have h : s.storage.Reachable := .blank ⟨rfl, rfl, rfl⟩
  have hx : s.storage.edge? p.key = .ok (Option.map p.edge none) := rfl
  have hb : s.previous p = .ok ∅ := previous_of_slot h rfl hx
  have hl : (p.edge (some (Properties.overriddenBy ∅ sampleContact))).WithinLimits := by decide
  rcases sets_read_back h rfl p topLevel_sampleContact with
    ⟨before, t, hb', ht⟩ | ⟨-, ⟨edges, e, hh, hg, -⟩ | ⟨before, t, hb', -, hn⟩⟩
  · cases hb'.symm.trans hb
    exact ⟨h, rfl, topLevel_sampleContact, t, hb, ht⟩
  · -- A new tree has no edge that might be beyond the limits.
    have ht : (∅ : EdgeTree) = .ofEdges edges := hh
    have hk : (∅ : EdgeTree).get? p.key = some e.encode := by
      rw [ht, EdgeTree.ofEdges, Ascending.get?_mapValues, hg]
      rfl
    cases hk
  · cases hb'.symm.trans hb
    exact absurd hl hn

theorem topLevel_deep (n : Nat) : (Properties.deep n).TopLevel := by
  refine Properties.topLevel_of_checked fun e he => ?_
  obtain rfl : e = ("deep", .boxed n) := List.mem_singleton.mp he
  have hn : PropertyName.ofText "deep" = .ok Update.deepName := rfl
  exact ⟨⟨_, hn⟩, (by decide : '.' ∉ "deep".toList), Value.checkKeys_boxed n⟩

/-- A tree takes properties nested too deep and then shows none of them, whatever is selected. -/
theorem deep_not_read_back {n : Nat} (hr : s.storage.requireRunning = .ok ())
    (ht : s.storage.engine.kind = .tree) (hx : s.storage.edge? p.key = .ok (slot.map p.edge))
    (hj : slot.join = none) (hn : MessagePack.maxDepth < n + 2) :
    (s.setProperties ⟨p.src, p.dest, .deep n⟩).1 = .ok () ∧
      ∀ selected, ((s.setProperties ⟨p.src, p.dest, .deep n⟩).2.getProperties
        ⟨p.src, p.dest, selected⟩).1 = .error (.deserialization none) := by
  have ha : (PairEdit.set (.deep n)).apply slot.join = .ok (some (.deep n)) :=
    hj ▸ PairEdit.apply_deep n
  have hset := setProperties_edit hr hx ha
  refine ⟨congrArg Prod.fst hset, fun selected => ?_⟩
  let sel : Selection := ⟨p.src, p.dest, selected⟩
  obtain ⟨-, hread⟩ : (s.call (.set ⟨sel.src, sel.dest, .deep n⟩)).1 = .done (.ok ()) ∧
      (s.call (.set ⟨sel.src, sel.dest, .deep n⟩)).2.ReadsAlike sel
        (.error (.deserialization none)) := reads_fail hr ht hx hj hn
  exact hread.answer_eq

/-- On a new tree, for properties under a plain name that hold no keys of their own. -/
theorem set_not_read_back :
    let p : Pair := ⟨.ofByte 0xaa, .ofByte 0xbb⟩
    let P : Properties := .deep MessagePack.maxDepth
    let s : Store := { storage := { engine := .tree true, disk := {} } }
    let t := (s.setProperties ⟨p.src, p.dest, P⟩).2
    s.storage.Reachable ∧ s.storage.engine.running = true ∧ P.TopLevel ∧
      (s.setProperties ⟨p.src, p.dest, P⟩).1 = .ok () ∧
      ∀ selected, (t.getProperties ⟨p.src, p.dest, selected⟩).1 =
        .error (.deserialization none) := by
  intro p P s t
  have hx : s.storage.edge? p.key = .ok (Option.map p.edge none) := rfl
  have hread := deep_not_read_back rfl rfl hx rfl
    (by decide : MessagePack.maxDepth < MessagePack.maxDepth + 2)
  exact ⟨.blank ⟨rfl, rfl, rfl⟩, rfl, topLevel_deep _, hread⟩

end Store
end PropertyGraph
