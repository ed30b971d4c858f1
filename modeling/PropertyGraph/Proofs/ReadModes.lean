import PropertyGraph.Proofs.PairCalls

/-! The two ways to read one edge, as an upsert without an update and as a search. -/
namespace PropertyGraph

variable {s : Store} {p : Pair} {sel : Selection} {props : Option Properties} {e : Edge}
  {existing : Option Edge}

theorem Pair.withinLimits_edge_none (p : Pair) : (p.edge none).WithinLimits := by
  have hk := Edge.fits_pairKey p.src p.dest 0
  obtain ⟨hl, hn⟩ := Edge.fits_toMessagePack (e := p.edge none) hk fun m hm => by cases hm
  exact ⟨hl, Nat.le_trans hn (by decide)⟩

namespace Selection

def pair (sel : Selection) : Pair := ⟨sel.src, sel.dest⟩

/-- What is shown of an edge with some properties. -/
def shown (sel : Selection) (props : Option Properties) : ProjectedEdge :=
  sel.pair.seen (Selector.pick sel.props props)

theorem shown_none (sel : Selection) : sel.shown none = sel.pair.seen none := by
  obtain ⟨src, dest, props⟩ := sel
  rcases props with _ | _ | names <;> rfl

theorem projection_get (sel : Selection) (props : Option Properties) :
    sel.get.projection.apply (sel.pair.edge props) = sel.shown props :=
  Descriptor.projection_edge rfl sel.pair props

/-- The update of a read is empty. -/
theorem resolve_stored (sel : Selection) (props : Option Properties) :
    resolveUpsert (some (sel.pair.edge props)) sel.pair.filter sel.get.update sel.get.writeOptions =
      .ok (some (sel.pair.edge props)) :=
  sel.pair.resolve_slot rfl (some props) sel.get.update

theorem resolve_missing (sel : Selection) :
    resolveUpsert none sel.pair.filter sel.get.update sel.get.writeOptions =
      .ok (some (sel.pair.edge none)) :=
  sel.pair.resolve_slot rfl none sel.get.update

end Selection

namespace Storage
variable {s : Storage} {edges : Edges} {key : String}

/-- An edge that was read is written so that it is read again. -/
theorem reread_of_stored? (h : s.stored? key = some (.ok e)) : s.reread e = .ok e := by
  obtain ⟨engine, disk⟩ := s
  cases engine with
  | memory running persistent edges => rfl
  | tree running =>
    obtain ⟨bytes, -, hd⟩ := Option.map_eq_some_iff.mp h
    exact Edge.decode_encode (Edge.withinLimits_of_decode hd)

theorem reread_edge_none (s : Storage) (p : Pair) : s.reread (p.edge none) = .ok (p.edge none) := by
  obtain ⟨engine, disk⟩ := s
  cases engine with
  | memory running persistent edges => rfl
  | tree running =>
    change Edge.decode (p.edge none).encode = _
    rw [Edge.decode_encode p.withinLimits_edge_none]

end Storage

namespace Store

theorem reachable_run (h : s.storage.Reachable) (d : Descriptor) :
    (s.run d).2.storage.Reachable := by
  rcases s.storage_run d with hs | ⟨p, hs⟩
  · exact hs ▸ h
  · let c : StorageCall := .data (.upsert p.filter d.update d.writeOptions)
    exact hs ▸ h.call c (Storage.canSave_of_ne (by simp [c]))

theorem reachable_call (h : s.storage.Reachable) (c : StoreCall) :
    (s.call c).2.storage.Reachable := by
  cases c with
  | set a =>
    simp only [call, setProperties]
    cases a.descriptor with
    | error fault => exact h
    | ok d => exact reachable_run h d
  | remove sel => exact reachable_run h sel.remove
  | get sel => exact reachable_run h _
  | find q =>
    simp only [call, findEdges]
    cases q.descriptor? with
    | none => exact h
    | some d => exact reachable_run h d

/-- The store, with reads that make no edge. -/
def peeking (s : Store) : Store := { s with upsertOnRead := false }

/-- The store, with reads that make a missing edge. -/
def making (s : Store) : Store := { s with upsertOnRead := true }

/-- What is read by an upsert, and what the upsert writes. -/
theorem getProperties_making (s : Store) (sel : Selection) :
    let next := do
      s.storage.requireRunning
      resolveUpsert (← s.storage.edge? sel.pair.key) sel.pair.filter sel.get.update
        sel.get.writeOptions
    s.making.getProperties sel = (next.map fun e? => e?.map sel.get.projection.apply,
      { s.making with storage := s.storage.write sel.pair.key next.toOption.join }) := by
  intro next
  have hs : s.storage.upsert sel.pair.filter sel.get.update sel.get.writeOptions =
      (next.map sel.get.writeOptions.answer, s.storage.write sel.pair.key next.toOption.join) :=
    Storage.upsert_eq rfl s.storage sel.get.update sel.get.writeOptions
  have hg : s.making.getProperties sel = ((s.making.run sel.get).1.map Outcome.first?,
      (s.making.run sel.get).2) := rfl
  have ha : ∀ e? : Option Edge,
      sel.get.writeOptions.answer e? = e?.map sel.get.projection.apply := by
    intro e?
    cases e? <;> rfl
  rw [hg, s.making.run_single (p := sel.pair) rfl rfl rfl]
  rw [show s.making.storage = s.storage from rfl, hs]
  cases next with
  | error fault => rfl
  | ok e? => exact congrArg (fun answer => (Except.ok answer, _)) (ha e?)

/-- What is read by a search, which finds one edge at most. -/
theorem getProperties_peeking (s : Store) (sel : Selection) :
    s.peeking.getProperties sel = (do
      s.storage.requireRunning
      return ((← s.storage.edge? sel.pair.key).filter sel.pair.filter.accepts).map
        sel.get.projection.apply, s.peeking) := by
  have hf : s.storage.find sel.pair.filter sel.get.projection = (do
      s.storage.requireRunning
      return ((← s.storage.edge? sel.pair.key).filter
        sel.pair.filter.accepts).toList.map sel.get.projection.apply) :=
    Storage.find_eq rfl s.storage sel.get.projection
  have hg : s.peeking.getProperties sel =
      (((s.storage.find sel.pair.filter sel.get.projection).map Outcome.many).map Outcome.first?,
        s.peeking) := rfl
  have hh : ∀ found : Option Edge, (found.toList.map sel.get.projection.apply).head? =
      found.map sel.get.projection.apply := by
    intro found
    cases found <;> rfl
  rw [hg, hf]
  cases s.storage.requireRunning with
  | error fault => rfl
  | ok _ =>
    cases s.storage.edge? sel.pair.key with
    | error fault => rfl
    | ok existing => exact congrArg (fun answer => (Except.ok answer, s.peeking)) (hh _)

/-- Both ways to read give the same answer. The search leaves the store as it is. After the upsert
every edge is read as before, and if the bytes of the one that was read are whole the store is the
same. -/
structure ReadsAlike (s : Store) (sel : Selection)
    (answer : Except StoreError (Option ProjectedEdge)) : Prop where
  peeking : s.peeking.getProperties sel = (answer, s.peeking)
  making : (s.making.getProperties sel).1 = answer
  kept : ∀ key, (s.making.getProperties sel).2.storage.stored? key = s.storage.stored? key
  same : s.storage.Whole sel.pair.key → (s.making.getProperties sel).2 = s.making

theorem ReadsAlike.answer_eq {answer : Except StoreError (Option ProjectedEdge)}
    (h : s.ReadsAlike sel answer) : (s.getProperties sel).1 = answer := by
  obtain ⟨storage, upsertOnRead⟩ := s
  cases upsertOnRead with
  | false => exact congrArg Prod.fst h.peeking
  | true => exact h.making

theorem readsAlike_of_error {fault : StoreError}
    (h : (do s.storage.requireRunning; s.storage.edge? sel.pair.key) = .error fault) :
    s.ReadsAlike sel (.error fault) := by
  have hm : s.making.getProperties sel = (.error fault, s.making) := by
    rw [getProperties_making, ← bind_assoc, h]
    rfl
  refine ⟨?_, congrArg Prod.fst hm, ?_, fun _ => congrArg Prod.snd hm⟩
  · rw [getProperties_peeking, ← bind_assoc, h]
    rfl
  · intro key
    rw [hm]
    rfl

/-- What stands there may not change for anyone if it is put there again. -/
theorem readsAlike_of_stored (hr : s.storage.requireRunning = .ok ())
    (hs : s.storage.stored? sel.pair.key = some (.ok (sel.pair.edge props)))
    (hw : s.storage.Whole sel.pair.key →
      s.storage.put sel.pair.key (sel.pair.edge props) = s.storage) :
    s.ReadsAlike sel (.ok (some (sel.shown props))) := by
  have he : s.storage.edge? sel.pair.key = .ok (some (sel.pair.edge props)) :=
    Storage.edge?_eq_ok.mpr hs
  have hm : s.making.getProperties sel = (.ok (some (sel.shown props)),
      { s.making with storage := s.storage.put sel.pair.key (sel.pair.edge props) }) := by
    rw [getProperties_making, hr, he]
    simp only [bind, Except.bind, sel.resolve_stored, ← sel.projection_get]
    rfl
  refine ⟨?_, congrArg Prod.fst hm, ?_, ?_⟩
  · rw [getProperties_peeking, hr, he]
    simp only [bind, Except.bind, Option.filter, sel.pair.accepts_edge, if_true,
      ← sel.projection_get]
    rfl
  · intro key
    rw [hm, Storage.stored?_put, Storage.reread_of_stored? hs]
    split
    · next hk => rw [hk, hs]
    · rfl
  · intro hh
    rw [hm, hw hh]
    rfl

/-- Only the upsert makes the missing edge, without properties. It adds nothing else, and after it
both ways to read show the edge. -/
structure ReadsMissing (s : Store) (sel : Selection) : Prop where
  peeking : s.peeking.getProperties sel = (.ok none, s.peeking)
  making : s.making.getProperties sel = (.ok (some (sel.pair.seen none)),
    { s.making with storage := s.storage.put sel.pair.key (sel.pair.edge none) })
  added : ∀ key, (s.storage.put sel.pair.key (sel.pair.edge none)).stored? key =
    if key = sel.pair.key then some (.ok (sel.pair.edge none)) else s.storage.stored? key
  afterwards : ∀ sel', sel'.pair = sel.pair →
    ReadsAlike { s with storage := s.storage.put sel.pair.key (sel.pair.edge none) } sel'
      (.ok (some (sel.pair.seen none)))

theorem readsMissing_of_stored? (hr : s.storage.requireRunning = .ok ())
    (hs : s.storage.stored? sel.pair.key = none) : s.ReadsMissing sel := by
  have he : s.storage.edge? sel.pair.key = .ok none := Storage.edge?_eq_ok.mpr hs
  have ha : ∀ key, (s.storage.put sel.pair.key (sel.pair.edge none)).stored? key =
      if key = sel.pair.key then some (.ok (sel.pair.edge none)) else s.storage.stored? key := by
    intro key
    rw [Storage.stored?_put, Storage.reread_edge_none]
  refine ⟨?_, ?_, ha, ?_⟩
  · rw [getProperties_peeking, hr, he]
    rfl
  · rw [getProperties_making, hr, he]
    simp only [bind, Except.bind, sel.resolve_missing, ← sel.shown_none, ← sel.projection_get]
    rfl
  · intro sel' hp
    rw [← hp, ← sel'.shown_none]
    refine readsAlike_of_stored ?_ ?_ ?_
    · rw [hp]
      exact (Storage.requireRunning_put _ _ _).trans hr
    · have hk := ha sel'.pair.key
      rw [if_pos (congrArg Pair.key hp)] at hk
      rw [hp] at hk ⊢
      exact hk
    · intro _
      exact Storage.put_put _ _ _ _

/-- A read of an edge shows the same in both ways and leaves the store as it is, also if the edge
cannot be read or the engine is stopped. -/
theorem read_modes_agree (h : s.storage.Reachable) (sel : Selection) :
    match s.storage.requireRunning, s.storage.stored? sel.pair.key with
    | .error fault, _ => s.ReadsAlike sel (.error fault)
    | .ok (), some (.error fault) => s.ReadsAlike sel (.error fault)
    | .ok (), some (.ok e) => s.ReadsAlike sel (.ok (some (sel.shown e.props)))
    | .ok (), none => s.ReadsMissing sel := by
  obtain ⟨edges, hs⟩ := h.sound
  cases hr : s.storage.requireRunning with
  | error fault =>
    refine readsAlike_of_error ?_
    rw [hr]
    rfl
  | ok _ =>
    cases hx : s.storage.stored? sel.pair.key with
    | none => exact readsMissing_of_stored? hr hx
    | some read =>
      cases read with
      | error fault =>
        refine readsAlike_of_error ?_
        rw [hr]
        exact Storage.edge?_eq_error.mpr hx
      | ok e =>
        have he := (hs.stored?_keyedBy hx).eq_edge
        rw [he] at hx
        exact readsAlike_of_stored hr hx fun hw => hs.holds.put_stored hw hx

/-- An empty tree, where the first read makes the edge that the second one finds. -/
theorem read_modes_agree_sample :
    let s : Store := { storage := { engine := .tree true, disk := {} } }
    let sel : Selection := { src := .ofByte 0xaa, dest := .ofByte 0xaa }
    s.storage.Reachable ∧ s.ReadsMissing sel ∧
      (s.making.getProperties sel).2.storage.Reachable ∧
      (s.making.getProperties sel).2.ReadsAlike sel (.ok (some (sel.shown none))) := by
  intro s sel
  have h : s.storage.Reachable := .blank ⟨rfl, rfl, rfl⟩
  have hm : s.ReadsMissing sel := read_modes_agree h sel
  have hall : ∀ (s : Store) (sel : Selection), s.storage.Reachable →
      s.storage.requireRunning = .ok () → s.ReadsMissing sel →
      (s.making.getProperties sel).2.storage.Reachable ∧
        (s.making.getProperties sel).2.ReadsAlike sel (.ok (some (sel.shown none))) := by
    intro s sel h hr hm
    have h' : (s.making.getProperties sel).2.storage.Reachable :=
      reachable_call (s := s.making) h (.get sel)
    have hs : (s.making.getProperties sel).2.storage =
        s.storage.put sel.pair.key (sel.pair.edge none) := by rw [hm.making]
    have ha := read_modes_agree h' sel
    rw [hs, Storage.requireRunning_put, hr, hm.added, if_pos rfl] at ha
    exact ⟨h', ha⟩
  exact ⟨h, hm, hall s sel h rfl hm⟩

/-- On a tree, once properties nested too deep were taken, neither way to read shows them. -/
theorem reads_fail {slot : Option (Option Properties)} {n : Nat}
    (hr : s.storage.requireRunning = .ok ()) (ht : s.storage.engine.kind = .tree)
    (hx : s.storage.edge? sel.pair.key = .ok (slot.map sel.pair.edge)) (hj : slot.join = none)
    (hn : MessagePack.maxDepth < n + 2) :
    (s.call (.set ⟨sel.src, sel.dest, .deep n⟩)).1 = .done (.ok ()) ∧
      (s.call (.set ⟨sel.src, sel.dest, .deep n⟩)).2.ReadsAlike sel
        (.error (.deserialization none)) := by
  have hc : s.call (.set ⟨sel.src, sel.dest, .deep n⟩) =
      (.done (.ok ()), s.place sel.pair (some (some (.deep n)))) := call_set_deep hr hx hj n
  rw [hc]
  have hr' := (requireRunning_place s sel.pair (some (some (.deep n)))).trans hr
  have hx' := Storage.edge?_eq_error.mpr (Storage.stored?_put_deep ht hn sel.pair)
  exact ⟨rfl, readsAlike_of_error (bind_eq_error.mpr (.inr ⟨(), hr', hx'⟩))⟩

/-- The edge stands in the tree, and both ways to read it have the same fault for an answer. -/
theorem stored_edge_unread :
    let sel : Selection := { src := .ofByte 0xaa, dest := .ofByte 0xbb }
    let s : Store := { storage := { engine := .tree true, disk := {} } }
    let set : StoreCall := .set ⟨sel.src, sel.dest, .deep MessagePack.maxDepth⟩
    let t := (s.call set).2
    t.storage.Reachable ∧ (s.call set).1 = .done (.ok ()) ∧
      (∃ edges, t.storage.Holds edges ∧
        edges.get? sel.pair.key = some (sel.pair.edge (some (.deep MessagePack.maxDepth)))) ∧
      t.peeking.getProperties sel = (.error (.deserialization none), t.peeking) ∧
      (t.making.getProperties sel).1 = .error (.deserialization none) := by
  intro sel s set t
  have h : s.storage.Reachable := .blank ⟨rfl, rfl, rfl⟩
  have hx : s.storage.edge? sel.pair.key = .ok (Option.map sel.pair.edge none) := rfl
  obtain ⟨ha, hread⟩ : (s.call set).1 = .done (.ok ()) ∧
      t.ReadsAlike sel (.error (.deserialization none)) := reads_fail rfl rfl hx rfl (by decide)
  have hput : t = s.place sel.pair (some (some (.deep MessagePack.maxDepth))) :=
    congrArg Prod.snd (call_set_deep (p := sel.pair) rfl hx rfl MessagePack.maxDepth)
  have hs : s.storage.Holds ∅ := rfl
  have hheld := hs.put sel.pair.key (sel.pair.edge (some (.deep MessagePack.maxDepth)))
  refine ⟨reachable_call h set, ha, ?_, hread.peeking, hread.making⟩
  rw [hput]
  refine ⟨_, hheld, ?_⟩
  rw [OrderedMap.get?_insert, if_pos rfl]

end Store
end PropertyGraph
