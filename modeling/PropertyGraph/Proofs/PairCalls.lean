import PropertyGraph.Proofs.PairEdits
import PropertyGraph.Proofs.Place

/-! What the calls that write to one edge do, from what is read of it. -/
namespace PropertyGraph

variable {s : Store} {p : Pair} {m : Properties} {props : Option Properties}
  {slot : Option (Option Properties)} {fault : RequestError}

namespace PairEdit
variable {d : Descriptor}

def storeCall (p : Pair) : PairEdit → StoreCall
  | set props => .set { src := p.src, dest := p.dest, props }
  | remove names => .remove { src := p.src, dest := p.dest, props := some (.named names) }

/-- The request that a call makes of a write. -/
def descriptor (p : Pair) : PairEdit → Except RequestError Descriptor
  | set props => Assignment.descriptor { src := p.src, dest := p.dest, props }
  | remove names =>
    .ok (Selection.remove { src := p.src, dest := p.dest, props := some (.named names) })

/-- The names and values of a set are checked before anything is asked of the storage. -/
theorem descriptor_set (p : Pair) (m : Properties) : (set m).descriptor p =
    (m.toList.mapM Reference.checked).map fun writes =>
      { src := some p.src, dest := some p.dest, set := some (.ofList writes) } := by
  rw [descriptor, Assignment.descriptor, Reference.named_eq_mapM]
  cases m.toList.mapM Reference.checked <;> rfl

theorem apply_of_descriptor_error (c : PairEdit) (h : c.descriptor p = .error fault)
    (props : Option Properties) : c.apply props = .error fault := by
  cases c with
  | remove names => cases h
  | set m =>
    rw [descriptor_set] at h
    rw [apply, map_eq_error.mp h]
    rfl

theorem single_of_descriptor (c : PairEdit) (h : c.descriptor p = .ok d) :
    d.src = some p.src ∧ d.dest = some p.dest ∧ d.find = none := by
  cases c with
  | remove names =>
    cases h
    exact ⟨rfl, rfl, rfl⟩
  | set m =>
    rw [descriptor_set] at h
    obtain ⟨writes, -, rfl⟩ := map_eq_ok.mp h
    exact ⟨rfl, rfl, rfl⟩

theorem apply_update (c : PairEdit) (h : c.descriptor p = .ok d) (props : Option Properties) :
    match c.apply props with
    | .ok props' => d.update.apply (p.edge props) = (.ok (), p.edge props')
    | .error fault => (d.update.apply (p.edge props)).1 = .error fault := by
  cases c with
  | remove names =>
    cases h
    rfl
  | set m =>
    rw [descriptor_set] at h
    obtain ⟨writes, hw, rfl⟩ := map_eq_ok.mp h
    rw [apply, hw]
    exact Reference.apply_assign p props (Reference.pairwise_of_checked m.pairwise_toList hw)

end PairEdit

/-- What a request for one edge is answered with: what it selects of the edge, if it asks for
anything. -/
def Descriptor.outcome (d : Descriptor) (p : Pair) (props : Option Properties) : Outcome :=
  match d.get with
  | none => .nothing
  | some selected => .one (some (p.seen (Selector.pick (some selected) props)))

theorem Descriptor.outcome_eq (d : Descriptor) (p : Pair) (props : Option Properties) :
    (if d.get.isSome then .one (d.writeOptions.answer (some (p.edge props))) else .nothing) =
      d.outcome p props := by
  obtain ⟨src, dest, find, get, set, remove⟩ := d
  rcases get with _ | _ | names <;> rfl

namespace Store

/-- The store with the edge of a pair written as it is to be; a missing one is not written. -/
def place (s : Store) (p : Pair) : Option (Option Properties) → Store
  | none => s
  | some props => { s with storage := s.storage.put p.key (p.edge props) }

theorem place_place (s : Store) (p : Pair) (slot : Option (Option Properties))
    (props : Option Properties) :
    (s.place p slot).place p (some props) = s.place p (some props) := by
  cases slot with
  | none => rfl
  | some props₀ => exact congrArg (Store.mk · s.upsertOnRead) (Storage.put_put _ _ _ _)

theorem stored?_place (s : Store) (p : Pair) (props : Option Properties) :
    (s.place p (some props)).storage.stored? p.key = some (s.storage.reread (p.edge props)) :=
  (Storage.stored?_put s.storage p.key (p.edge props) p.key).trans (if_pos rfl)

theorem requireRunning_place (s : Store) (p : Pair) (slot : Option (Option Properties)) :
    (s.place p slot).storage.requireRunning = s.storage.requireRunning := by
  cases slot with
  | none => rfl
  | some props => exact Storage.requireRunning_put _ _ _

theorem run_edit_ok {d : Descriptor} (hr : s.storage.requireRunning = .ok ())
    (hx : s.storage.edge? p.key = .ok (slot.map p.edge)) (hs : d.src = some p.src)
    (hd : d.dest = some p.dest) (hf : d.find = none)
    (hu : d.update.apply (p.edge slot.join) = (.ok (), p.edge props)) :
    s.run d = (.ok (d.outcome p props), s.place p (some props)) := by
  have ho : d.writeOptions.upsert = true := rfl
  have hn := p.resolve_slot ho slot d.update
  rw [hu] at hn
  have hq := Storage.upsert_eq (f := p.filter) rfl s.storage d.update d.writeOptions
  simp only [hr, hx, bind, Except.bind, hn] at hq
  rw [s.run_single hs hd hf, hq, ← d.outcome_eq]
  rfl

theorem run_edit_error {d : Descriptor} (hr : s.storage.requireRunning = .ok ())
    (hx : s.storage.edge? p.key = .ok (slot.map p.edge)) (hs : d.src = some p.src)
    (hd : d.dest = some p.dest) (hf : d.find = none)
    (hu : (d.update.apply (p.edge slot.join)).1 = .error fault) :
    s.run d = (.error (.request fault), s) := by
  have ho : d.writeOptions.upsert = true := rfl
  have hn := p.resolve_slot ho slot d.update
  rw [← Prod.eta (d.update.apply _), hu] at hn
  have hq := Storage.upsert_eq (f := p.filter) rfl s.storage d.update d.writeOptions
  simp only [hr, hx, bind, Except.bind, hn] at hq
  rw [s.run_single hs hd hf, hq]
  rfl

/-- An edge that cannot be read is not written. -/
theorem run_of_unread {d : Descriptor} {fault : StoreError}
    (hx : (do s.storage.requireRunning; s.storage.edge? p.key) = .error fault)
    (hs : d.src = some p.src) (hd : d.dest = some p.dest) (hf : d.find = none) :
    s.run d = (.error fault, s) := by
  have hq := Storage.upsert_eq (f := p.filter) rfl s.storage d.update d.writeOptions
  simp only [← bind_assoc] at hq
  rw [hx] at hq
  rw [s.run_single hs hd hf, hq]
  rfl

section Calls
variable {d : Descriptor} (c : PairEdit)

theorem call_of_descriptor (h : c.descriptor p = .ok d) (s : Store) :
    s.call (c.storeCall p) = (.done ((s.run d).1.map fun _ => ()), (s.run d).2) := by
  cases c with
  | remove names =>
    cases h
    rfl
  | set m =>
    have hd : Assignment.descriptor { src := p.src, dest := p.dest, props := m } = .ok d := h
    rw [PairEdit.storeCall, call, setProperties, hd]

theorem call_of_descriptor_error (h : c.descriptor p = .error fault) (s : Store) :
    s.call (c.storeCall p) = (.done (.error (.request fault)), s) := by
  cases c with
  | remove names => cases h
  | set m =>
    have hd : Assignment.descriptor { src := p.src, dest := p.dest, props := m } =
      .error fault := h
    rw [PairEdit.storeCall, call, setProperties, hd]

/-- A call on an edge that can be read changes its properties, or fails and changes nothing. -/
theorem call_edit (hr : s.storage.requireRunning = .ok ())
    (hx : s.storage.edge? p.key = .ok (slot.map p.edge)) :
    s.call (c.storeCall p) =
      match c.apply slot.join with
      | .ok props => (.done (.ok ()), s.place p (some props))
      | .error fault => (.done (.error (.request fault)), s) := by
  cases hd : c.descriptor p with
  | error fault =>
    rw [c.apply_of_descriptor_error hd, call_of_descriptor_error c hd]
  | ok d =>
    obtain ⟨hs, hd', hf⟩ := c.single_of_descriptor hd
    have hu := c.apply_update hd slot.join
    rw [call_of_descriptor c hd]
    cases ha : c.apply slot.join with
    | ok props =>
      rw [ha] at hu
      rw [run_edit_ok hr hx hs hd' hf hu]
      rfl
    | error fault =>
      rw [ha] at hu
      rw [run_edit_error hr hx hs hd' hf hu]
      rfl

theorem call_of_unread {fault : StoreError}
    (hx : (do s.storage.requireRunning; s.storage.edge? p.key) = .error fault) :
    ∃ fault', s.call (c.storeCall p) = (.done (.error fault'), s) := by
  cases hd : c.descriptor p with
  | error fault' => exact ⟨.request fault', call_of_descriptor_error c hd s⟩
  | ok d =>
    obtain ⟨hs, hd', hf⟩ := c.single_of_descriptor hd
    refine ⟨fault, ?_⟩
    rw [call_of_descriptor c hd, run_of_unread hx hs hd' hf]
    rfl

end Calls

theorem setProperties_edit (hr : s.storage.requireRunning = .ok ())
    (hx : s.storage.edge? p.key = .ok (slot.map p.edge))
    (ha : (PairEdit.set m).apply slot.join = .ok props) :
    s.setProperties ⟨p.src, p.dest, m⟩ = (.ok (), s.place p (some props)) := by
  have hc := call_edit (.set m) hr hx
  rw [ha] at hc
  obtain ⟨hans, hst⟩ := Prod.ext_iff.mp hc
  exact Prod.ext (StoreAnswer.done.inj hans) hst

theorem removeProperties_edit (hr : s.storage.requireRunning = .ok ())
    (hx : s.storage.edge? p.key = .ok (slot.map p.edge)) (selected : Option Selector) :
    s.removeProperties ⟨p.src, p.dest, selected⟩ =
      (.ok (), s.place p (some (Selector.clear selected slot.join))) := by
  let sel : Selection := ⟨p.src, p.dest, selected⟩
  have hrun := run_edit_ok (d := sel.remove) hr hx rfl rfl rfl (apply_remove sel slot.join)
  rw [removeProperties, hrun]
  rfl

theorem blank_edge {kind : EngineKind} (hs : s.storage.Serves kind ∅) (p : Pair) :
    s.storage.requireRunning = .ok () ∧
      (s.place p none).storage.edge? p.key = .ok (Option.map p.edge none) :=
  ⟨if_pos hs.running, Storage.edge?_eq_ok.mpr (hs.stored? (fun _ => by decide) p.key)⟩

/-- The first write on a pair finds no edge and makes it. -/
theorem call_first {kind : EngineKind} (hs : s.storage.Serves kind ∅) {c : PairEdit}
    (ha : c.apply none = .ok props) :
    s.call (c.storeCall p) = (.done (.ok ()), s.place p (some props)) := by
  obtain ⟨hr, hx⟩ := blank_edge hs p
  have hc := call_edit c hr hx
  rw [Option.join_none, ha] at hc
  exact hc

/-- Properties of any depth are taken where there are none. -/
theorem call_set_deep (hr : s.storage.requireRunning = .ok ())
    (hx : s.storage.edge? p.key = .ok (slot.map p.edge)) (hj : slot.join = none) (n : Nat) :
    s.call (.set ⟨p.src, p.dest, .deep n⟩) =
      (.done (.ok ()), s.place p (some (some (.deep n)))) := by
  have hc := call_edit (.set (.deep n)) hr hx
  rw [hj, PairEdit.apply_deep] at hc
  exact hc

end Store
end PropertyGraph
