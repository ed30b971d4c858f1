import PropertyGraph.Proofs.Keyed
import PropertyGraph.Proofs.PairEdits
import PropertyGraph.Proofs.Serving
import PropertyGraph.Store

/-! A store answers as the reference does. -/
namespace PropertyGraph

variable {s : Store} {kind : EngineKind} {upsertOnRead : Bool} {R : Reference} {p : Pair}
  {u : Update} {options : UpsertOptions} {props : Option Properties} {d : Descriptor}

def Store.call (s : Store) : StoreCall → StoreAnswer × Store
  | .set a =>
    let (answer, s') := s.setProperties a
    (.done answer, s')
  | .remove sel =>
    let (answer, s') := s.removeProperties sel
    (.done answer, s')
  | .get sel =>
    let (answer, s') := s.getProperties sel
    (.read answer, s')
  | .find q =>
    let (answer, s') := s.findEdges q
    (.found answer, s')

namespace Pair

/-- The filter by which the edge of a pair is written or looked up. -/
def filter (p : Pair) : Filter :=
  { src := some p.src, dest := some p.dest, uniqueIndex := some p.key }

theorem accepts_edge (p : Pair) (props : Option Properties) :
    p.filter.accepts (p.edge props) = true := by
  simp [Filter.accepts, filter, edge, Edge.new, key]

theorem seed_filter (p : Pair) : p.filter.seed = .ok (p.edge none) := by
  simp only [Filter.seed, filter, Edge.new, key, if_true]
  rfl

end Pair

namespace Reference

theorem target_filter (R : Reference) (p : Pair) (ho : options.upsert = true) :
    p.filter.target (R.edges.get? p.key) options = .ok (some (p.edge (R.props p))) := by
  rw [get?_edges, props]
  cases hg : R.get? p with
  | none =>
    rw [Option.map_none, Filter.target, if_pos ho, Pair.seed_filter]
    rfl
  | some props =>
    rw [Option.map_some, Filter.target, if_pos (p.accepts_edge props)]
    rfl

/-- An upsert by the filter of a pair always finds or makes the edge of that pair. -/
theorem upsert_edges (ho : options.upsert = true)
    (hu : u.apply (p.edge (R.props p)) = (.ok (), p.edge props)) :
    R.edges.upsert p.key p.filter u options =
      .ok (if options.returnDocument then some (options.projection.apply (p.edge props)) else none,
        edges (R.insert p props)) := by
  rw [Edges.upsert, resolveUpsert, R.target_filter p ho, edges_insert]
  simp only [bind, Except.bind, hu]
  rfl

theorem upsert_edges_error {fault : RequestError} (ho : options.upsert = true)
    (hu : (u.apply (p.edge (R.props p))).1 = .error fault) :
    R.edges.upsert p.key p.filter u options = .error (.request fault) := by
  rw [Edges.upsert, resolveUpsert, R.target_filter p ho]
  cases ha : u.apply (p.edge (R.props p)) with
  | mk answer e =>
    rw [ha] at hu
    cases hu
    simp only [bind, Except.bind, ha]
    rfl

end Reference

/-- A store on a running engine whose edges are those of the reference. -/
structure Store.Refines (s : Store) (kind : EngineKind) (upsertOnRead : Bool) (R : Reference) :
    Prop where
  serves : s.storage.Serves kind R.edges
  upsertOnRead_eq : s.upsertOnRead = upsertOnRead

/-- The bytes of every edge can be read again. -/
def Reference.WithinLimits (R : Reference) : Prop := R.edges.WithinLimits

theorem Descriptor.compile_single (hs : d.src = some p.src) (hd : d.dest = some p.dest)
    (hf : d.find = none) :
    d.compile = .ok {
      target := .single
      filter := p.filter
      projection := d.projection
      update := some d.update
      returnsDocument := d.get.isSome } := by
  simp only [compile, hf, single, hs, hd]
  rfl

theorem Reference.set_of_checked (a : Assignment) {writes : List (PropertyName × Value)}
    (hw : a.props.toList.mapM Reference.checked = .ok writes) :
    R.set a = (Reference.assign (R.props ⟨a.src, a.dest⟩) writes).map fun props =>
      R.insert ⟨a.src, a.dest⟩ props := by
  simp only [Reference.set, hw, bind, Except.bind]
  cases Reference.assign (R.props ⟨a.src, a.dest⟩) writes <;> rfl

theorem Descriptor.projection_edge {selected : Option Selector}
    (hg : d.get = some (selected.getD .all)) (p : Pair) (props : Option Properties) :
    d.projection.apply (p.edge props) = p.seen (Selector.pick selected props) := by
  rw [projection, hg]
  rcases selected with _ | _ | names <;> rfl

/-- The filter by which a search looks, the key of a pair included once both endpoints are given. -/
def Descriptor.searchFilter (d : Descriptor) (conditions : Conditions) : Filter where
  src := d.src
  dest := d.dest
  uniqueIndex := match d.src, d.dest with
    | some src, some dest => some (pairKey src dest)
    | _, _ => none
  props := conditions.toList

theorem Descriptor.compile_search {conditions : Conditions} (hf : d.find = some conditions)
    (hs : d.set = none) (hr : d.remove = none) :
    d.compile = .ok {
      target := .many
      filter := d.searchFilter conditions
      projection := d.projection
      update := none
      returnsDocument := d.get.isSome } := by
  simp only [compile, hf, search, hs, hr]
  rfl

/-- The keys of the pairs are the keys of their edges. -/
theorem Reference.keyed_edges (R : Reference) : R.edges.Keyed := by
  intro key e hg
  have hm := (Ascending.mem_toList_iff R.edges key e).mpr hg
  rw [toList_edges] at hm
  obtain ⟨⟨p, props⟩, -, he⟩ := List.mem_map.mp hm
  cases he
  exact ⟨rfl, rfl⟩

/-- What a search finds, as a search through the pairs. -/
theorem Reference.find_edges (R : Reference) (f : Filter) (P : Projection) :
    R.edges.find f P =
      (R.toList.filter fun (p, props) => f.accepts (p.edge props)).map
        fun (p, props) => P.apply (p.edge props) := by
  rw [R.keyed_edges.find_eq_scan, Ascending.values, toList_edges, List.map_map, List.filter_map,
    List.map_map]
  rfl

theorem Reference.find_pair (R : Reference) (p : Pair) (P : Projection) :
    R.edges.find p.filter P = ((R.get? p).map fun props => P.apply (p.edge props)).toList := by
  have hf : R.edges.find p.filter P =
      ((R.edges.get? p.key).filter p.filter.accepts).toList.map P.apply := rfl
  rw [hf, get?_edges]
  cases R.get? p with
  | none => rfl
  | some props =>
    rw [Option.map_some, Option.filter_some, if_pos (p.accepts_edge props)]
    rfl

namespace Query

def search (q : Query) : Descriptor where
  src := q.src
  dest := q.dest
  find := some (q.find.getD ∅)
  get := some (q.props.getD .all)

/-- The key of a pair says no more than its endpoints. -/
theorem accepts_search (q : Query) (p : Pair) (props : Option Properties) :
    (q.search.searchFilter (q.find.getD ∅)).accepts (p.edge props) =
      Reference.satisfies q p props := by
  obtain ⟨src, dest, selected, conditions⟩ := q
  have hf : ∀ key?, Filter.accepts ⟨src, dest, key?, (conditions.getD ∅).toList⟩ (p.edge props) =
      (key?.all (· == p.key) &&
        Reference.satisfies ⟨src, dest, selected, conditions⟩ p props) := by
    intro key?
    simp only [Filter.accepts, Reference.satisfies, Pair.edge, Edge.new, Pair.key, Edge.property?]
    ac_rfl
  cases src with
  | none => exact hf none
  | some src =>
    cases dest with
    | none => exact hf none
    | some dest =>
      refine (hf (some (pairKey src dest))).trans ?_
      cases hs : Reference.satisfies ⟨some src, some dest, selected, conditions⟩ p props with
      | false => exact Bool.and_false _
      | true =>
        simp only [Reference.satisfies, Option.all_some, Bool.and_eq_true, beq_iff_eq] at hs
        obtain ⟨⟨rfl, rfl⟩, -⟩ := hs
        simp [Pair.key]

end Query

/-- How the edge of one pair is written for a request. -/
def Descriptor.writeOptions (d : Descriptor) : UpsertOptions :=
  { upsert := true, projection := d.projection, returnDocument := d.get.isSome }

namespace Store

theorem run_single (s : Store) (hs : d.src = some p.src) (hd : d.dest = some p.dest)
    (hf : d.find = none) :
    s.run d =
      ((s.storage.upsert p.filter d.update d.writeOptions).1.map fun edge =>
          if d.get.isSome then .one edge else .nothing,
        { s with storage := (s.storage.upsert p.filter d.update d.writeOptions).2 }) := by
  rw [run, Descriptor.compile_single hs hd hf]
  rfl

theorem Refines.run_ok (h : s.Refines kind upsertOnRead R)
    (hl : kind = .tree → R.WithinLimits) (hs : d.src = some p.src) (hd : d.dest = some p.dest)
    (hf : d.find = none) (hu : d.update.apply (p.edge (R.props p)) = (.ok (), p.edge props)) :
    (s.run d).1 = .ok (if d.get.isSome then .one (some (d.projection.apply (p.edge props)))
        else .nothing) ∧
      (s.run d).2.Refines kind upsertOnRead (R.insert p props) := by
  have ho : d.writeOptions.upsert = true := rfl
  have he := Reference.upsert_edges ho hu
  obtain ⟨ha, hs'⟩ := h.serves.upsert_ok hl rfl he
  rw [s.run_single hs hd hf, ha]
  refine ⟨?_, hs', h.upsertOnRead_eq⟩
  rw [Descriptor.writeOptions]
  cases d.get <;> rfl

theorem Refines.run_error {fault : RequestError} (h : s.Refines kind upsertOnRead R)
    (hl : kind = .tree → R.WithinLimits) (hs : d.src = some p.src) (hd : d.dest = some p.dest)
    (hf : d.find = none) (hu : (d.update.apply (p.edge (R.props p))).1 = .error fault) :
    (s.run d).1 = .error (.request fault) ∧ (s.run d).2.Refines kind upsertOnRead R := by
  have ho : d.writeOptions.upsert = true := rfl
  have he := Reference.upsert_edges_error ho hu
  obtain ⟨ha, hs'⟩ := h.serves.upsert_error hl rfl he
  rw [s.run_single hs hd hf, ha]
  exact ⟨rfl, hs', h.upsertOnRead_eq⟩

/-- Names are checked before the request is made and paths while it writes; a fault of either kind
leaves the edges as they are. -/
theorem Refines.setProperties (h : s.Refines kind upsertOnRead R)
    (hl : kind = .tree → R.WithinLimits) (a : Assignment) :
    (s.call (.set a)).1 = (R.call upsertOnRead (.set a)).1 ∧
      (s.call (.set a)).2.Refines kind upsertOnRead (R.call upsertOnRead (.set a)).2 := by
  let p : Pair := ⟨a.src, a.dest⟩
  cases hw : a.props.toList.mapM Reference.checked with
  | error fault =>
    have hd : a.descriptor = .error fault := by
      rw [Assignment.descriptor, Reference.named_eq_mapM, hw]
      rfl
    have hr : R.set a = .error fault := by
      rw [Reference.set, hw]
      rfl
    simp only [call, Store.setProperties, hd, Reference.call, hr]
    exact ⟨trivial, h⟩
  | ok writes =>
    let d : Descriptor := { src := some a.src, dest := some a.dest, set := some (.ofList writes) }
    have hd : a.descriptor = .ok d := by
      rw [Assignment.descriptor, Reference.named_eq_mapM, hw]
      rfl
    have hu := Reference.apply_assign p (R.props p)
      (Reference.pairwise_of_checked a.props.pairwise_toList hw)
    cases hp : Reference.assign (R.props p) writes with
    | ok props =>
      have hr : R.set a = .ok (R.insert p props) := by
        rw [Reference.set_of_checked a hw, hp]
        rfl
      rw [hp] at hu
      obtain ⟨ha, hs⟩ := h.run_ok (d := d) hl rfl rfl rfl hu
      simp only [call, Store.setProperties, hd, Reference.call, hr, ha]
      exact ⟨rfl, hs⟩
    | error fault =>
      have hr : R.set a = .error fault := by
        rw [Reference.set_of_checked a hw, hp]
        rfl
      rw [hp] at hu
      obtain ⟨ha, hs⟩ := h.run_error (d := d) hl rfl rfl rfl hu
      simp only [call, Store.setProperties, hd, Reference.call, hr, ha]
      exact ⟨rfl, hs⟩

theorem apply_remove (sel : Selection) (props : Option Properties) :
    sel.remove.update.apply (Pair.edge ⟨sel.src, sel.dest⟩ props) =
      (.ok (), Pair.edge ⟨sel.src, sel.dest⟩ (Selector.clear sel.props props)) := by
  obtain ⟨src, dest, props⟩ := sel
  rcases props with _ | _ | names <;> rfl

theorem Refines.removeProperties (h : s.Refines kind upsertOnRead R)
    (hl : kind = .tree → R.WithinLimits) (sel : Selection) :
    (s.call (.remove sel)).1 = (R.call upsertOnRead (.remove sel)).1 ∧
      (s.call (.remove sel)).2.Refines kind upsertOnRead (R.call upsertOnRead (.remove sel)).2 := by
  obtain ⟨ha, hs⟩ := h.run_ok (d := sel.remove) hl rfl rfl rfl (apply_remove sel _)
  simp only [call, Store.removeProperties, ha]
  exact ⟨rfl, hs⟩

/-- A read that may write leaves an edge as it is, and makes one without properties. -/
theorem Refines.get_upserting (h : s.Refines kind true R) (hl : kind = .tree → R.WithinLimits)
    (sel : Selection) :
    (s.call (.get sel)).1 = (R.call true (.get sel)).1 ∧
      (s.call (.get sel)).2.Refines kind true (R.call true (.get sel)).2 := by
  let p : Pair := ⟨sel.src, sel.dest⟩
  have hu : sel.get.update.apply (p.edge (R.props p)) = (.ok (), p.edge (R.props p)) := rfl
  have hg : sel.get.get = some (sel.props.getD .all) := rfl
  obtain ⟨ha, hs⟩ := h.run_ok (d := sel.get) hl rfl rfl rfl hu
  rw [Descriptor.projection_edge hg] at ha
  simp only [call, Store.getProperties, h.upsertOnRead_eq, if_true, ha, Reference.call,
    Reference.get]
  cases hg : R.get? p with
  | some props =>
    have hr : R.props p = props := by rw [Reference.props, hg, Option.join_some]
    rw [hr, OrderedMap.insert_get? hg] at hs
    rw [hr]
    exact ⟨rfl, hs⟩
  | none =>
    have hr : R.props p = none := by rw [Reference.props, hg, Option.join_none]
    have hn : Selector.pick sel.props none = none := by
      rcases sel.props with _ | _ | names <;> rfl
    rw [hr] at hs
    rw [hr, hn]
    exact ⟨rfl, hs⟩

theorem Refines.run_search {conditions : Conditions} (h : s.Refines kind upsertOnRead R)
    (hl : kind = .tree → R.WithinLimits) (hf : d.find = some conditions) (hs : d.set = none)
    (hr : d.remove = none) :
    s.run d = (.ok (.many (R.edges.find (d.searchFilter conditions) d.projection)), s) := by
  rw [run, Descriptor.compile_search hf hs hr]
  have hq := h.serves.find hl (d.searchFilter conditions) d.projection
  simp only [onStorage, Operation.execute, hq]
  rfl

/-- A read that may not write is a search for the one pair. -/
theorem Refines.get_peeking (h : s.Refines kind false R) (hl : kind = .tree → R.WithinLimits)
    (sel : Selection) :
    (s.call (.get sel)).1 = (R.call false (.get sel)).1 ∧
      (s.call (.get sel)).2.Refines kind false (R.call false (.get sel)).2 := by
  let p : Pair := ⟨sel.src, sel.dest⟩
  have hr := h.run_search (d := sel.peek) hl rfl rfl rfl
  have hf : sel.peek.searchFilter ∅ = p.filter := rfl
  have hg : sel.peek.get = some (sel.props.getD .all) := rfl
  simp only [hf, R.find_pair, Descriptor.projection_edge hg] at hr
  simp only [call, Store.getProperties, h.upsertOnRead_eq, Bool.false_eq_true, if_false, hr,
    Reference.call, Reference.get]
  cases hg : R.get? p with
  | some props => exact ⟨rfl, h⟩
  | none => exact ⟨rfl, h⟩

theorem Refines.findEdges (h : s.Refines kind upsertOnRead R) (hl : kind = .tree → R.WithinLimits)
    (q : Query) :
    (s.call (.find q)).1 = (R.call upsertOnRead (.find q)).1 ∧
      (s.call (.find q)).2.Refines kind upsertOnRead (R.call upsertOnRead (.find q)).2 := by
  by_cases hq : q.src = none ∧ q.dest = none ∧ q.find = none
  · have hd : q.descriptor? = none := by simp [Query.descriptor?, Query.isPlausible, hq]
    simp only [call, Store.findEdges, hd, Reference.call, Reference.find, if_pos hq]
    exact ⟨trivial, h⟩
  · have hd : q.descriptor? = some q.search := by
      rw [Query.descriptor?, if_pos]
      · rfl
      · rcases q with ⟨_ | src, _ | dest, selected, _ | conditions⟩ <;> simp_all [Query.isPlausible]
    have hr := h.run_search (d := q.search) hl rfl rfl rfl
    have hg : q.search.get = some (q.props.getD .all) := rfl
    simp only [R.find_edges, q.accepts_search, Descriptor.projection_edge hg] at hr
    simp only [call, Store.findEdges, hd, hr, Reference.call, Reference.find, if_neg hq]
    exact ⟨rfl, h⟩

/-- One call: the same answer, and again the same edges. -/
theorem Refines.call (h : s.Refines kind upsertOnRead R) (hl : kind = .tree → R.WithinLimits)
    (c : StoreCall) :
    (s.call c).1 = (R.call upsertOnRead c).1 ∧
      (s.call c).2.Refines kind upsertOnRead (R.call upsertOnRead c).2 := by
  cases c with
  | set a => exact h.setProperties hl a
  | remove sel => exact h.removeProperties hl sel
  | get sel =>
    cases upsertOnRead with
    | true => exact h.get_upserting hl sel
    | false => exact h.get_peeking hl sel
  | find q => exact h.findEdges hl q

theorem Refines.run (h : s.Refines kind upsertOnRead R) (calls : List StoreCall)
    (hl : kind = .tree → ∀ before, before <+: calls →
      (runCalls (Reference.call upsertOnRead) R before).2.WithinLimits) :
    (runCalls Store.call s calls).1 = (runCalls (Reference.call upsertOnRead) R calls).1 ∧
      (runCalls Store.call s calls).2.Refines kind upsertOnRead
        (runCalls (Reference.call upsertOnRead) R calls).2 := by
  have hstep : ∀ (s : Store) (R : Reference) (c : StoreCall), s.Refines kind upsertOnRead R →
      (kind = .tree → R.WithinLimits) → (kind = .tree → (R.call upsertOnRead c).2.WithinLimits) →
      (s.call c).1 = (R.call upsertOnRead c).1 ∧
        (s.call c).2.Refines kind upsertOnRead (R.call upsertOnRead c).2 :=
    fun s R c h hl _ => h.call hl c
  exact runCalls_agree hstep calls h fun before hb hk => hl hk before hb

/-- A store that is opened where no edges are begins without any. -/
theorem serves_openWith {settings : Settings} {disk : Disk} (ht : disk.tree = ∅)
    (hd : disk.snapshot.load = .ok ∅) (h : openWith settings disk = .ok s) :
    s.storage.Serves settings.engine ∅ ∧ s.upsertOnRead = settings.upsertOnRead := by
  obtain ⟨engine, hc, h⟩ := bind_eq_ok.mp h
  obtain ⟨_, ha, h⟩ := bind_eq_ok.mp h
  cases h
  refine ⟨?_, rfl⟩
  rw [Engine.create] at hc
  cases hk : settings.engine with
  | memory =>
    rw [hk] at hc
    cases hc
    cases settings.snapshotFile with
    | none => exact ⟨rfl, rfl, rfl⟩
    | some path =>
      simp only [Option.isSome_some, hd]
      exact ⟨rfl, rfl, rfl⟩
  | tree =>
    simp only [hk] at hc
    split at hc
    · cases hc
    · split at hc
      · cases hc
      · cases hc
        exact ⟨rfl, rfl, ht⟩

end Store

/-- The fault that an answer tells. -/
def StoreAnswer.fault? : StoreAnswer → Option StoreError
  | .done (.error fault) | .read (.error fault) | .found (.error fault) => some fault
  | _ => none

theorem Reference.call_fault (R : Reference) (c : StoreCall) {fault : StoreError}
    (h : (R.call upsertOnRead c).1.fault? = some fault) :
    ∃ reason, fault = .request reason ∧ reason.OfAssignment := by
  cases c with
  | set a =>
    rw [call] at h
    cases hr : R.set a with
    | ok R' => simp [hr, StoreAnswer.fault?] at h
    | error reason =>
      simp only [hr, StoreAnswer.fault?, Option.some.injEq] at h
      exact ⟨reason, h.symm, set_error hr⟩
  | remove sel => cases h
  | get sel => cases h
  | find q => cases h

/-- A running store that holds no edges answers any calls as the reference does, faults included,
and holds the edges of the reference afterwards. Only an assignment can be at fault. A tree has to
be able to read what it has written; edges in memory are under no condition. -/
theorem Store.refines_reference (hs : s.storage.Serves kind ∅) (calls : List StoreCall)
    (limits : kind = .tree → ∀ before, before <+: calls →
      (runCalls (Reference.call s.upsertOnRead) ∅ before).2.WithinLimits) :
    (runCalls call s calls).1 = (runCalls (Reference.call s.upsertOnRead) ∅ calls).1 ∧
      (runCalls call s calls).2.storage.Serves kind
        (runCalls (Reference.call s.upsertOnRead) ∅ calls).2.edges ∧
      ∀ answer ∈ (runCalls call s calls).1, ∀ fault, answer.fault? = some fault →
        ∃ reason, fault = .request reason ∧ reason.OfAssignment := by
  have h : s.Refines kind s.upsertOnRead ∅ := ⟨hs, rfl⟩
  obtain ⟨ha, hr⟩ := h.run calls limits
  refine ⟨ha, hr.serves, ?_⟩
  rw [ha]
  exact mem_runCalls (fun R c _ hf => Reference.call_fault R c hf) ∅ calls

/-- A read of a missing edge, an assignment and one at fault, a removal and a search. -/
def Store.sampleCalls : List StoreCall :=
  let a : NodeId := .ofByte 0xaa
  let absent : Json := .obj (OrderedMap.ofList [("$exists", .bool false)])
  let conditions := Conditions.ofJson (.obj (OrderedMap.ofList [("x", absent)]))
  [.get { src := a, dest := a },
    .set { src := a, dest := a, props := OrderedMap.ofList [("x", .float ⟨0x8000000000000000⟩)] },
    .set { src := a, dest := a, props := OrderedMap.ofList [("x", .int 1), ("x.y", .null)] },
    .remove { src := a, dest := a, props := (Selector.ofNames ["x"]).toOption },
    .find { src := some a, find := conditions.toOption }]

set_option maxRecDepth 8000 in
theorem Store.refines_reference_sample :
    let a : NodeId := .ofByte 0xaa
    let s : Store := { storage := ⟨.tree true, {}⟩, upsertOnRead := false }
    s.storage.Serves .tree ∅ ∧
      (runCalls Store.call s sampleCalls).1 = [.read (.ok none), .done (.ok ()),
        .done (.error (.request (.pathConflict "x.y"))), .done (.ok ()),
        .found (.ok [⟨a, a, some ∅⟩])] ∧
      (runCalls Store.call s sampleCalls).2.storage.Serves .tree
        (runCalls (Reference.call false) ∅ sampleCalls).2.edges := by
  intro a s
  have hs : s.storage.Serves .tree ∅ := ⟨rfl, rfl, rfl⟩
  have hl : ∀ n ≤ 5,
      (runCalls (Reference.call false) ∅ (sampleCalls.take n)).2.edges.WithinLimits := by decide
  have limits : ∀ before, before <+: sampleCalls →
      (runCalls (Reference.call false) ∅ before).2.WithinLimits := by
    intro before hb
    rw [List.prefix_iff_eq_take.mp hb]
    exact hl _ hb.length_le
  obtain ⟨ha, hr, -⟩ := refines_reference hs sampleCalls fun _ => limits
  exact ⟨hs, ha.trans rfl, hr⟩

/-- A value of any depth can be set. -/
theorem Reference.set_deep (hp : R.props p = none) (n : Nat) :
    R.set ⟨p.src, p.dest, .deep n⟩ = .ok (R.insert p (some (.deep n))) := by
  have ha : (PairEdit.set (.deep n)).apply (R.props p) = .ok (some (.deep n)) := by
    rw [hp, PairEdit.apply_deep]
  obtain ⟨writes, hw, ha⟩ := bind_eq_ok.mp ha
  rw [set_of_checked ⟨p.src, p.dest, .deep n⟩ hw, ha]
  rfl

namespace Store
variable {n : Nat}

theorem Refines.set_deep (h : s.Refines .tree upsertOnRead R) (hl : R.WithinLimits)
    (hp : R.props p = none) (n : Nat) :
    (s.call (.set ⟨p.src, p.dest, .deep n⟩)).1 = .done (.ok ()) ∧
      (s.call (.set ⟨p.src, p.dest, .deep n⟩)).2.Refines .tree upsertOnRead
        (R.insert p (some (.deep n))) := by
  have hs := h.setProperties (fun _ => hl) ⟨p.src, p.dest, .deep n⟩
  rw [Reference.call, R.set_deep hp n] at hs
  exact hs

/-- Of an edge nested too deep a tree has no more than the bytes. -/
theorem Refines.stored?_deep (h : s.Refines .tree upsertOnRead R)
    (hg : R.get? p = some (some (.deep n))) (hn : MessagePack.maxDepth < n + 2) :
    s.storage.stored? p.key = some (.error (.deserialization none)) := by
  have he : R.edges.get? p.key = some (p.edge (some (.deep n))) := by
    rw [Reference.get?_edges, hg]
    rfl
  rw [h.serves.stored?_of_get? he, Edge.decode_deep p hn]

theorem get_of_unread {fault : StoreError} (hr : s.storage.engine.running = true)
    (hu : s.upsertOnRead = true) (hs : s.storage.stored? p.key = some (.error fault))
    (selected : Option Selector) :
    s.call (.get ⟨p.src, p.dest, selected⟩) = (.read (.error fault), s) := by
  let d : Descriptor := Selection.get ⟨p.src, p.dest, selected⟩
  have hrun := s.run_single (p := p) (d := d) rfl rfl rfl
  rw [Storage.upsert_of_unread hr rfl hs] at hrun
  rw [call, getProperties, if_pos hu, hrun]
  rfl

/-- A tree takes what it cannot read again, and from then on has a fault for an answer where the
reference has the edge. -/
theorem Refines.answers_differ (h : s.Refines .tree true R) (hl : R.WithinLimits)
    (hp : R.props p = none) (hn : MessagePack.maxDepth < n + 2) :
    let calls : List StoreCall := [.set ⟨p.src, p.dest, .deep n⟩, .get ⟨p.src, p.dest, none⟩]
    (runCalls Store.call s calls).1 = [.done (.ok ()), .read (.error (.deserialization none))] ∧
      (runCalls (Reference.call true) R calls).1 =
        [.done (.ok ()), .read (.ok (some (p.seen (some (.deep n)))))] := by
  intro calls
  obtain ⟨ha, h'⟩ := h.set_deep hl hp n
  have hg : (R.insert p (some (.deep n))).get? p = some (some (.deep n)) := by
    rw [OrderedMap.get?_insert, if_pos rfl]
  have hread := get_of_unread h'.serves.running h'.upsertOnRead_eq (h'.stored?_deep hg hn) none
  constructor
  · rw [runCalls_cons, runCalls_cons, ha, hread]
    rfl
  · have hs : R.call true (.set ⟨p.src, p.dest, .deep n⟩) =
        (.done (.ok ()), R.insert p (some (.deep n))) := by
      rw [Reference.call, R.set_deep hp n]
    have hr : Reference.get (R.insert p (some (.deep n))) true ⟨p.src, p.dest, none⟩ =
        (some (p.seen (some (.deep n))), R.insert p (some (.deep n))) := by
      rw [Reference.get, hg]
      rfl
    rw [runCalls_cons, runCalls_cons, hs, Reference.call, hr]
    rfl

/-- On a new tree, for a value so deep that a reader follows it alone, but not in an edge. -/
theorem set_deep_unanswered :
    let p : Pair := ⟨.ofByte 0xaa, .ofByte 0xbb⟩
    let s : Store := { storage := ⟨.tree true, {}⟩ }
    let calls : List StoreCall :=
      [.set ⟨p.src, p.dest, .deep MessagePack.maxDepth⟩, .get ⟨p.src, p.dest, none⟩]
    s.storage.Serves .tree ∅ ∧ s.upsertOnRead = true ∧
      (runCalls call s calls).1 = [.done (.ok ()), .read (.error (.deserialization none))] ∧
      (runCalls (Reference.call true) ∅ calls).1 =
        [.done (.ok ()), .read (.ok (some (p.seen (some (.deep MessagePack.maxDepth)))))] := by
  intro p s calls
  have h : s.Refines .tree true ∅ := ⟨⟨rfl, rfl, rfl⟩, rfl⟩
  have hl : (∅ : Reference).edges.WithinLimits := by decide
  exact ⟨h.serves, rfl, h.answers_differ hl rfl (by decide)⟩

end Store
end PropertyGraph
