import PropertyGraph.Proofs.Refinement

/-! Why a write is refused, and that nothing is left of it then. -/
namespace PropertyGraph

variable {fault : RequestError} {existing : Option Edge} {e e' : Edge} {key : String}
  {f : Filter} {u : Update} {options : UpsertOptions} {m m' : Properties}

namespace Update

/-- The name an update stops at, and the properties as they have been written until then. -/
def StopsAt (u : Update) (e : Edge) (name : PropertyName) (m : Properties) : Prop :=
  ∃ before v after, u.assign.toList = before ++ (name, v) :: after ∧
    assignAll (e.props.getD ∅) before = (.ok (), m) ∧ m.setAt? v name.segments = none

theorem assignAll_eq_error {writes : List (PropertyName × Value)} :
    assignAll m writes = (.error fault, m') ↔ ∃ before name v after,
      writes = before ++ (name, v) :: after ∧ assignAll m before = (.ok (), m') ∧
        m'.setAt? v name.segments = none ∧ fault = .pathConflict name.text := by
  induction writes generalizing m with
  | nil => simp [assignAll]
  | cons w ws ih =>
    obtain ⟨name, v⟩ := w
    rw [assignAll, Properties.write]
    cases hs : m.setAt? v name.segments with
    | none =>
      constructor
      · intro h
        cases h
        exact ⟨[], name, v, ws, rfl, rfl, hs, rfl⟩
      · rintro ⟨before, name', v', after, he, hb, hc, rfl⟩
        cases before with
        | nil =>
          cases he
          cases hb
          rfl
        | cons w before =>
          obtain ⟨rfl, rfl⟩ := List.cons.inj he
          simp [assignAll, Properties.write, hs] at hb
    | some m₁ =>
      refine ih.trans ?_
      constructor
      · rintro ⟨before, name', v', after, rfl, hb, hc, rfl⟩
        refine ⟨(name, v) :: before, name', v', after, rfl, ?_, hc, rfl⟩
        rw [assignAll, Properties.write, hs]
        exact hb
      · rintro ⟨before, name', v', after, he, hb, hc, rfl⟩
        cases before with
        | nil =>
          cases he
          cases hb
          rw [hc] at hs
          cases hs
        | cons w before =>
          obtain ⟨rfl, rfl⟩ := List.cons.inj he
          rw [assignAll, Properties.write, hs] at hb
          exact ⟨before, name', v', after, rfl, hb, hc, rfl⟩

/-- The edge at hand keeps what was written before the fault. -/
theorem apply_eq_error : u.apply e = (.error fault, e') ↔
    ∃ name m, u.StopsAt e name m ∧ fault = .pathConflict name.text ∧
      e' = { e with props := some m } := by
  have ha : u.apply e = (.error fault, e') ↔ u.assigned e = (.error fault, e') := by
    rw [apply]
    cases u.assigned e with
    | mk answer e₁ => cases answer <;> simp
  rw [ha, assigned, ← Ascending.isEmpty_toList]
  constructor
  · intro h
    split at h
    · cases h
    · cases hw : assignAll (e.props.getD ∅) u.assign.toList with
      | mk answer m =>
        rw [hw] at h
        cases h
        obtain ⟨before, name, v, after, hl, hb, hc, rfl⟩ := assignAll_eq_error.mp hw
        exact ⟨name, m, ⟨before, v, after, hl, hb, hc⟩, rfl, rfl⟩
  · rintro ⟨name, m, ⟨before, v, after, hl, hb, hc⟩, rfl, rfl⟩
    have hw := assignAll_eq_error.mpr ⟨before, name, v, after, hl, hb, hc, rfl⟩
    rw [if_neg (by simp [hl]), hw]

end Update

namespace Filter

theorem seed_eq_error {fault : StoreError} (hk : f.uniqueIndex = some key) :
    f.seed = .error fault ↔
      ((f.src = none ∨ f.dest = none) ∧
        fault = .invalidData "cannot insert an edge without both src and dest") ∨
      ∃ src dest, f.src = some src ∧ f.dest = some dest ∧ key ≠ pairKey src dest ∧
        fault = .invalidData s!"uniqueIndex {key} does not belong to {src} -> {dest}" := by
  rw [seed, hk]
  cases hs : f.src with
  | none => simp [eq_comm]
  | some src =>
    cases hd : f.dest with
    | none => simp [eq_comm]
    | some dest =>
      by_cases h : key = pairKey src dest
      · simp [Edge.new, h]
      · simp [Edge.new, h, eq_comm]

theorem upsertKey_eq_error {fault : StoreError} : f.upsertKey = .error fault ↔
    f.uniqueIndex = none ∧ fault = .invalidData "upsert requires a uniqueIndex condition" := by
  rw [upsertKey]
  cases f.uniqueIndex <;> simp [eq_comm]

theorem target_eq_error {fault : StoreError} : f.target existing options = .error fault ↔
    (∃ e, existing = some e ∧ f.accepts e = false ∧ fault = .duplicateKey e.uniqueIndex) ∨
      (existing = none ∧ options.upsert = true ∧ f.seed = .error fault) := by
  cases existing with
  | none =>
    rw [target]
    cases options.upsert with
    | false => simp
    | true => cases f.seed <;> simp [Functor.map, Except.map]
  | some e =>
    rw [target]
    cases ha : f.accepts e with
    | true => simp [ha]
    | false =>
      constructor
      · intro h
        cases h
        exact .inl ⟨e, rfl, ha, rfl⟩
      · rintro (⟨e', he, -, rfl⟩ | ⟨h, -⟩)
        · cases he
          rfl
        · cases h

end Filter

namespace Storage
variable {s : Storage}

/-- Why a running engine refuses an upsert. An edge that cannot be read is a reason in a tree
alone. -/
inductive Refuses (s : Storage) (f : Filter) (u : Update) (options : UpsertOptions) :
    StoreError → Prop
  | keyless (hk : f.uniqueIndex = none) :
    Refuses s f u options (.invalidData "upsert requires a uniqueIndex condition")
  | unreadable {key : String} {fault : StoreError} (hk : f.uniqueIndex = some key)
    (hs : s.stored? key = some (.error fault)) : Refuses s f u options fault
  | taken {key : String} {e : Edge} (hk : f.uniqueIndex = some key)
    (hs : s.stored? key = some (.ok e)) (ha : f.accepts e = false) :
    Refuses s f u options (.duplicateKey e.uniqueIndex)
  | endless {key : String} (hk : f.uniqueIndex = some key) (hs : s.stored? key = none)
    (ho : options.upsert = true) (he : f.src = none ∨ f.dest = none) :
    Refuses s f u options (.invalidData "cannot insert an edge without both src and dest")
  | forged {key : String} {src dest : NodeId} (hk : f.uniqueIndex = some key)
    (hs : s.stored? key = none) (ho : options.upsert = true) (hsrc : f.src = some src)
    (hdest : f.dest = some dest) (hne : key ≠ pairKey src dest) :
    Refuses s f u options
      (.invalidData s!"uniqueIndex {key} does not belong to {src} -> {dest}")
  | conflict {key : String} {existing : Option Edge} {e : Edge} {name : PropertyName}
    {m : Properties} (hk : f.uniqueIndex = some key) (hs : s.stored? key = existing.map .ok)
    (ht : f.target existing options = .ok (some e)) (hc : u.StopsAt e name m) :
    Refuses s f u options (.request (.pathConflict name.text))

/-- The edge under a key, if there is one and it can be read. -/
def edge? (s : Storage) (key : String) : Except StoreError (Option Edge) :=
  match s.stored? key with
  | none => .ok none
  | some read => read.map some

theorem edge?_eq_ok : s.edge? key = .ok existing ↔ s.stored? key = existing.map .ok := by
  rw [edge?]
  cases s.stored? key with
  | none => cases existing <;> simp
  | some read => cases read <;> cases existing <;> simp [Except.map]

theorem edge?_eq_error {fault : StoreError} :
    s.edge? key = .error fault ↔ s.stored? key = some (.error fault) := by
  rw [edge?]
  cases s.stored? key with
  | none => simp
  | some read => cases read <;> simp [Except.map]

/-- Engines of both kinds resolve an upsert from what is read under its key. -/
theorem answer_upsert (hr : s.engine.running = true) (f : Filter) (u : Update)
    (options : UpsertOptions) :
    (s.upsert f u options).1 = (do
      let next ← resolveUpsert (← s.edge? (← f.upsertKey)) f u options
      return next.bind fun e =>
        if options.returnDocument then some (options.projection.apply e) else none) := by
  obtain ⟨engine, disk⟩ := s
  rw [upsert]
  cases f.upsertKey with
  | error fault => cases engine <;> cases hr <;> rfl
  | ok key =>
    cases engine with
    | memory running persistent edges =>
      obtain rfl : running = true := hr
      have he : edge? ⟨.memory true persistent edges, disk⟩ key = .ok (edges.get? key) :=
        edge?_eq_ok.mpr rfl
      simp only [requireRunning, Engine.running, if_true, bind, Except.bind, he, Edges.upsert]
      cases resolveUpsert (edges.get? key) f u options with
      | error fault => rfl
      | ok next => cases next <;> rfl
    | tree running =>
      obtain rfl : running = true := hr
      have he : edge? ⟨.tree true, disk⟩ key = disk.tree.edge? key := by
        rw [edge?, stored?, EdgeTree.edge?]
        cases disk.tree.get? key <;> rfl
      simp only [requireRunning, Engine.running, if_true, bind, Except.bind, he, EdgeTree.upsert]
      cases disk.tree.edge? key with
      | error fault => rfl
      | ok existing =>
        dsimp only
        cases resolveUpsert existing f u options with
        | error fault => rfl
        | ok next => cases next <;> rfl

end Storage

theorem resolveUpsert_eq_error {fault : StoreError} :
    resolveUpsert existing f u options = .error fault ↔
      f.target existing options = .error fault ∨
      ∃ e name m, f.target existing options = .ok (some e) ∧ u.StopsAt e name m ∧
        fault = .request (.pathConflict name.text) := by
  rw [resolveUpsert, bind_eq_error]
  refine or_congr Iff.rfl ?_
  constructor
  · rintro ⟨next, ht, h⟩
    cases next with
    | none => cases h
    | some e =>
      dsimp only at h
      split at h
      · cases h
      · next hu =>
        cases h
        obtain ⟨name, m, hc, rfl, -⟩ := Update.apply_eq_error.mp hu
        exact ⟨e, name, m, ht, hc, rfl⟩
  · rintro ⟨e, name, m, ht, hc, rfl⟩
    have hu := Update.apply_eq_error.mpr ⟨name, m, hc, rfl, rfl⟩
    refine ⟨some e, ht, ?_⟩
    dsimp only
    rw [hu]
    rfl

namespace Storage
variable {s : Storage}

theorem refuses_of_target {fault : StoreError} (hk : f.uniqueIndex = some key)
    (hs : s.stored? key = existing.map .ok) (h : f.target existing options = .error fault) :
    s.Refuses f u options fault := by
  rcases Filter.target_eq_error.mp h with ⟨e, rfl, ha, rfl⟩ | ⟨rfl, ho, hseed⟩
  · exact .taken hk hs ha
  · rcases (Filter.seed_eq_error hk).mp hseed with ⟨he, rfl⟩ | ⟨src, dest, hsrc, hdest, hne, rfl⟩
    · exact .endless hk hs ho he
    · exact .forged hk hs ho hsrc hdest hne

theorem error_of_resolve {fault : StoreError} (hr : s.engine.running = true)
    (hk : f.uniqueIndex = some key) (hu : resolveUpsert existing f u options = .error fault)
    (hs : s.stored? key = existing.map .ok) : (s.upsert f u options).1 = .error fault := by
  rw [answer_upsert hr, Filter.upsertKey_eq_ok.mpr hk]
  simp only [bind, Except.bind, edge?_eq_ok.mpr hs, hu]

theorem upsert_eq_error {fault : StoreError} (hr : s.engine.running = true) :
    (s.upsert f u options).1 = .error fault ↔ s.Refuses f u options fault := by
  constructor
  · intro h
    rw [answer_upsert hr] at h
    rcases bind_eq_error.mp h with h | ⟨key, hk, h⟩
    · obtain ⟨hk, rfl⟩ := Filter.upsertKey_eq_error.mp h
      exact .keyless hk
    rw [Filter.upsertKey_eq_ok] at hk
    rcases bind_eq_error.mp h with h | ⟨existing, he, h⟩
    · exact .unreadable hk (edge?_eq_error.mp h)
    rw [edge?_eq_ok] at he
    rcases bind_eq_error.mp h with h | ⟨next, -, h⟩
    · rcases resolveUpsert_eq_error.mp h with h | ⟨e, name, m, ht, hc, rfl⟩
      · exact refuses_of_target hk he h
      · exact .conflict hk he ht hc
    · cases h
  · intro h
    cases h with
    | keyless hk =>
      rw [answer_upsert hr, Filter.upsertKey_eq_error.mpr ⟨hk, rfl⟩]
      rfl
    | unreadable hk hs =>
      rw [answer_upsert hr, Filter.upsertKey_eq_ok.mpr hk]
      simp only [bind, Except.bind, edge?_eq_error.mpr hs]
    | @taken key e hk hs ha =>
      have ht : f.target (some e) options = .error (.duplicateKey e.uniqueIndex) :=
        Filter.target_eq_error.mpr (.inl ⟨e, rfl, ha, rfl⟩)
      exact error_of_resolve hr hk (resolveUpsert_eq_error.mpr (.inl ht)) hs
    | endless hk hs ho he =>
      have hseed := (Filter.seed_eq_error hk).mpr (.inl ⟨he, rfl⟩)
      have ht := Filter.target_eq_error.mpr (.inr ⟨rfl, ho, hseed⟩)
      exact error_of_resolve hr hk (resolveUpsert_eq_error.mpr (.inl ht)) hs
    | forged hk hs ho hsrc hdest hne =>
      have hseed := (Filter.seed_eq_error hk).mpr (.inr ⟨_, _, hsrc, hdest, hne, rfl⟩)
      have ht := Filter.target_eq_error.mpr (.inr ⟨rfl, ho, hseed⟩)
      exact error_of_resolve hr hk (resolveUpsert_eq_error.mpr (.inl ht)) hs
    | conflict hk hs ht hc =>
      have hu := resolveUpsert_eq_error.mpr (.inr ⟨_, _, _, ht, hc, rfl⟩)
      exact error_of_resolve hr hk hu hs

/-- Whatever was done to the edge at hand, it is not written back. -/
theorem upsert_of_error {fault : StoreError} (h : (s.upsert f u options).1 = .error fault) :
    (s.upsert f u options).2 = s := by
  obtain ⟨engine, disk⟩ := s
  cases engine with
  | memory running persistent edges =>
    simp only [upsert] at h ⊢
    split at h
    · cases h
    · rfl
  | tree running =>
    simp only [upsert] at h ⊢
    split at h
    · cases h
    · rfl

end Storage

theorem Operation.execute_of_error {op : Operation} {s : Storage} {fault : StoreError}
    (h : (op.execute s).1 = .error fault) : (op.execute s).2 = s := by
  rw [execute] at h ⊢
  cases ht : op.target with
  | many => rfl
  | single =>
    rw [ht] at h
    cases hu : op.update with
    | none => rfl
    | some update =>
      rw [hu] at h
      exact Storage.upsert_of_error (map_eq_error.mp h)

namespace StoreAnswer
variable {fault : StoreError}

@[simp] theorem fault?_done {x : Except StoreError Unit} :
    (done x).fault? = some fault ↔ x = .error fault := by
  cases x <;> simp [fault?]

@[simp] theorem fault?_read {x : Except StoreError (Option ProjectedEdge)} :
    (read x).fault? = some fault ↔ x = .error fault := by
  cases x <;> simp [fault?]

@[simp] theorem fault?_found {x : Except StoreError (List ProjectedEdge)} :
    (found x).fault? = some fault ↔ x = .error fault := by
  cases x <;> simp [fault?]

end StoreAnswer

namespace Reference

theorem checked_eq_error {entry : String × Value} :
    (∃ fault, checked entry = .error fault) ↔
      (∃ fault, PropertyName.ofText entry.1 = .error fault) ∨
        ∃ fault, entry.2.checkKeys = .error fault := by
  rw [checked]
  cases PropertyName.ofText entry.1 with
  | error fault => simp [bind, Except.bind]
  | ok name => cases entry.2.checkKeys <;> simp [bind, Except.bind, pure, Except.pure]

end Reference

namespace Store
variable {s : Store}

theorem run_of_error {d : Descriptor} {fault : StoreError} (h : (s.run d).1 = .error fault) :
    (s.run d).2 = s := by
  rw [run] at h ⊢
  cases hc : d.compile with
  | error fault => rfl
  | ok op =>
    rw [hc] at h
    have hs := Operation.execute_of_error h
    simp only [onStorage, hs]

theorem call_of_fault {c : StoreCall} {fault : StoreError}
    (h : (s.call c).1.fault? = some fault) : (s.call c).2 = s := by
  cases c with
  | set a =>
    simp only [call, setProperties, StoreAnswer.fault?_done] at h ⊢
    cases hd : a.descriptor with
    | error fault => rfl
    | ok d =>
      simp only [hd, map_eq_error] at h
      exact run_of_error h
  | remove sel =>
    simp only [call, removeProperties, StoreAnswer.fault?_done, map_eq_error] at h
    exact run_of_error h
  | get sel =>
    simp only [call, getProperties, StoreAnswer.fault?_read, map_eq_error] at h
    exact run_of_error h
  | find q =>
    simp only [call, findEdges, StoreAnswer.fault?_found] at h ⊢
    cases hd : q.descriptor? with
    | none => rfl
    | some d =>
      simp only [hd, map_eq_error] at h
      exact run_of_error h

/-- Names and keys are all looked at before the storage is, so it does not matter where the one at
fault stands. Of several the first is told. -/
theorem setProperties_of_unchecked {a : Assignment} {before after : List (String × Value)}
    {entry : String × Value} (ha : a.props.toList = before ++ entry :: after)
    (hf : ∃ fault, Reference.checked entry = .error fault) :
    ∃ first, s.setProperties a = (.error (.request first), s) ∧
      ((∀ e ∈ before, ∃ w, Reference.checked e = .ok w) →
        Reference.checked entry = .error first) := by
  obtain ⟨fault, hf⟩ := hf
  have hset : ∀ {first}, a.props.toList.mapM Reference.checked = .error first →
      s.setProperties a = (.error (.request first), s) := by
    intro first hm
    have hd : a.descriptor = .error first := by
      rw [Assignment.descriptor, Reference.named_eq_mapM, hm]
      rfl
    rw [setProperties, hd]
  cases hm : a.props.toList.mapM Reference.checked with
  | ok writes =>
    have hl := mapM_eq_ok.mp hm
    have he : Reference.checked entry ∈ writes.map .ok := by
      rw [← hl, ha]
      simp
    rw [hf] at he
    simp at he
  | error first =>
    refine ⟨first, hset hm, ?_⟩
    intro hb
    have hm' := mapM_eq_error.mpr ⟨before, entry, after, ha, hb, hf⟩
    rw [hm] at hm'
    rw [hf, Except.error.inj hm']

/-- A running engine refuses an upsert for one of the reasons told and then keeps every edge as it
was, although the edge at hand may have been written to. No call of a store that fails changes
anything either, and of an assignment with one bad name or key nothing is written. -/
theorem failures_write_nothing :
    (∀ (s : Storage) f u options fault, s.engine.running = true →
      ((s.upsert f u options).1 = .error fault ↔ s.Refuses f u options fault) ∧
      ((s.upsert f u options).1 = .error fault → (s.upsert f u options).2 = s)) ∧
    (∀ (s : Store) c fault, (s.call c).1.fault? = some fault → (s.call c).2 = s) ∧
    ∀ (s : Store) (a : Assignment) before key v after,
      a.props.toList = before ++ (key, v) :: after →
      ((∃ fault, PropertyName.ofText key = .error fault) ∨ ∃ fault, v.checkKeys = .error fault) →
      ∃ first, s.setProperties a = (.error (.request first), s) ∧
        ((∀ e ∈ before, ∃ w, Reference.checked e = .ok w) →
          Reference.checked (key, v) = .error first) := by
  refine ⟨?_, fun _ _ _ => call_of_fault, ?_⟩
  · intro s f u options fault hr
    exact ⟨Storage.upsert_eq_error hr, Storage.upsert_of_error⟩
  · intro s a before key v after ha hf
    exact setProperties_of_unchecked ha (Reference.checked_eq_error.mpr hf)

def sampleFriend : Edge :=
  { Edge.new (.ofByte 0xaa) (.ofByte 0xaa) with
    props := some (OrderedMap.ofList [("friend", .bool true)]) }

/-- One edge with one property, in memory. -/
def sampleFriends : Storage :=
  let edges : Edges := OrderedMap.ofList [(sampleFriend.uniqueIndex, sampleFriend)]
  { engine := .memory true false edges, disk := {} }

theorem stored?_sampleFriends :
    sampleFriends.stored? (pairKey (.ofByte 0xaa) (.ofByte 0xaa)) = some (.ok sampleFriend) := by
  have hk : sampleFriend.uniqueIndex = pairKey (.ofByte 0xaa) (.ofByte 0xaa) := rfl
  simp only [sampleFriends, Storage.stored?, OrderedMap.ofList, List.foldl_cons, List.foldl_nil,
    OrderedMap.get?_insert, hk, if_true, Option.map_some]

/-- The first of two values can be written, the second one has no place. -/
def sampleConflict : Update :=
  let name : PropertyName := ⟨"color", by decide, by decide⟩
  let below : PropertyName := ⟨"friend.since", by decide, by decide⟩
  { assign := OrderedMap.ofList [(name, .int 1), (below, .int 2014)] }

set_option maxRecDepth 8000 in
theorem failures_write_nothing_sample :
    let a : NodeId := .ofByte 0xaa
    let f : Filter := { src := some a, dest := some a, uniqueIndex := some (pairKey a a) }
    let bad : Assignment := { src := a, dest := a, props := OrderedMap.ofList [
      ("a", .int 1), ("b", .map (OrderedMap.ofList [("$set", .null)]))] }
    let options : UpsertOptions := { upsert := true }
    sampleFriends.engine.running = true ∧
      (sampleFriends.upsert f sampleConflict options).1 =
        .error (.request (.pathConflict "friend.since")) ∧
      (sampleFriends.upsert f sampleConflict options).2 = sampleFriends ∧
      (∀ e, sampleFriends.stored? (pairKey a a) = some (.ok e) →
        (sampleConflict.apply e).2 ≠ e) ∧
      ∃ first, setProperties { storage := sampleFriends } bad =
        (.error (.request first), { storage := sampleFriends }) := by
  intro a f bad options
  have hr : sampleFriends.engine.running = true := rfl
  have hf : (sampleFriends.upsert f sampleConflict options).1 =
      .error (.request (.pathConflict "friend.since")) := by rfl
  obtain ⟨hs, -, hp⟩ := failures_write_nothing
  have hw : ∀ e, sampleFriends.stored? (pairKey a a) = some (.ok e) →
      (sampleConflict.apply e).2 ≠ e := by
    intro e he
    rw [stored?_sampleFriends] at he
    cases he
    decide
  have hb : ("b", Value.map (OrderedMap.ofList [("$set", .null)])).2.checkKeys =
      .error (.name "$set") := by rfl
  obtain ⟨first, hset, -⟩ := hp { storage := sampleFriends } bad [("a", .int 1)] "b"
    (.map (OrderedMap.ofList [("$set", .null)])) [] rfl (.inr ⟨_, hb⟩)
  exact ⟨hr, hf, (hs sampleFriends f sampleConflict options _ hr).2 hf, hw, first, hset⟩

end Store
end PropertyGraph
