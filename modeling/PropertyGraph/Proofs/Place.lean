import PropertyGraph.Proofs.MessagePack.Bounds
import PropertyGraph.Proofs.Rejection
import PropertyGraph.Proofs.Uniqueness

/-! What stands under one key of a storage, and what is put there. -/
namespace PropertyGraph

variable {s : Storage} {kind : EngineKind} {edges : Edges} {e e' : Edge} {key key' : String}
  {f : Filter} {u : Update} {options : UpsertOptions} {p : Pair}

/-- What an upsert tells of the edge that it writes, if it writes one. -/
def UpsertOptions.answer (options : UpsertOptions) (next : Option Edge) : Option ProjectedEdge :=
  next.bind fun e => if options.returnDocument then some (options.projection.apply e) else none

/-- The edge at the place of a pair is that of the pair. -/
theorem Edge.KeyedBy.eq_edge (h : e.KeyedBy p.key) : e = p.edge e.props := by
  obtain ⟨src, dest, key, props⟩ := e
  obtain ⟨rfl, hk⟩ := h
  have hp : p = ⟨src, dest⟩ := Pair.key_inj hk
  rw [hp]
  rfl

/-- The filter of a pair is for the edge that is there, or for a new one. -/
theorem Pair.target_slot (ho : options.upsert = true) (p : Pair)
    (slot : Option (Option Properties)) :
    p.filter.target (slot.map p.edge) options = .ok (some (p.edge slot.join)) := by
  cases slot with
  | none =>
    rw [Option.map_none, Filter.target, if_pos ho, Pair.seed_filter]
    rfl
  | some props =>
    rw [Option.map_some, Filter.target, if_pos (p.accepts_edge props)]
    rfl

/-- The edge of a pair is updated, or a new one. -/
theorem Pair.resolve_slot (ho : options.upsert = true) (p : Pair)
    (slot : Option (Option Properties)) (u : Update) :
    resolveUpsert (slot.map p.edge) p.filter u options =
      match u.apply (p.edge slot.join) with
      | (.ok (), e) => .ok (some e)
      | (.error fault, _) => .error (.request fault) := by
  rw [resolveUpsert, p.target_slot ho]
  rfl

namespace Storage

/-- The storage with an edge under a key. -/
def put (s : Storage) (key : String) (e : Edge) : Storage :=
  match s.engine with
  | .memory running persistent edges =>
    { s with engine := .memory running persistent (edges.insert key e) }
  | .tree _ => { s with disk := { s.disk with tree := s.disk.tree.insert key e.encode } }

/-- An edge is put under a key, if there is one to be put there. -/
def write (s : Storage) (key : String) : Option Edge → Storage
  | none => s
  | some e => s.put key e

/-- An edge as it is read once it has been put somewhere. -/
def reread (s : Storage) (e : Edge) : Except StoreError Edge :=
  match s.engine with
  | .memory .. => .ok e
  | .tree _ => Edge.decode e.encode

/-- What a tree keeps under a key is short enough that no size in it was cut off when it was
written. -/
def Whole (s : Storage) (key : String) : Prop :=
  match s.engine with
  | .memory .. => True
  | .tree _ => ∀ bytes ∈ s.disk.tree.get? key, bytes.length < 2 ^ 32

/-- What stands under a key can be read; in memory this is always so. -/
structure Legible (s : Storage) (key : String) : Prop where
  whole : s.Whole key
  reads : ∀ read, s.stored? key = some read → ∃ e, read = .ok e

@[simp] theorem requireRunning_put (s : Storage) (key : String) (e : Edge) :
    (s.put key e).requireRunning = s.requireRunning := by
  obtain ⟨engine, disk⟩ := s
  cases engine <;> rfl

@[simp] theorem kind_put (s : Storage) (key : String) (e : Edge) :
    (s.put key e).engine.kind = s.engine.kind := by
  obtain ⟨engine, disk⟩ := s
  cases engine <;> rfl

theorem stored?_put (s : Storage) (key : String) (e : Edge) (key' : String) :
    (s.put key e).stored? key' = if key' = key then some (s.reread e) else s.stored? key' := by
  obtain ⟨engine, disk⟩ := s
  cases engine with
  | memory running persistent edges =>
    change ((edges.insert key e).get? key').map Except.ok = _
    rw [OrderedMap.get?_insert]
    split <;> rfl
  | tree running =>
    change ((disk.tree.insert key e.encode).get? key').map Edge.decode = _
    rw [OrderedMap.get?_insert]
    split <;> rfl

theorem edge?_put_of_ne (h : key' ≠ key) (s : Storage) (e : Edge) :
    (s.put key e).edge? key' = s.edge? key' := by
  rw [edge?, edge?, stored?_put, if_neg h]

theorem put_put (s : Storage) (key : String) (e e' : Edge) :
    (s.put key e).put key e' = s.put key e' := by
  obtain ⟨engine, disk⟩ := s
  cases engine with
  | memory running persistent edges => simp only [put, OrderedMap.insert_insert]
  | tree running => simp only [put, OrderedMap.insert_insert]

theorem put_comm (h : key ≠ key') (s : Storage) (e e' : Edge) :
    (s.put key e).put key' e' = (s.put key' e').put key e := by
  obtain ⟨engine, disk⟩ := s
  cases engine with
  | memory running persistent edges => simp only [put, OrderedMap.insert_comm _ h]
  | tree running => simp only [put, OrderedMap.insert_comm _ h]

theorem Holds.put (h : s.Holds edges) (key : String) (e : Edge) :
    (s.put key e).Holds (edges.insert key e) := by
  obtain ⟨engine, disk⟩ := s
  cases engine with
  | memory running persistent edges₀ =>
    obtain rfl : edges₀ = edges := h
    rfl
  | tree running =>
    have ht : disk.tree = .ofEdges edges := h
    change OrderedMap.insert disk.tree key e.encode = _
    rw [ht]
    exact (OrderedMap.mapValues_insert Edge.encode edges key e).symm

/-- Bytes that were not cut off are read as the edge that was written, or not at all. -/
theorem Holds.get?_of_stored? (h : s.Holds edges) (hw : s.Whole key)
    (hr : s.stored? key = some (.ok e)) : edges.get? key = some e := by
  obtain ⟨engine, disk⟩ := s
  cases engine with
  | memory running persistent edges₀ =>
    obtain rfl : edges₀ = edges := h
    obtain ⟨e₀, hg, he⟩ := Option.map_eq_some_iff.mp hr
    cases he
    exact hg
  | tree running =>
    have ht : disk.tree = .ofEdges edges := h
    obtain ⟨bytes, hb, hd⟩ := Option.map_eq_some_iff.mp hr
    have hl : bytes.length < 2 ^ 32 := hw bytes hb
    rw [ht, EdgeTree.ofEdges, Ascending.get?_mapValues] at hb
    obtain ⟨e₀, hg, rfl⟩ := Option.map_eq_some_iff.mp hb
    have hlong := Nat.lt_of_le_of_lt e₀.toMessagePack.longest_le_length_bytes hl
    rw [Edge.decode_encode_of_longest hlong] at hd
    split at hd
    · cases hd
      exact hg
    · cases hd

/-- An edge that is put where it stands already changes nothing. -/
theorem Holds.put_stored (h : s.Holds edges) (hw : s.Whole key)
    (hr : s.stored? key = some (.ok e)) : s.put key e = s := by
  have hg := h.get?_of_stored? hw hr
  obtain ⟨engine, disk⟩ := s
  cases engine with
  | memory running persistent edges₀ =>
    obtain rfl : edges₀ = edges := h
    simp only [Storage.put, OrderedMap.insert_get? hg]
  | tree running =>
    have ht : disk.tree = .ofEdges edges := h
    have hb : disk.tree.get? key = some e.encode := by
      rw [ht, EdgeTree.ofEdges, Ascending.get?_mapValues, hg]
      rfl
    simp only [Storage.put, OrderedMap.insert_get? hb]

theorem reread_of_withinLimits (h : s.engine.kind = .tree → e.WithinLimits) :
    s.reread e = .ok e := by
  obtain ⟨engine, disk⟩ := s
  cases engine with
  | memory running persistent edges => rfl
  | tree running => exact Edge.decode_encode (h rfl)

/-- An edge that can be read where it was put is read as it was. -/
theorem Legible.reread (h : (s.put key e).Legible key) : s.reread e = .ok e := by
  obtain ⟨e', he⟩ := h.reads (s.reread e) (by rw [stored?_put, if_pos rfl])
  obtain ⟨engine, disk⟩ := s
  cases engine with
  | memory running persistent edges => rfl
  | tree running =>
    have hl : e.encode.length < 2 ^ 32 :=
      h.whole e.encode ((OrderedMap.get?_insert _ key _ key).trans (if_pos rfl))
    have hlong := Nat.lt_of_le_of_lt e.toMessagePack.longest_le_length_bytes hl
    change Edge.decode e.encode = _ at he
    change Edge.decode e.encode = _
    rw [Edge.decode_encode_of_longest hlong] at he ⊢
    split at he
    · next hn => rw [if_pos hn]
    · cases he

theorem edge?_memory (running persistent : Bool) (edges : Edges) (disk : Disk) (key : String) :
    edge? ⟨.memory running persistent edges, disk⟩ key = .ok (edges.get? key) :=
  edge?_eq_ok.mpr rfl

theorem edge?_tree (running : Bool) (disk : Disk) (key : String) :
    edge? ⟨.tree running, disk⟩ key = disk.tree.edge? key := by
  rw [edge?, stored?, EdgeTree.edge?]
  cases disk.tree.get? key <;> rfl

/-- What stands at the place of a pair is its edge, if there is one. -/
theorem Sound.exists_slot {existing : Option Edge} (h : s.Sound edges)
    (hx : s.edge? p.key = .ok existing) :
    ∃ slot : Option (Option Properties), existing = slot.map p.edge := by
  cases existing with
  | none => exact ⟨none, rfl⟩
  | some e =>
    have he := (h.stored?_keyedBy (edge?_eq_ok.mp hx)).eq_edge
    exact ⟨some e.props, congrArg some he⟩

/-- Nothing is looked at but the place under the key of the filter, and nothing else is written. -/
theorem upsert_eq (hk : f.uniqueIndex = some key) (s : Storage) (u : Update)
    (options : UpsertOptions) :
    let next := do s.requireRunning; resolveUpsert (← s.edge? key) f u options
    s.upsert f u options = (next.map options.answer, s.write key next.toOption.join) := by
  obtain ⟨engine, disk⟩ := s
  have hf := Filter.upsertKey_eq_ok.mpr hk
  cases engine with
  | memory running persistent edges =>
    cases running with
    | false => rfl
    | true =>
      simp only [upsert, hf, edge?_memory, requireRunning, Engine.running, if_true, bind,
        Except.bind, Edges.upsert]
      cases resolveUpsert (edges.get? key) f u options with
      | error fault => rfl
      | ok next => cases next <;> rfl
  | tree running =>
    cases running with
    | false =>
      simp only [upsert, hf]
      rfl
    | true =>
      simp only [upsert, hf, edge?_tree, requireRunning, Engine.running, if_true, bind,
        Except.bind, EdgeTree.upsert]
      cases disk.tree.edge? key with
      | error fault => rfl
      | ok existing =>
        dsimp only
        cases resolveUpsert existing f u options with
        | error fault => rfl
        | ok next => cases next <;> rfl

theorem kind_upsert (hk : f.uniqueIndex = some key) (s : Storage) (u : Update)
    (options : UpsertOptions) : (s.upsert f u options).2.engine.kind = s.engine.kind := by
  rw [upsert_eq hk]
  dsimp only
  cases Except.toOption (do s.requireRunning; resolveUpsert (← s.edge? key) f u options) with
  | none => rfl
  | some next =>
    cases next with
    | none => rfl
    | some e => exact kind_put s key e

theorem whole_of_memory (h : s.engine.kind = .memory) (key : String) : s.Whole key := by
  obtain ⟨engine, disk⟩ := s
  cases engine with
  | memory running persistent edges => trivial
  | tree running => cases h

theorem Holds.whole_empty (h : s.Holds ∅) (key : String) : s.Whole key := by
  obtain ⟨engine, disk⟩ := s
  cases engine with
  | memory running persistent edges => trivial
  | tree running =>
    intro bytes hb
    have ht : disk.tree = ∅ := h
    rw [ht] at hb
    cases hb

theorem Whole.put (hw : s.Whole key') (key : String) (hl : e.encode.length < 2 ^ 32) :
    (s.put key e).Whole key' := by
  obtain ⟨engine, disk⟩ := s
  cases engine with
  | memory running persistent edges => trivial
  | tree running =>
    intro bytes hb
    have hg := OrderedMap.get?_insert disk.tree key e.encode key'
    split at hg
    · cases hg.symm.trans hb
      exact hl
    · exact hw bytes (hg.symm.trans hb)

theorem legible_of_memory (h : s.engine.kind = .memory) (key : String) : s.Legible key := by
  refine ⟨whole_of_memory h key, ?_⟩
  obtain ⟨engine, disk⟩ := s
  cases engine with
  | memory running persistent edges =>
    intro read hr
    obtain ⟨e, -, he⟩ := Option.map_eq_some_iff.mp hr
    exact ⟨e, he.symm⟩
  | tree running => cases h

/-- A search for one key looks at the place under it alone. -/
theorem find_eq (hk : f.uniqueIndex = some key) (s : Storage) (p : Projection) :
    s.find f p = (do
      s.requireRunning
      return ((← s.edge? key).filter f.accepts).toList.map p.apply) := by
  obtain ⟨engine, disk⟩ := s
  cases engine with
  | memory running persistent edges =>
    simp only [find, edge?_memory, Edges.find, hk]
    rfl
  | tree running =>
    simp only [find, edge?_tree, EdgeTree.find, hk]

section Deep
variable {slot : Option (Option Properties)} {n : Nat}

/-- Properties of any depth are taken where there are none. -/
theorem upsert_deep (hr : s.requireRunning = .ok ())
    (hx : s.edge? p.key = .ok (slot.map p.edge)) (hj : slot.join = none)
    (ho : options.upsert = true) (n : Nat) :
    s.upsert p.filter (.deep n) options =
      (.ok (options.answer (some (p.edge (some (.deep n))))),
        s.put p.key (p.edge (some (.deep n)))) := by
  have hn := p.resolve_slot ho slot (.deep n)
  rw [hj, Update.apply_deep] at hn
  have hq := upsert_eq (f := p.filter) rfl s (.deep n) options
  simp only [hr, hx, bind, Except.bind, hn] at hq
  exact hq

theorem stored?_put_deep (hk : s.engine.kind = .tree) (hn : MessagePack.maxDepth < n + 2)
    (p : Pair) : (s.put p.key (p.edge (some (.deep n)))).stored? p.key =
      some (.error (.deserialization none)) := by
  rw [stored?_put, if_pos rfl, reread]
  obtain ⟨engine, disk⟩ := s
  cases engine with
  | memory running persistent edges => cases hk
  | tree running => exact congrArg some (Edge.decode_deep p hn)

end Deep

end Storage

namespace Store

/-- A search that would also change something is not carried out. -/
theorem run_of_find {d : Descriptor} {conditions : Conditions} (s : Store)
    (hf : d.find = some conditions) :
    s.run d = if d.set.isSome || d.remove.isSome then (.error (.request .updateOnSearch), s)
      else ((s.storage.find (d.searchFilter conditions) d.projection).map .many, s) := by
  rw [run, Descriptor.compile, hf]
  dsimp only
  rw [Descriptor.search]
  cases d.set.isSome || d.remove.isSome <;> rfl

theorem run_without_src {d : Descriptor} (s : Store) (hf : d.find = none) (hs : d.src = none) :
    s.run d = (.error (.request (.missingEndpoint .src)), s) := by
  rw [run, Descriptor.compile, hf]
  dsimp only
  rw [Descriptor.single, hs]

theorem run_without_dest {d : Descriptor} {src : NodeId} (s : Store) (hf : d.find = none)
    (hs : d.src = some src) (hd : d.dest = none) :
    s.run d = (.error (.request (.missingEndpoint .dest)), s) := by
  rw [run, Descriptor.compile, hf]
  dsimp only
  rw [Descriptor.single, hs, hd]

/-- A request is an upsert for one pair, or it leaves the storage as it is. -/
theorem storage_run (s : Store) (d : Descriptor) :
    (s.run d).2.storage = s.storage ∨
      ∃ p : Pair, (s.run d).2.storage = (s.storage.upsert p.filter d.update d.writeOptions).2 := by
  cases hf : d.find with
  | some conditions =>
    left
    rw [s.run_of_find hf]
    split <;> rfl
  | none =>
    cases hs : d.src with
    | none => exact .inl (congrArg (·.2.storage) (s.run_without_src hf hs))
    | some src =>
      cases hd : d.dest with
      | none => exact .inl (congrArg (·.2.storage) (s.run_without_dest hf hs hd))
      | some dest => exact .inr ⟨⟨src, dest⟩, congrArg (·.2.storage) (run_single s hs hd hf)⟩

theorem kind_run (s : Store) (d : Descriptor) :
    (s.run d).2.storage.engine.kind = s.storage.engine.kind := by
  rcases s.storage_run d with hs | ⟨p, hs⟩
  · exact congrArg (·.engine.kind) hs
  · exact (congrArg (·.engine.kind) hs).trans (Storage.kind_upsert rfl s.storage _ _)

theorem kind_call (s : Store) (c : StoreCall) :
    (s.call c).2.storage.engine.kind = s.storage.engine.kind := by
  cases c with
  | set a =>
    rw [call, setProperties]
    cases a.descriptor with
    | error fault => rfl
    | ok d => exact s.kind_run d
  | remove sel => exact s.kind_run sel.remove
  | get sel => exact s.kind_run _
  | find q =>
    rw [call, findEdges]
    cases q.descriptor? with
    | none => rfl
    | some d => exact s.kind_run d

theorem kind_calls (s : Store) (calls : List StoreCall) :
    (runCalls call s calls).2.storage.engine.kind = s.storage.engine.kind := by
  induction calls generalizing s with
  | nil => rfl
  | cons c cs ih => exact (ih _).trans (s.kind_call c)

end Store
end PropertyGraph
