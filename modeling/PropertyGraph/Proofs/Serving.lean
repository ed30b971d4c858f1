import PropertyGraph.Storage
import PropertyGraph.Proofs.EdgeTree

/-! A running engine of either kind answers as the edges that it holds. -/
namespace PropertyGraph

/-- The calls that work on edges. -/
inductive DataCall
  | upsert (f : Filter) (u : Update) (options : UpsertOptions)
  | find (f : Filter) (p : Projection)
  | count (f : Filter)

inductive DataAnswer
  | upserted (answer : Except StoreError (Option ProjectedEdge))
  | found (answer : Except StoreError (List ProjectedEdge))
  | counted (answer : Except StoreError Nat)

/-- An upsert looks under the key of its filter; after a fault the edges are as before. -/
def Edges.data (edges : Edges) : DataCall → DataAnswer × Edges
  | .upsert f u options =>
    match (do edges.upsert (← f.upsertKey) f u options) with
    | .ok (answer, edges') => (.upserted (.ok answer), edges')
    | .error fault => (.upserted (.error fault), edges)
  | .find f p => (.found (.ok (edges.find f p)), edges)
  | .count f => (.counted (.ok (edges.count f)), edges)

namespace Storage

variable {s : Storage} {kind : EngineKind} {edges : Edges}

def data (s : Storage) : DataCall → DataAnswer × Storage
  | .upsert f u options =>
    let (answer, s') := s.upsert f u options
    (.upserted answer, s')
  | .find f p => (.found (s.find f p), s)
  | .count f => (.counted (s.count f), s)

theorem requireRunning_eq_ok : s.requireRunning = .ok () ↔ s.engine.running = true := by
  rw [requireRunning]
  split <;> simp_all

/-- The edges of an engine; those of the tree stand on the disk as bytes. -/
def Holds (s : Storage) (edges : Edges) : Prop :=
  match s.engine with
  | .memory _ _ edges' => edges' = edges
  | .tree _ => s.disk.tree = .ofEdges edges

/-- What is read under a key, if something stands there. -/
def stored? (s : Storage) (key : String) : Option (Except StoreError Edge) :=
  match s.engine with
  | .memory _ _ edges => (edges.get? key).map .ok
  | .tree _ => (s.disk.tree.get? key).map Edge.decode

/-- A running engine of a kind, and the edges that it holds. -/
structure Serves (s : Storage) (kind : EngineKind) (edges : Edges) : Prop where
  kind_eq : s.engine.kind = kind
  running : s.engine.running = true
  holds : s.Holds edges

theorem Serves.memory_iff : s.Serves .memory edges ↔
    ∃ persistent, s.engine = .memory true persistent edges := by
  obtain ⟨engine, disk⟩ := s
  constructor
  · rintro ⟨hk, hr, hh⟩
    cases engine with
    | memory running persistent edges' => exact ⟨persistent, by simp_all [Engine.running, Holds]⟩
    | tree running => simp [Engine.kind] at hk
  · rintro ⟨persistent, rfl⟩
    exact ⟨rfl, rfl, rfl⟩

theorem Serves.tree_iff : s.Serves .tree edges ↔
    s.engine = .tree true ∧ s.disk.tree = .ofEdges edges := by
  obtain ⟨engine, disk⟩ := s
  constructor
  · rintro ⟨hk, hr, hh⟩
    cases engine with
    | memory running persistent edges' => simp [Engine.kind] at hk
    | tree running => exact ⟨by simpa [Engine.running] using hr, hh⟩
  · rintro ⟨rfl, ht⟩
    exact ⟨rfl, rfl, ht⟩

theorem Serves.memory_stored? (h : s.Serves .memory edges) (key : String) :
    s.stored? key = (edges.get? key).map .ok := by
  obtain ⟨engine, disk⟩ := s
  obtain ⟨persistent, rfl⟩ := Serves.memory_iff.mp h
  rfl

theorem Serves.tree_stored? (h : s.Serves .tree edges) (hl : edges.WithinLimits) (key : String) :
    s.stored? key = (edges.get? key).map .ok := by
  obtain ⟨engine, disk⟩ := s
  obtain ⟨rfl, ht⟩ := Serves.tree_iff.mp h
  dsimp only at ht
  rw [Storage.stored?, ht]
  exact EdgeTree.reads_iff.mp (EdgeTree.reads_ofEdges hl) key

theorem Serves.stored? (h : s.Serves kind edges) (hl : kind = .tree → edges.WithinLimits)
    (key : String) : s.stored? key = (edges.get? key).map .ok := by
  cases kind with
  | memory => exact h.memory_stored? key
  | tree => exact h.tree_stored? (hl rfl) key

/-- A tree reads the bytes of an edge and nothing else. -/
theorem Serves.stored?_of_get? {key : String} {e : Edge} (h : s.Serves .tree edges)
    (hg : edges.get? key = some e) : s.stored? key = some (Edge.decode e.encode) := by
  obtain ⟨engine, disk⟩ := s
  obtain ⟨rfl, ht⟩ := Serves.tree_iff.mp h
  dsimp only at ht
  rw [Storage.stored?, ht, EdgeTree.ofEdges, Ascending.get?_mapValues, hg]
  rfl

/-- In memory a call works on the edges and on nothing else. -/
theorem data_memory (persistent : Bool) (edges : Edges) (disk : Disk) (c : DataCall) :
    data ⟨.memory true persistent edges, disk⟩ c =
      ((edges.data c).1, ⟨.memory true persistent (edges.data c).2, disk⟩) := by
  cases c with
  | find f p => rfl
  | count f => rfl
  | upsert f u options =>
    have hr : (do
        requireRunning ⟨.memory true persistent edges, disk⟩
        edges.upsert (← f.upsertKey) f u options) =
      (do edges.upsert (← f.upsertKey) f u options) := rfl
    simp only [data, upsert, Edges.data, hr]
    cases (do edges.upsert (← f.upsertKey) f u options) <;> rfl

/-- Nothing is encoded in memory, so this needs no limits. -/
theorem Serves.memory_data (h : s.Serves .memory edges) (c : DataCall) :
    (s.data c).1 = (edges.data c).1 ∧ (s.data c).2.Serves .memory (edges.data c).2 := by
  obtain ⟨engine, disk⟩ := s
  obtain ⟨persistent, rfl⟩ := Serves.memory_iff.mp h
  rw [data_memory]
  exact ⟨rfl, Serves.memory_iff.mpr ⟨persistent, rfl⟩⟩

/-- Every call decodes what it needs, so the bytes answer as the edges they were written from. -/
theorem Serves.tree_data (h : s.Serves .tree edges) (hl : edges.WithinLimits) (c : DataCall) :
    (s.data c).1 = (edges.data c).1 ∧ (s.data c).2.Serves .tree (edges.data c).2 := by
  obtain ⟨engine, disk⟩ := s
  obtain ⟨rfl, ht⟩ := Serves.tree_iff.mp h
  dsimp only at ht
  cases c with
  | find f p =>
    have hf : find ⟨.tree true, disk⟩ f p = .ok (edges.find f p) := by
      rw [← (EdgeTree.reads_ofEdges hl).find, ← ht]
      rfl
    exact ⟨congrArg DataAnswer.found hf, h⟩
  | count f =>
    have hc : count ⟨.tree true, disk⟩ f = .ok (edges.count f) := by
      rw [← (EdgeTree.reads_ofEdges hl).count, ← ht]
      rfl
    exact ⟨congrArg DataAnswer.counted hc, h⟩
  | upsert f u options =>
    have hr : (do
        let key ← f.upsertKey
        requireRunning ⟨.tree true, disk⟩
        disk.tree.upsert key f u options) =
      (do edges.upsert (← f.upsertKey) f u options).map
        fun (next : Option ProjectedEdge × Edges) => (next.1, EdgeTree.ofEdges next.2) := by
      rw [ht]
      cases f.upsertKey with
      | error fault => rfl
      | ok key => exact EdgeTree.upsert_ofEdges hl key f u options
    cases hu : (do edges.upsert (← f.upsertKey) f u options) with
    | error fault =>
      rw [hu, Except.map] at hr
      simp only [data, upsert, Edges.data, hr, hu]
      exact ⟨trivial, h⟩
    | ok next =>
      rw [hu, Except.map] at hr
      simp only [data, upsert, Edges.data, hr, hu]
      exact ⟨trivial, Serves.tree_iff.mpr ⟨rfl, rfl⟩⟩

theorem Serves.data (h : s.Serves kind edges) (hl : kind = .tree → edges.WithinLimits)
    (c : DataCall) :
    (s.data c).1 = (edges.data c).1 ∧ (s.data c).2.Serves kind (edges.data c).2 := by
  cases kind with
  | memory => exact h.memory_data c
  | tree => exact h.tree_data (hl rfl) c

theorem Serves.find (h : s.Serves kind edges) (hl : kind = .tree → edges.WithinLimits) (f : Filter)
    (p : Projection) : s.find f p = .ok (edges.find f p) :=
  DataAnswer.found.inj (h.data hl (.find f p)).1

section Upsert
variable {f : Filter} {u : Update} {options : UpsertOptions} {key : String}

theorem Serves.upsert_ok {answer : Option ProjectedEdge} {edges' : Edges}
    (h : s.Serves kind edges) (hl : kind = .tree → edges.WithinLimits)
    (hf : f.uniqueIndex = some key)
    (hu : edges.upsert key f u options = .ok (answer, edges')) :
    (s.upsert f u options).1 = .ok answer ∧ (s.upsert f u options).2.Serves kind edges' := by
  obtain ⟨ha, hs⟩ := h.data hl (.upsert f u options)
  simp only [Edges.data, Filter.upsertKey, hf, bind, Except.bind, hu] at ha hs
  exact ⟨DataAnswer.upserted.inj ha, hs⟩

/-- A rejected upsert leaves the edges as they are. -/
theorem Serves.upsert_error {fault : StoreError} (h : s.Serves kind edges)
    (hl : kind = .tree → edges.WithinLimits) (hf : f.uniqueIndex = some key)
    (hu : edges.upsert key f u options = .error fault) :
    (s.upsert f u options).1 = .error fault ∧ (s.upsert f u options).2.Serves kind edges := by
  obtain ⟨ha, hs⟩ := h.data hl (.upsert f u options)
  simp only [Edges.data, Filter.upsertKey, hf, bind, Except.bind, hu] at ha hs
  exact ⟨DataAnswer.upserted.inj ha, hs⟩

/-- What cannot be read is neither shown nor written. -/
theorem upsert_of_unread {fault : StoreError} (hr : s.engine.running = true)
    (hf : f.uniqueIndex = some key) (hs : s.stored? key = some (.error fault)) (u : Update)
    (options : UpsertOptions) : s.upsert f u options = (.error fault, s) := by
  obtain ⟨engine, disk⟩ := s
  cases engine with
  | memory running persistent edges =>
    obtain ⟨e, -, he⟩ := Option.map_eq_some_iff.mp hs
    cases he
  | tree running =>
    obtain rfl : running = true := hr
    obtain ⟨bytes, hb, hd⟩ := Option.map_eq_some_iff.mp hs
    have hu : (do
        let key ← f.upsertKey
        requireRunning ⟨.tree true, disk⟩
        disk.tree.upsert key f u options) = .error fault := by
      rw [Filter.upsertKey, hf]
      change disk.tree.upsert key f u options = .error fault
      rw [EdgeTree.upsert, EdgeTree.edge?, hb]
      change ((some <$> Edge.decode bytes) >>= _) = _
      rw [hd]
      rfl
    simp only [upsert, hu]

end Upsert

end Storage
end PropertyGraph
