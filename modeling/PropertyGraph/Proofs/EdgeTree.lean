import PropertyGraph.Edges
import PropertyGraph.EdgeTree
import PropertyGraph.Proofs.Edge.RoundTrip
import PropertyGraph.Proofs.Run

/-! A tree that holds the bytes of edges within the limits answers as the edges themselves do. -/
namespace PropertyGraph

variable {edges : Edges}

/-- Every edge held can be read again from its bytes. -/
def Edges.WithinLimits (edges : Edges) : Prop := ∀ e ∈ edges.values, e.WithinLimits

instance (edges : Edges) : Decidable edges.WithinLimits :=
  inferInstanceAs (Decidable (∀ e ∈ edges.values, e.WithinLimits))

namespace EdgeTree

/-- The bytes of edges, under the keys of the edges. -/
def ofEdges (edges : Edges) : EdgeTree := edges.mapValues Edge.encode

/-- The edges that are read from the bytes, each under the key of its bytes. -/
def Reads (tree : EdgeTree) (edges : Edges) : Prop :=
  tree.mapValues Edge.decode = edges.mapValues .ok

theorem reads_iff {tree : EdgeTree} : tree.Reads edges ↔
    ∀ key, (tree.get? key).map Edge.decode = (edges.get? key).map .ok := by
  constructor
  · intro h key
    rw [← Ascending.get?_mapValues, ← Ascending.get?_mapValues]
    exact congrArg (·.get? key) h
  · intro h
    apply Ascending.ext_get?
    intro key
    rw [Ascending.get?_mapValues, Ascending.get?_mapValues, h key]

theorem reads_ofEdges (h : edges.WithinLimits) : (ofEdges edges).Reads edges := by
  rw [reads_iff]
  intro key
  rw [ofEdges, Ascending.get?_mapValues, Option.map_map]
  apply Option.map_congr
  intro e he
  exact Edge.decode_encode (h e (Ascending.mem_values_of_get? he))

section Reads
variable {tree : EdgeTree}

theorem Reads.edge? (h : tree.Reads edges) (key : String) :
    tree.edge? key = .ok (edges.get? key) := by
  have hk := reads_iff.mp h key
  rw [EdgeTree.edge?]
  cases ht : tree.get? key with
  | none =>
    rw [ht, Option.map_none, eq_comm, Option.map_eq_none_iff] at hk
    rw [hk]
  | some bytes =>
    rw [ht, Option.map_some, eq_comm, Option.map_eq_some_iff] at hk
    obtain ⟨e, he, hd⟩ := hk
    dsimp only
    rw [he, ← hd]
    rfl

/-- A scan that decodes every edge meets no fault. -/
theorem Reads.accepted (h : tree.Reads edges) (f : Filter) :
    tree.accepted f = .ok (edges.values.filter f.accepts) := by
  have hv := congrArg Ascending.values h
  rw [Ascending.values_mapValues, Ascending.values_mapValues] at hv
  rw [EdgeTree.accepted, mapM_eq_ok.mpr hv]
  rfl

theorem Reads.find (h : tree.Reads edges) (f : Filter) (p : Projection) :
    tree.find f p = .ok (edges.find f p) := by
  rw [EdgeTree.find, Edges.find]
  cases f.uniqueIndex with
  | none =>
    dsimp only
    rw [h.accepted]
    rfl
  | some key =>
    dsimp only
    rw [h.edge?]
    rfl

theorem Reads.count (h : tree.Reads edges) (f : Filter) :
    tree.count f = .ok (edges.count f) := by
  rw [EdgeTree.count, h.accepted]
  rfl

end Reads

theorem upsert_ofEdges (h : edges.WithinLimits) (key : String) (f : Filter) (u : Update)
    (options : UpsertOptions) :
    (ofEdges edges).upsert key f u options =
      (edges.upsert key f u options).map fun next => (next.1, ofEdges next.2) := by
  rw [upsert, Edges.upsert, (reads_ofEdges h).edge?]
  simp only [bind, Except.bind]
  cases resolveUpsert (edges.get? key) f u options with
  | error fault => rfl
  | ok next =>
    cases next with
    | none => rfl
    | some e => simp [Except.map, pure, Except.pure, ofEdges, OrderedMap.mapValues_insert]

end EdgeTree
end PropertyGraph
