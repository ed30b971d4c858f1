import PropertyGraph.Upsert

/-! Edges in memory, by the key they are stored under. -/
namespace PropertyGraph

abbrev Edges := OrderedMap String Edge

namespace Edges
variable (edges : Edges)

/-- A filter with a key is about the edge under that key alone. -/
def find (f : Filter) (p : Projection) : List ProjectedEdge :=
  match f.uniqueIndex with
  | some key => ((edges.get? key).filter f.accepts).toList.map p.apply
  | none => (edges.values.filter f.accepts).map p.apply

def count (f : Filter) : Nat := (edges.values.filter f.accepts).length

/-- The answer to an upsert under a key, and the edges after it. -/
def upsert (key : String) (f : Filter) (u : Update) (options : UpsertOptions) :
    Except StoreError (Option ProjectedEdge × Edges) := do
  match ← resolveUpsert (edges.get? key) f u options with
  | none => return (none, edges)
  | some e =>
    return (if options.returnDocument then some (options.projection.apply e) else none,
      edges.insert key e)

end Edges

end PropertyGraph
