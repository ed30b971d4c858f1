import PropertyGraph.Edge.Bytes
import PropertyGraph.Upsert

/-! Edges as bytes, by the key they are stored under; every read decodes them anew. -/
namespace PropertyGraph

abbrev EdgeTree := OrderedMap String (List UInt8)

namespace EdgeTree
variable (tree : EdgeTree)

def edge? (key : String) : Except StoreError (Option Edge) :=
  match tree.get? key with
  | none => .ok none
  | some bytes => some <$> Edge.decode bytes

/-- The edges that a filter accepts, in the order of their keys. -/
def accepted (f : Filter) : Except StoreError (List Edge) := do
  return (← tree.values.mapM Edge.decode).filter f.accepts

/-- A filter with a key is about the edge under that key alone. -/
def find (f : Filter) (p : Projection) : Except StoreError (List ProjectedEdge) := do
  match f.uniqueIndex with
  | some key => return ((← tree.edge? key).filter f.accepts).toList.map p.apply
  | none => return (← tree.accepted f).map p.apply

def count (f : Filter) : Except StoreError Nat := do
  return (← tree.accepted f).length

/-- The answer to an upsert under a key, and the tree after it. -/
def upsert (key : String) (f : Filter) (u : Update) (options : UpsertOptions) :
    Except StoreError (Option ProjectedEdge × EdgeTree) := do
  match ← resolveUpsert (← tree.edge? key) f u options with
  | none => return (none, tree)
  | some e =>
    return (if options.returnDocument then some (options.projection.apply e) else none,
      tree.insert key e.encode)

end EdgeTree

end PropertyGraph
