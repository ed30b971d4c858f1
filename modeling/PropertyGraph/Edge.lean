import PropertyGraph.NodeId
import PropertyGraph.Value

/-! Edges as they are stored and as callers see them. -/
namespace PropertyGraph

/-- The key of the directed pair `src → dest`; a pair has one edge at most. -/
def pairKey (src dest : NodeId) : String := src.text ++ ":" ++ dest.text

structure Edge where
  src : NodeId
  dest : NodeId
  /-- The pair's key, except in edges read from bytes or JSON, which bring their own. -/
  uniqueIndex : String
  /-- None until a property is set, and again once all are cleared. -/
  props : Option Properties
  deriving DecidableEq

def Edge.new (src dest : NodeId) : Edge := ⟨src, dest, pairKey src dest, none⟩

/-- What a caller sees of an edge: its endpoints and the part of its properties asked for. -/
structure ProjectedEdge where
  src : NodeId
  dest : NodeId
  props : Option Properties
  deriving DecidableEq

def ProjectedEdge.propsOrEmpty (e : ProjectedEdge) : Properties := e.props.getD ∅

end PropertyGraph
