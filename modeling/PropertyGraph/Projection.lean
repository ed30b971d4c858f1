import PropertyGraph.Edge
import PropertyGraph.Properties

/-! Which part of an edge's properties a result carries. -/
namespace PropertyGraph

inductive Projection
  | identity
  | all
  | props (names : OrderedSet PropertyName)
  deriving DecidableEq

/-- The named values alone, each at its own path. Names come in order, so a value is copied before
what lies inside it. -/
def Properties.restrict (stored : Properties) (names : OrderedSet PropertyName) : Properties :=
  names.keys.foldl (fun selected name =>
    match stored.read name with
    | some v => (selected.setAt? v name.segments).getD selected
    | none => selected) ∅

def Projection.apply (p : Projection) (e : Edge) : ProjectedEdge where
  src := e.src
  dest := e.dest
  props := match p with
    | .identity => none
    | .all => e.props
    | .props names => e.props.map (·.restrict names)

end PropertyGraph
