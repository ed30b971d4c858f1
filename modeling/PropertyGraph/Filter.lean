import PropertyGraph.Condition
import PropertyGraph.Edge

/-! Predicates over stored edges. -/
namespace PropertyGraph

/-- Every condition given must hold; the property conditions keep their order and may repeat a
name. -/
structure Filter where
  src : Option NodeId := none
  dest : Option NodeId := none
  uniqueIndex : Option String := none
  props : List (PropertyName × Condition) := []
  deriving DecidableEq

/-- The value a condition is about; an edge without properties has none. -/
def Edge.property? (e : Edge) (name : PropertyName) : Option Value := e.props.bind (·.read name)

def Filter.accepts (f : Filter) (e : Edge) : Bool :=
  f.src.all (· == e.src) && f.dest.all (· == e.dest) && f.uniqueIndex.all (· == e.uniqueIndex)
    && f.props.all fun (name, condition) => condition.holds (e.property? name)

end PropertyGraph
