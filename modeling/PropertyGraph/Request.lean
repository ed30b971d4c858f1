import PropertyGraph.Condition
import PropertyGraph.Edge
import PropertyGraph.Selector

/-! What callers ask for, and the one form all requests are brought to. -/
namespace PropertyGraph

/-- A request in its common form. A search has `find`; without it one edge is addressed. -/
structure Descriptor where
  src : Option NodeId := none
  dest : Option NodeId := none
  find : Option Conditions := none
  get : Option Selector := none
  set : Option (OrderedMap PropertyName Value) := none
  remove : Option Selector := none
  deriving DecidableEq

/-- Properties to set on one edge. -/
structure Assignment where
  src : NodeId
  dest : NodeId
  props : Properties

/-- Properties of one edge; all of them if none are named. -/
structure Selection where
  src : NodeId
  dest : NodeId
  props : Option Selector := none

/-- A search for edges. -/
structure Query where
  src : Option NodeId := none
  dest : Option NodeId := none
  props : Option Selector := none
  find : Option Conditions := none

namespace Assignment

/-- Names and values one by one; a name is looked at before its value. -/
def named : List (String × Value) → Except RequestError (List (PropertyName × Value))
  | [] => .ok []
  | (key, v) :: rest => do
    let name ← PropertyName.ofText key
    v.checkKeys
    return (name, v) :: (← named rest)

/-- Refuses keys that no path could name, so all that is stored can be addressed. -/
def descriptor (a : Assignment) : Except RequestError Descriptor := do
  let set ← named a.props.toList
  return { src := some a.src, dest := some a.dest, set := some (.ofList set) }

end Assignment

namespace Selection

/-- A read that makes the edge if it is not there. -/
def get (s : Selection) : Descriptor :=
  { src := some s.src, dest := some s.dest, get := some (s.props.getD .all) }

/-- A read as a search for the one pair, which makes nothing. -/
def peek (s : Selection) : Descriptor := { s.get with find := some ∅ }

def remove (s : Selection) : Descriptor :=
  { src := some s.src, dest := some s.dest, remove := some (s.props.getD .all) }

end Selection

namespace Query

/-- A query that asks for something in particular. -/
def isPlausible (q : Query) : Bool := q.src.isSome || q.dest.isSome || q.find.isSome

def descriptor? (q : Query) : Option Descriptor :=
  if q.isPlausible then
    some {
      src := q.src
      dest := q.dest
      find := some (q.find.getD ∅)
      get := some (q.props.getD .all) }
  else none

end Query

end PropertyGraph
