import PropertyGraph.Edge
import PropertyGraph.Properties

/-! Changes to the properties of one edge. -/
namespace PropertyGraph

inductive Clear
  | nothing
  | all
  | paths (names : OrderedSet PropertyName)
  deriving DecidableEq

structure Update where
  assign : OrderedMap PropertyName Value := ∅
  clear : Clear := .nothing
  deriving DecidableEq

namespace Update

def isEmpty (u : Update) : Bool := u.assign.isEmpty && u.clear == .nothing

/-- Writes values in turn and stops at the first conflict; what was written until then stays. -/
def assignAll (m : Properties) :
    List (PropertyName × Value) → Except RequestError Unit × Properties
  | [] => (.ok (), m)
  | (name, v) :: rest =>
    match m.write name v with
    | .ok m' => assignAll m' rest
    | .error fault => (.error fault, m)

/-- The values assigned, in the order of their names. Properties come into being only if there is
something to assign. -/
def assigned (u : Update) (e : Edge) : Except RequestError Unit × Edge :=
  if u.assign.isEmpty then (.ok (), e)
  else
    let (answer, m) := assignAll (e.props.getD ∅) u.assign.toList
    (answer, { e with props := some m })

def cleared (u : Update) (e : Edge) : Edge :=
  match u.clear with
  | .nothing => e
  | .all => { e with props := none }
  | .paths names => { e with props := e.props.map fun m => names.keys.foldl Properties.unset m }

/-- Assigns first and clears after. Beside the answer stands the edge as it is then, after a
conflict with the assignments before it done. -/
def apply (u : Update) (e : Edge) : Except RequestError Unit × Edge :=
  match u.assigned e with
  | (.ok (), e') => (.ok (), u.cleared e')
  | (.error fault, e') => (.error fault, e')

end Update

end PropertyGraph
