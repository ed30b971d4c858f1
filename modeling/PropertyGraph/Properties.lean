import PropertyGraph.PropertyName
import PropertyGraph.Value

/-! Reading and writing values at paths. A path descends through maps only, never into arrays. -/
namespace PropertyGraph

/-- The value reached from `v` along the given keys. -/
def Value.at? (v : Value) : List String → Option Value
  | [] => some v
  | k :: ks =>
    match v with
    | .map fields => (fields.get? k).bind (·.at? ks)
    | _ => none

namespace Properties

/-- The value at a path of one or more keys. -/
def at? (m : Properties) : List String → Option Value
  | [] => none
  | k :: ks => (m.get? k).bind (·.at? ks)

/-- Missing maps on the way are created. Nothing is written if another value stands where a map
is needed. -/
def setAt? (m : Properties) (v : Value) : List String → Option Properties
  | [] => none
  | [k] => some (m.insert k v)
  | k :: k' :: ks =>
    match (m.get? k).getD (.map ∅) with
    | .map inner => (setAt? inner v (k' :: ks)).map fun inner' => m.insert k (.map inner')
    | _ => none

/-- The map without the value at a path, if there is one. Maps on the way stay, also empty ones. -/
def unsetAt? (m : Properties) : List String → Option Properties
  | [] => none
  | [k] => if m.contains k then some (m.erase k) else none
  | k :: k' :: ks =>
    match m.get? k with
    | some (.map inner) => (unsetAt? inner (k' :: ks)).map fun inner' => m.insert k (.map inner')
    | _ => none

def read (m : Properties) (name : PropertyName) : Option Value := m.at? name.segments

def write (m : Properties) (name : PropertyName) (v : Value) : Except RequestError Properties :=
  match m.setAt? v name.segments with
  | some m' => .ok m'
  | none => .error (.pathConflict name.text)

/-- A name without a value is passed over. -/
def unset (m : Properties) (name : PropertyName) : Properties :=
  (m.unsetAt? name.segments).getD m

end Properties

namespace Value

mutual

/-- Finds the first key inside a value that no path could name. A key is looked at before its
value. -/
def checkKeys : Value → Except RequestError Unit
  | .arr items => checkItems items
  | .map fields => checkFields fields
  | _ => .ok ()

def checkItems : List Value → Except RequestError Unit
  | [] => .ok ()
  | v :: vs => do
    v.checkKeys
    checkItems vs

def checkFields {lo : Option String} : Ascending String Value lo → Except RequestError Unit
  | .nil => .ok ()
  | .cons k v _ rest => do
    if ¬ IsSegment k then throw (.name k)
    v.checkKeys
    checkFields rest

end

end Value

end PropertyGraph
