import PropertyGraph.Properties

/-! Values set and removed step by step along a path, in the map itself. What a walk leaves behind
is part of its answer, also where it fails. -/
namespace PropertyGraph.Properties

/-- An empty map is put under a key that is missing. -/
def fill (m : Properties) (k : String) : Properties :=
  if m.contains k then m else m.insert k (.map ∅)

/-- Maps are made on the way before it is known whether the end can be reached, and what has been
made is not taken back. -/
def setAlong (m : Properties) (name : PropertyName) (v : Value) :
    List String → Except RequestError Unit × Properties
  | [] => (.error (.name name.text), m)
  | [k] => (.ok (), m.insert k v)
  | k :: k' :: ks =>
    match (m.fill k).get? k with
    | some (.map inner) =>
      let (answer, inner') := setAlong inner name v (k' :: ks)
      (answer, (m.fill k).insert k (.map inner'))
    | _ => (.error (.pathConflict name.text), m.fill k)

/-- Tells whether there was something to remove. -/
def removeAlong (m : Properties) : List String → Bool × Properties
  | [] => (false, m)
  | [k] => (m.contains k, m.erase k)
  | k :: k' :: ks =>
    match m.get? k with
    | some (.map inner) =>
      let (found, inner') := removeAlong inner (k' :: ks)
      (found, m.insert k (.map inner'))
    | _ => (false, m)

def set (m : Properties) (name : PropertyName) (v : Value) :
    Except RequestError Unit × Properties := m.setAlong name v name.segments

def remove (m : Properties) (name : PropertyName) : Bool × Properties :=
  m.removeAlong name.segments

end PropertyGraph.Properties
