import PropertyGraph.Edge

/-! Node identifiers and edges as JSON documents. -/
namespace PropertyGraph

namespace NodeId

def ofDocument? : Json → Option NodeId
  | .str text => ofText? text
  | _ => none

end NodeId

def Properties.ofDocument? : Json → Option (Option Properties)
  | .null => some none
  | .obj members => some (some (Value.ofJsonFields members))
  | _ => none

/-- The entry for properties, left out where there are none. -/
def Properties.entry (props : Option Properties) : List (String × Json) :=
  (props.map fun m => ("props", Json.obj (Value.toJsonFields m))).toList

namespace Edge

def ofMembers? (src dest uniqueIndex props : Json) : Option Edge := do
  let src ← NodeId.ofDocument? src
  let dest ← NodeId.ofDocument? dest
  let .str uniqueIndex := uniqueIndex | none
  let props ← Properties.ofDocument? props
  some { src, dest, uniqueIndex, props }

/-- An edge is an object, in which other fields are passed over, or a list of its fields. -/
def ofDocument? : Json → Option Edge
  | .obj members => do
    ofMembers? (← members.get? "src") (← members.get? "dest") (← members.get? "uniqueIndex")
      ((members.get? "props").getD .null)
  | .arr [src, dest, uniqueIndex] => ofMembers? src dest uniqueIndex .null
  | .arr [src, dest, uniqueIndex, props] => ofMembers? src dest uniqueIndex props
  | _ => none

def toDocument (e : Edge) : Json :=
  .obj (OrderedMap.ofList ([("src", .str e.src.text), ("dest", .str e.dest.text),
    ("uniqueIndex", .str e.uniqueIndex)] ++ Properties.entry e.props))

end Edge

namespace ProjectedEdge

def ofMembers? (src dest props : Json) : Option ProjectedEdge := do
  let src ← NodeId.ofDocument? src
  let dest ← NodeId.ofDocument? dest
  let props ← Properties.ofDocument? props
  some { src, dest, props }

def ofDocument? : Json → Option ProjectedEdge
  | .obj members => do
    ofMembers? (← members.get? "src") (← members.get? "dest") ((members.get? "props").getD .null)
  | .arr [src, dest] => ofMembers? src dest .null
  | .arr [src, dest, props] => ofMembers? src dest props
  | _ => none

def toDocument (e : ProjectedEdge) : Json :=
  .obj (OrderedMap.ofList ([("src", .str e.src.text), ("dest", .str e.dest.text)]
    ++ Properties.entry e.props))

end ProjectedEdge

end PropertyGraph
