import PropertyGraph.Condition

/-! Conditions as JSON documents in which each part carries its name. -/
namespace PropertyGraph

namespace Operator

def ofDocument? : Json → Option Operator
  | .obj members =>
    match members.toList with
    | [("Eq", j)] => some (.eq (.ofJson j))
    | [("Ne", j)] => some (.ne (.ofJson j))
    | [("Gt", j)] => some (.gt (.ofJson j))
    | [("Gte", j)] => some (.gte (.ofJson j))
    | [("Lt", j)] => some (.lt (.ofJson j))
    | [("Lte", j)] => some (.lte (.ofJson j))
    | [("In", .arr items)] => some (.isIn (Value.ofJsonItems items))
    | [("Nin", .arr items)] => some (.notIn (Value.ofJsonItems items))
    | [("Exists", .bool flag)] => some (.present flag)
    | _ => none
  | _ => none

def toDocument (op : Operator) : Json :=
  let tagged (name : String) (j : Json) := Json.obj (OrderedMap.ofList [(name, j)])
  match op with
  | .eq v => tagged "Eq" v.toJson
  | .ne v => tagged "Ne" v.toJson
  | .gt v => tagged "Gt" v.toJson
  | .gte v => tagged "Gte" v.toJson
  | .lt v => tagged "Lt" v.toJson
  | .lte v => tagged "Lte" v.toJson
  | .isIn vs => tagged "In" (.arr (Value.toJsonItems vs))
  | .notIn vs => tagged "Nin" (.arr (Value.toJsonItems vs))
  | .present flag => tagged "Exists" (.bool flag)

end Operator

namespace Condition

def ofDocument? : Json → Option Condition
  | .obj members =>
    match members.toList with
    | [("Value", j)] => some (.value (.ofJson j))
    | [("Ops", .arr items)] => .ops <$> items.mapM Operator.ofDocument?
    | _ => none
  | _ => none

def toDocument : Condition → Json
  | .value v => .obj (OrderedMap.ofList [("Value", v.toJson)])
  | .ops operators => .obj (OrderedMap.ofList [("Ops", .arr (operators.map (·.toDocument)))])

end Condition

end PropertyGraph
