import PropertyGraph.Properties

/-! Conditions on one property: how they are read from JSON and when they hold. -/
namespace PropertyGraph

inductive Operator
  | eq (operand : Value)
  | ne (operand : Value)
  | gt (bound : Value)
  | gte (bound : Value)
  | lt (bound : Value)
  | lte (bound : Value)
  | isIn (candidates : List Value)
  | notIn (candidates : List Value)
  | present (flag : Bool)
  deriving DecidableEq

/-- A bare value asks for equality; of several operators all must hold. -/
inductive Condition
  | value (expected : Value)
  | ops (operators : List Operator)
  deriving DecidableEq

/-- A missing property equals null alone. An array equals what the array as a whole or one of its
items equals. -/
def Operator.equals : Option Value → Value → Bool
  | none, expected => expected == .null
  | some (.arr items), expected =>
    (Value.arr items).looselyEquals expected || items.any (·.looselyEquals expected)
  | some actual, expected => actual.looselyEquals expected

/-- A missing property has no order. An array is in order if one of its items is. -/
def Operator.ordered (accept : Ordering → Bool) : Option Value → Value → Bool
  | none, _ => false
  | some (.arr items), bound => items.any fun item => (item.compare? bound).any accept
  | some actual, bound => (actual.compare? bound).any accept

def Operator.holds (field : Option Value) : Operator → Bool
  | eq operand => equals field operand
  | ne operand => !equals field operand
  | gt bound => ordered (· == .gt) field bound
  | gte bound => ordered (· != .lt) field bound
  | lt bound => ordered (· == .lt) field bound
  | lte bound => ordered (· != .gt) field bound
  | isIn candidates => candidates.any (equals field)
  | notIn candidates => !candidates.any (equals field)
  | present flag => field.isSome == flag

def Condition.holds (field : Option Value) : Condition → Bool
  | value expected => Operator.equals field expected
  | ops operators => operators.all (·.holds field)

/-- Keys that start with a dollar sign name operators. -/
def IsKeyword (key : String) : Prop := key.toList.head? = some '$'

instance (key : String) : Decidable (IsKeyword key) := inferInstanceAs (Decidable (_ = _))

def Operator.ofJson (keyword : String) (operand : Json) : Except RequestError Operator :=
  let candidates : Except RequestError (List Value) :=
    match operand with
    | .arr items => .ok (Value.ofJsonItems items)
    | _ => .error (.condition s!"{keyword} expects an array")
  match keyword with
  | "$eq" => .ok (.eq (.ofJson operand))
  | "$ne" => .ok (.ne (.ofJson operand))
  | "$gt" => .ok (.gt (.ofJson operand))
  | "$gte" => .ok (.gte (.ofJson operand))
  | "$lt" => .ok (.lt (.ofJson operand))
  | "$lte" => .ok (.lte (.ofJson operand))
  | "$in" => candidates.map .isIn
  | "$nin" => candidates.map .notIn
  | "$exists" =>
    match operand with
    | .bool flag => .ok (.present flag)
    | _ => .error (.condition "$exists expects a boolean")
  | _ => .error (.condition s!"unknown operator {keyword}")

/-- An object of operators is a list of them in the order of their keys; anything else is taken
literally. An object with both kinds of key is neither. -/
def Condition.ofJson : Json → Except RequestError Condition
  | .obj members =>
    if members.keys.any (IsKeyword ·) then
      match members.keys.find? (¬ IsKeyword ·) with
      | some plain => .error (.condition s!"cannot mix operators with the field {plain}")
      | none => .ops <$> members.toList.mapM fun (key, operand) => Operator.ofJson key operand
    else .ok (.value (.ofJson (.obj members)))
  | j => .ok (.value (.ofJson j))

/-- The conditions of a search by property. -/
abbrev Conditions := OrderedMap PropertyName Condition

/-- Of several faults the first in the order of the keys is told, and a name is looked at before
its condition. -/
def Conditions.ofJson : Json → Except RequestError Conditions
  | .obj members => .ofList <$> members.toList.mapM fun (key, condition) => do
      let name ← PropertyName.ofText key
      let condition ← Condition.ofJson condition
      return (name, condition)
  | _ => .error (.condition "find conditions must be an object")

end PropertyGraph
