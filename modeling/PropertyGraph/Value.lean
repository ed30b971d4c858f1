import PropertyGraph.Json

/-! Property values: their equality, their order as queries see it, and their JSON form. -/
namespace PropertyGraph

/-- A value under a property name. Maps nest, so an edge can carry structured data. -/
inductive Value
  | null
  | bool (value : Bool)
  | int (value : Int64)
  | float (value : Binary64)
  | str (value : String)
  | arr (items : List Value)
  | map (fields : Ascending String Value none)

/-- Values by property name, each name one segment of a path. -/
abbrev Properties := OrderedMap String Value

namespace Value

instance : Inhabited Value := ⟨null⟩

mutual

def beq : Value → Value → Bool
  | null, null => true
  | bool a, bool b => a == b
  | int a, int b => a == b
  | float a, float b => a == b
  | str a, str b => a == b
  | arr a, arr b => beqItems a b
  | map a, map b => beqFields a b
  | _, _ => false

def beqItems : List Value → List Value → Bool
  | [], [] => true
  | a :: as, b :: bs => a.beq b && beqItems as bs
  | _, _ => false

def beqFields {lo lo' : Option String} :
    Ascending String Value lo → Ascending String Value lo' → Bool
  | .nil, .nil => true
  | .cons k v _ rest, .cons k' v' _ rest' => k == k' && v.beq v' && beqFields rest rest'
  | _, _ => false

end

mutual

theorem beq_iff (a b : Value) : a.beq b = true ↔ a = b := by
  cases a <;> cases b <;> simp [beq]
  · exact beqItems_iff _ _
  · rw [beqFields_iff]
    exact ⟨Ascending.toList_inj, fun h => h ▸ rfl⟩

theorem beqItems_iff (as bs : List Value) : beqItems as bs = true ↔ as = bs := by
  cases as with
  | nil => cases bs <;> simp [beqItems]
  | cons a as => cases bs with
    | nil => simp [beqItems]
    | cons b bs => simp [beqItems, beq_iff a b, beqItems_iff as bs]

theorem beqFields_iff {lo lo' : Option String} (m : Ascending String Value lo)
    (m' : Ascending String Value lo') : beqFields m m' = true ↔ m.toList = m'.toList := by
  cases m with
  | nil => cases m' <;> simp [beqFields]
  | cons k v h rest => cases m' with
    | nil => simp [beqFields]
    | cons k' v' h' rest' =>
      simp [beqFields, beq_iff v v', beqFields_iff rest rest']

end

instance : DecidableEq Value := fun a b => decidable_of_iff _ (beq_iff a b)

/-- A number as a float, the nearest one for an integer. -/
def number? : Value → Option Binary64
  | int i => some (.ofInt i.toInt)
  | float x => some x
  | _ => none

/-- The order of range conditions. Two integers are compared exactly and any other two numbers as
floats; values of different kinds have no order, nor have arrays and maps. -/
def compare? : Value → Value → Option Ordering
  | int a, int b => some (compare a.toInt b.toInt)
  | str a, str b => some (compare a b)
  | bool a, bool b => some (compare a b)
  | a, b => do (← a.number?).compare? (← b.number?)

/-- Equality as queries see it: an integer equals a float of the same value. What arrays and maps
hold is compared strictly. -/
def looselyEquals : Value → Value → Bool
  | a@(int _), b@(float _) | a@(float _), b@(int _) => a.compare? b == some .eq
  | a, b => a == b

/-- An integer beyond 64 signed bits becomes the nearest float. -/
def ofNumber : Json.Number → Value
  | .int i => int i
  | .large n _ => float (.ofInt n.toNat)
  | .float x _ => float x

mutual

def ofJson : Json → Value
  | .null => null
  | .bool b => bool b
  | .num n => ofNumber n
  | .str s => str s
  | .arr items => arr (ofJsonItems items)
  | .obj members => map (ofJsonFields members)

def ofJsonItems : List Json → List Value
  | [] => []
  | j :: js => ofJson j :: ofJsonItems js

def ofJsonFields {lo : Option String} : Ascending String Json lo → Ascending String Value lo
  | .nil => .nil
  | .cons k j h rest => .cons k (ofJson j) h (ofJsonFields rest)

end

mutual

/-- Infinities and NaN become null. -/
def toJson : Value → Json
  | null => .null
  | bool b => .bool b
  | int i => .num (.int i)
  | float x => .ofBinary64 x
  | str s => .str s
  | arr items => .arr (toJsonItems items)
  | map fields => .obj (toJsonFields fields)

def toJsonItems : List Value → List Json
  | [] => []
  | v :: vs => v.toJson :: toJsonItems vs

def toJsonFields {lo : Option String} : Ascending String Value lo → Ascending String Json lo
  | .nil => .nil
  | .cons k v h rest => .cons k v.toJson h (toJsonFields rest)

end

end Value

end PropertyGraph
