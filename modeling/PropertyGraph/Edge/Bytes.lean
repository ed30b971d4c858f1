import PropertyGraph.Edge
import PropertyGraph.Error
import PropertyGraph.MessagePack.Reader

/-! Edges as bytes. -/
namespace PropertyGraph

namespace MessagePack

def ofText (s : String) : MessagePack := str s.toUTF8.data.toList

/-- The text that bytes stand for in UTF-8. -/
def decodeText? (bs : List UInt8) : Option String := String.fromUTF8? ⟨bs.toArray⟩

/-- A text, which may also come as plain bytes. -/
def text? : MessagePack → Option String
  | str bs | bin bs => decodeText? bs
  | _ => none

/-- Plain bytes; a text that is none counts as such. -/
def binary? : MessagePack → Option (List UInt8)
  | bin bs => some bs
  | str bs => if (decodeText? bs).isSome then none else some bs
  | _ => none

end MessagePack

namespace Value

mutual

def toMessagePack : Value → MessagePack
  | null => .nil
  | bool b => .bool b
  | int i => if 0 ≤ i.toInt then .uint (.ofNat i.toInt.toNat) else .sint i
  | float x => .float x
  | str s => .ofText s
  | arr items => .arr (toMessagePackItems items)
  | map fields => .map (toMessagePackEntries fields)

def toMessagePackItems : List Value → List MessagePack
  | [] => []
  | v :: vs => v.toMessagePack :: toMessagePackItems vs

def toMessagePackEntries {lo : Option String} :
    Ascending String Value lo → List (MessagePack × MessagePack)
  | .nil => []
  | .cons k v _ rest => (.ofText k, v.toMessagePack) :: toMessagePackEntries rest

end

mutual

/-- An unsigned integer beyond 63 bits becomes the nearest float. -/
def ofMessagePack? : MessagePack → Option Value
  | .nil => some null
  | .bool b => some (bool b)
  | .uint n => some (if n.toNat < 0x8000000000000000 then int (.ofInt n.toNat)
      else float (.ofInt n.toNat))
  | .sint i => some (int i)
  | .float x => some (float x)
  | .str bs => (MessagePack.decodeText? bs).map str
  | .bin bs => (MessagePack.decodeText? bs).map str
  | .ext _ _ => none
  | .arr items => (ofMessagePackItems? items).map arr
  | .map entries => (ofMessagePackEntries? ∅ entries).map map

def ofMessagePackItems? : List MessagePack → Option (List Value)
  | [] => some []
  | m :: ms => do some ((← ofMessagePack? m) :: (← ofMessagePackItems? ms))

/-- Of entries with the same key the last one stays. -/
def ofMessagePackEntries? (acc : Properties) : List (MessagePack × MessagePack) → Option Properties
  | [] => some acc
  | (k, v) :: rest => do
    let key ← k.text?
    let value ← ofMessagePack? v
    ofMessagePackEntries? (acc.insert key value) rest

end

end Value

namespace Edge

inductive Field
  | src
  | dest
  | uniqueIndex
  | props
  deriving DecidableEq

def Field.name : Field → String
  | src => "src"
  | dest => "dest"
  | uniqueIndex => "uniqueIndex"
  | props => "props"

/-- In the order in which they are written. -/
def Field.all : List Field := [src, dest, uniqueIndex, props]

/-- The field that a key stands for, by its name or by its place. A key may stand for none, but
it has to be a text or an unsigned number. -/
def Field.ofKey? : MessagePack → Option (Option Field)
  | .str bs | .bin bs =>
    some ((MessagePack.decodeText? bs).bind fun s => all.find? fun f => f.name = s)
  | .uint n => some all[n.toNat]?
  | _ => none

def toMessagePack (e : Edge) : MessagePack :=
  let entry (f : Field) (m : MessagePack) := (MessagePack.ofText f.name, m)
  .map ([entry .src (.bin e.src.bytes), entry .dest (.bin e.dest.bytes),
      entry .uniqueIndex (.ofText e.uniqueIndex)]
    ++ (e.props.map fun m => entry .props (Value.map m).toMessagePack).toList)

def nodeId? (m : MessagePack) : Option NodeId := m.binary?.bind NodeId.ofBytes?

def props? : MessagePack → Option (Option Properties)
  | .nil => some none
  | .map entries => (Value.ofMessagePackEntries? ∅ entries).map some
  | _ => none

def ofFields? (src dest uniqueIndex : MessagePack) (props : Option MessagePack) : Option Edge := do
  let src ← nodeId? src
  let dest ← nodeId? dest
  let uniqueIndex ← uniqueIndex.text?
  let props ← props? (props.getD .nil)
  some { src, dest, uniqueIndex, props }

/-- An edge is a map with its fields in any order, or an array of them in their own. Each field
comes once, only the properties may be missing, and keys that stand for no field are passed over. -/
def ofMessagePack? : MessagePack → Option Edge
  | .arr [src, dest, uniqueIndex] => ofFields? src dest uniqueIndex none
  | .arr [src, dest, uniqueIndex, props] => ofFields? src dest uniqueIndex (some props)
  | .map entries => do
    let fields ← entries.mapM fun (k, v) => (Field.ofKey? k).map (·, v)
    let given (f : Field) := (fields.filter (·.1 = some f)).map (·.2)
    match given .src, given .dest, given .uniqueIndex, given .props with
    | [src], [dest], [uniqueIndex], [] => ofFields? src dest uniqueIndex none
    | [src], [dest], [uniqueIndex], [props] => ofFields? src dest uniqueIndex (some props)
    | _, _, _, _ => none
  | _ => none

def encode (e : Edge) : List UInt8 := e.toMessagePack.bytes

/-- Bytes behind the edge are passed over. -/
def decode (bs : List UInt8) : Except StoreError Edge :=
  match (MessagePack.read? bs).bind fun (m, _) => ofMessagePack? m with
  | some e => .ok e
  | none => .error (.deserialization none)

end Edge

end PropertyGraph
