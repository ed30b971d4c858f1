import PropertyGraph.Json
import PropertyGraph.Text.Blank
import PropertyGraph.Text.LowerCase
import PropertyGraph.Yaml.Reader

/-! Settings of a store and the documents they are read from. -/
namespace PropertyGraph

inductive EngineKind
  | memory
  | tree
  deriving DecidableEq

namespace EngineKind

def name : EngineKind → String
  | memory => "InMemory"
  | tree => "Sled"

/-- Blanks around a name and the case of its letters do not count. A name of no engine is told
without them. -/
def ofText (text : String) : Except String EngineKind :=
  match Text.lowerCase (Text.strip Text.isBlank text) with
  | "inmemory" | "in-memory" | "in_memory" | "memory" => .ok memory
  | "sled" => .ok tree
  | other => .error s!"Unsupported storage engine type: {other}"

/-- In settings the name may carry quotes of its own. -/
def ofSetting? (text : String) : Option EngineKind :=
  (ofText (Text.strip (fun c => c = '"' || c = '\'') (Text.strip Text.isBlank text))).toOption

end EngineKind

structure Settings where
  engine : EngineKind := .memory
  /-- Where the tree engine keeps its edges. -/
  dataDirectory : Option String := some "./edgeprops_data/sled"
  /-- Where the memory engine keeps its edges while it is stopped; without it they are not kept. -/
  snapshotFile : Option String := none
  cacheCapacity : Option UInt64 := some 1073741824
  useCompression : Bool := false
  /-- Reads of a missing edge make it. -/
  upsertOnRead : Bool := true
  deriving DecidableEq

namespace Settings

def inMemory : Settings := { dataDirectory := none }

def inTree (dataDirectory : String) : Settings :=
  { engine := .tree, dataDirectory := some dataDirectory }

end Settings

/-- Documents from which the values of settings are read. -/
class SettingValue (α : Type) where
  isNull : α → Bool
  text? : α → Option String
  flag? : α → Option Bool
  word? : α → Option UInt64

namespace SettingValue

/-- A setting that may be null. -/
def optional? {α β : Type} [SettingValue α] (read : α → Option β) (v : α) : Option (Option β) :=
  if isNull v then some none else (read v).map some

instance : SettingValue Json where
  isNull
    | .null => true
    | _ => false
  text?
    | .str text => some text
    | _ => none
  flag?
    | .bool b => some b
    | _ => none
  word?
    | .num (.int i) => if 0 ≤ i.toInt then some (.ofNat i.toInt.toNat) else none
    | .num (.large n _) => some n
    | _ => none

instance : SettingValue Yaml where
  isNull := Yaml.isNull
  text? := Yaml.text?
  flag? := Yaml.flag?
  word? := Yaml.word?

end SettingValue

namespace Settings

section Fields
open SettingValue
variable {α : Type} [SettingValue α]

/-- The settings by name, each with the way it is read into the others. -/
def readers : List (String × (Settings → α → Option Settings)) := [
  ("storage_engine_type",
    fun s v => ((text? v).bind EngineKind.ofSetting?).map ({ s with engine := · })),
  ("data_directory", fun s v => (optional? text? v).map ({ s with dataDirectory := · })),
  ("snapshot_file", fun s v => (optional? text? v).map ({ s with snapshotFile := · })),
  ("cache_capacity", fun s v => (optional? word? v).map ({ s with cacheCapacity := · })),
  ("use_compression", fun s v => (flag? v).map ({ s with useCompression := · })),
  ("upsert_on_read", fun s v => (flag? v).map ({ s with upsertOnRead := · }))]

/-- The same name with hyphens. -/
def hyphenated (name : String) : String :=
  .ofList (name.toList.map fun c => if c = '_' then '-' else c)

def isNamed (name key : String) : Bool := key = name || key = hyphenated name

/-- A setting goes by its name or by the name with hyphens, but is given once at most. One that is
not given keeps its default, and other fields are passed over. -/
def ofFields? (fields : List (String × α)) : Option Settings :=
  readers.foldlM (fun s (name, read) =>
    match fields.filter fun (key, _) => isNamed name key with
    | [] => some s
    | [(_, v)] => read s v
    | _ => none) {}

/-- The settings in their order; defaults stand for those left out at the end. -/
def ofItems? (items : List α) : Option Settings :=
  let readers := @readers α _
  if items.length ≤ readers.length then
    (readers.zip items).foldlM (fun s ((_, read), v) => read s v) {}
  else none

end Fields

def ofJson? : Json → Option Settings
  | .obj members => ofFields? members.toList
  | .arr items => ofItems? items
  | _ => none

/-- The entries of a mapping whose keys are scalars. -/
def entries? : Yaml → Option (List (String × Yaml))
  | .mapping entries => entries.mapM fun (k, y) => k.text?.map (·, y)
  | _ => none

/-- The entries that no setting is read from hold anything that can be read. -/
def othersReadable (isSetting : String → Bool) (entries : List (String × Yaml)) : Bool :=
  entries.all fun (key, y) => isSetting key || y.isReadable

def isSetting (key : String) : Bool := (@readers Yaml _).any fun (name, _) => isNamed name key

/-- Settings stand in a mapping under the key `storage`. -/
def ofYaml? (y : Yaml) : Option Settings := do
  let entries ← entries? y
  match entries.filter (·.1 = "storage") with
  | [(_, y)] =>
    let fields ← entries? y
    if othersReadable (· = "storage") entries && othersReadable isSetting fields then
      ofFields? fields
    else none
  | _ => none

/-- What is wrong with a settings document. -/
inductive Fault
  | notText
  | notSettings
  deriving DecidableEq

def parse (text : String) : Except Fault Settings :=
  match (Yaml.parse? text).bind ofYaml? with
  | some s => .ok s
  | none => .error .notSettings

/-- The settings in a file; defaults if there is none. -/
def load : Option (List UInt8) → Except Fault Settings
  | none => .ok {}
  | some bytes =>
    match String.fromUTF8? ⟨bytes.toArray⟩ with
    | some text => parse text
    | none => .error .notText

def toJson (s : Settings) : Json :=
  let text (t : Option String) : Json := (t.map Json.str).getD .null
  let capacity : Json :=
    ((s.cacheCapacity.bind (Json.Number.ofInt? ·.toNat)).map Json.num).getD .null
  .obj (OrderedMap.ofList [
    ("storage_engine_type", .str (Text.lowerCase s.engine.name)),
    ("data_directory", text s.dataDirectory),
    ("snapshot_file", text s.snapshotFile),
    ("cache_capacity", capacity),
    ("use_compression", .bool s.useCompression),
    ("upsert_on_read", .bool s.upsertOnRead)])

end Settings

end PropertyGraph
