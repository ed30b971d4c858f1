import PropertyGraph.EdgeTree
import PropertyGraph.Settings
import PropertyGraph.Snapshot

/-! Storage engines, and what they leave behind when they are gone. -/
namespace PropertyGraph

/-- What outlives an engine. -/
structure Disk where
  snapshot : SnapshotFile := {}
  tree : EdgeTree := ∅
  /-- A file stands where the tree's directory belongs. -/
  treeBlocked : Bool := false
  deriving DecidableEq

/-- The memory engine holds its edges itself, the tree engine keeps them on the disk. -/
inductive Engine
  | memory (running : Bool) (persistent : Bool) (edges : Edges)
  | tree (running : Bool)
  deriving DecidableEq

namespace Engine

def kind : Engine → EngineKind
  | memory .. => .memory
  | tree _ => .tree

def running : Engine → Bool
  | memory running _ _ | tree running => running

def setRunning (running : Bool) : Engine → Engine
  | memory _ persistent edges => memory running persistent edges
  | tree _ => tree running

/-- The engine that settings ask for, not yet started. -/
def create (settings : Settings) (disk : Disk) : Except StoreError Engine :=
  match settings.engine with
  | .memory => .ok (memory false settings.snapshotFile.isSome ∅)
  | .tree =>
    match settings.dataDirectory with
    | none => .error (.config "Sled storage requires data_directory")
    | some _ => if disk.treeBlocked then .error (.storage none) else .ok (tree false)

end Engine

/-- An engine together with its disk. -/
structure Storage where
  engine : Engine
  disk : Disk
  deriving DecidableEq

namespace Storage
variable (s : Storage)

def notRunning : StoreError := .notRunning (s.engine.kind.name ++ " engine has not been started")

def requireRunning : Except StoreError Unit :=
  if s.engine.running then .ok () else .error s.notRunning

/-- Writes the edges of the memory engine to its snapshot, if it has one. -/
def sync : Except StoreError Unit × Storage :=
  match s.engine with
  | .memory _ true edges =>
    let (answer, file) := s.disk.snapshot.save edges
    (answer, { s with disk := { s.disk with snapshot := file } })
  | _ => (.ok (), s)

/-- The memory engine takes over the edges of its snapshot, unless it is running already. -/
def start : Except StoreError Unit × Storage :=
  match s.engine with
  | .memory false true _ =>
    match s.disk.snapshot.load with
    | .ok edges => (.ok (), { s with engine := .memory true true edges })
    | .error fault => (.error fault, s)
  | engine => (.ok (), { s with engine := engine.setRunning true })

/-- Also when the edges cannot be written the engine is stopped. -/
def stop : Except StoreError Unit × Storage :=
  if s.engine.running then sync { s with engine := s.engine.setRunning false }
  else (.ok (), s)

def flush : Except StoreError Unit × Storage :=
  match s.requireRunning with
  | .ok () => s.sync
  | .error fault => (.error fault, s)

/-- The tree engine asks for the key first, the memory engine whether it is running. -/
def upsert (f : Filter) (u : Update) (options : UpsertOptions) :
    Except StoreError (Option ProjectedEdge) × Storage :=
  match s.engine with
  | .memory _ persistent edges =>
    match (do s.requireRunning; edges.upsert (← f.upsertKey) f u options) with
    | .ok (answer, edges') => (.ok answer, { s with engine := .memory true persistent edges' })
    | .error fault => (.error fault, s)
  | .tree _ =>
    match (do
      let key ← f.upsertKey
      s.requireRunning
      s.disk.tree.upsert key f u options) with
    | .ok (answer, tree') => (.ok answer, { s with disk := { s.disk with tree := tree' } })
    | .error fault => (.error fault, s)

def find (f : Filter) (p : Projection) : Except StoreError (List ProjectedEdge) := do
  s.requireRunning
  match s.engine with
  | .memory _ _ edges => return edges.find f p
  | .tree _ => s.disk.tree.find f p

def count (f : Filter) : Except StoreError Nat := do
  s.requireRunning
  match s.engine with
  | .memory _ _ edges => return edges.count f
  | .tree _ => s.disk.tree.count f

end Storage

end PropertyGraph
