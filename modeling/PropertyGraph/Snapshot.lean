import PropertyGraph.Edge.Bytes
import PropertyGraph.Edges

/-! Whole collections of edges in one file. -/
namespace PropertyGraph

namespace Edges

def toMessagePack (edges : Edges) : MessagePack :=
  .map (edges.toList.map fun (k, e) => (.ofText k, e.toMessagePack))

def encode (edges : Edges) : List UInt8 := edges.toMessagePack.bytes

def ofMessagePack? : MessagePack → Option Edges
  | .map entries => .ofList <$> entries.mapM fun (k, m) => do
      some ((← k.text?), (← Edge.ofMessagePack? m))
  | _ => none

/-- Keys are taken as they stand, and of entries with the same key the last one stays. -/
def decode (bytes : List UInt8) : Except StoreError Edges :=
  match (MessagePack.read? bytes).bind fun (m, _) => ofMessagePack? m with
  | some edges => .ok edges
  | none => .error (.deserialization none)

end Edges

/-- What stands at the place of a snapshot. Either way of using it may fail. -/
structure SnapshotFile where
  contents : Option (List UInt8) := none
  readable : Bool := true
  writable : Bool := true
  deriving DecidableEq

namespace SnapshotFile

/-- Something else stands in the place of the file. -/
def blocked : SnapshotFile := { readable := false, writable := false }

/-- A missing file holds no edges. -/
def load (file : SnapshotFile) : Except StoreError Edges :=
  if file.readable then
    match file.contents with
    | none => .ok ∅
    | some bytes => Edges.decode bytes
  else .error (.deserialization none)

/-- A file that is written is replaced as a whole; one that cannot be written keeps what it
holds. -/
def save (file : SnapshotFile) (edges : Edges) : Except StoreError Unit × SnapshotFile :=
  if file.writable then (.ok (), { file with contents := some edges.encode })
  else (.error (.io none), file)

end SnapshotFile

end PropertyGraph
