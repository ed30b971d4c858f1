import PropertyGraph.Operation
import PropertyGraph.Storage

/-! The store as callers use it: each call is one operation on the storage. -/
namespace PropertyGraph

/-- What an operation produced; a single edge that was not asked for is nothing. -/
inductive Outcome
  | nothing
  | one (edge : Option ProjectedEdge)
  | many (edges : List ProjectedEdge)
  deriving DecidableEq

namespace Outcome

def first? : Outcome → Option ProjectedEdge
  | nothing => none
  | one edge => edge
  | many edges => edges.head?

def all : Outcome → List ProjectedEdge
  | nothing => []
  | one edge => edge.toList
  | many edges => edges

end Outcome

namespace Operation

/-- What stands for the edge in messages. -/
def label (op : Operation) : String := op.filter.uniqueIndex.getD "<unkeyed>"

def execute (op : Operation) (s : Storage) : Except StoreError Outcome × Storage :=
  match op.target with
  | .single =>
    match op.update with
    | none =>
      (.error (.internal ("single-edge operation on " ++ op.label ++ " carries no update")), s)
    | some update =>
      let (answer, s') := s.upsert op.filter update op.upsertOptions
      (answer.map fun edge => if op.returnsDocument then .one edge else .nothing, s')
  | .many => ((s.find op.filter op.projection).map .many, s)

end Operation

structure Store where
  storage : Storage
  /-- Reads of a missing edge make it. -/
  upsertOnRead : Bool := true
  deriving DecidableEq

namespace Store
variable (s : Store)

/-- A store on an engine that settings ask for, started. -/
def openWith (settings : Settings) (disk : Disk) : Except StoreError Store := do
  let storage : Storage := { engine := ← Engine.create settings disk, disk }
  let (answer, storage) := storage.start
  answer
  return { storage, upsertOnRead := settings.upsertOnRead }

def onStorage {α : Type} (run : Storage → Except StoreError α × Storage) :
    Except StoreError α × Store :=
  let (answer, storage) := run s.storage
  (answer, { s with storage })

def close : Except StoreError Unit × Store := s.onStorage Storage.stop

def run (d : Descriptor) : Except StoreError Outcome × Store :=
  match d.compile with
  | .ok op => s.onStorage op.execute
  | .error fault => (.error (.request fault), s)

/-- Sets every property given and leaves the others as they are; a missing edge is made. -/
def setProperties (a : Assignment) : Except StoreError Unit × Store :=
  match a.descriptor with
  | .ok d =>
    let (answer, s') := s.run d
    (answer.map fun _ => (), s')
  | .error fault => (.error (.request fault), s)

def getProperties (sel : Selection) : Except StoreError (Option ProjectedEdge) × Store :=
  let (answer, s') := s.run (if s.upsertOnRead then sel.get else sel.peek)
  (answer.map Outcome.first?, s')

def removeProperties (sel : Selection) : Except StoreError Unit × Store :=
  let (answer, s') := s.run sel.remove
  (answer.map fun _ => (), s')

/-- A query that asks for nothing in particular finds nothing, and no storage is asked. -/
def findEdges (q : Query) : Except StoreError (List ProjectedEdge) × Store :=
  match q.descriptor? with
  | some d =>
    let (answer, s') := s.run d
    (answer.map Outcome.all, s')
  | none => (.ok [], s)

end Store

end PropertyGraph
