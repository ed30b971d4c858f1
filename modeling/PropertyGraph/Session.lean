import PropertyGraph.Store

/-! The life of one place for edges, on which stores are opened, closed and lost. -/
namespace PropertyGraph

/-- A disk, and the store that is open on it, if there is one. -/
structure Session where
  settings : Settings
  disk : Disk := {}
  engine : Option Engine := none
  upsertOnRead : Bool := true

namespace Session
variable (s : Session)

def store? : Option Store :=
  s.engine.map fun engine =>
    { storage := { engine, disk := s.disk }, upsertOnRead := s.upsertOnRead }

def withStore (store : Store) : Session :=
  { s with
    disk := store.storage.disk
    engine := some store.storage.engine
    upsertOnRead := store.upsertOnRead }

/-- The store is gone; what is on the disk stays. -/
def drop : Session := { s with engine := none }

def adopt : Except StoreError Store → Except StoreError Unit × Session
  | .ok store => (.ok (), s.withStore store)
  | .error fault => (.error fault, s.drop)

def openStore : Except StoreError Unit × Session := s.adopt (Store.openWith s.settings s.disk)

/-- Opens again without closing. -/
def crash : Except StoreError Unit × Session := s.drop.openStore

/-- Closes and opens again. Where the store cannot be closed none is left. -/
def reopen : Except StoreError Unit × Session :=
  match s.store? with
  | none => s.openStore
  | some store =>
    match store.close with
    | (.ok (), store') => (s.withStore store').drop.openStore
    | (.error fault, store') => (.error fault, (s.withStore store').drop)

/-- A store on a new engine that is not started. -/
def renew : Except StoreError Unit × Session :=
  s.adopt ((Engine.create s.settings s.disk).map fun engine =>
    { storage := { engine, disk := s.disk } })

def setSnapshot (file : SnapshotFile) : Session :=
  { s with disk := { s.disk with snapshot := file } }

end Session

end PropertyGraph
