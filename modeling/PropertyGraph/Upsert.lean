import PropertyGraph.Filter
import PropertyGraph.Projection
import PropertyGraph.Update

/-! Writing to one edge, which is made if it is not there. -/
namespace PropertyGraph

structure UpsertOptions where
  /-- Make the edge if there is none. -/
  upsert : Bool := false
  projection : Projection := .identity
  /-- Answer with the edge as it is after the update. -/
  returnDocument : Bool := false
  deriving DecidableEq

/-- The key that an upsert looks under. -/
def Filter.upsertKey (f : Filter) : Except StoreError String :=
  match f.uniqueIndex with
  | some key => .ok key
  | none => .error (.invalidData "upsert requires a uniqueIndex condition")

/-- The edge that a filter asks for, still without properties. Its key is made from the endpoints;
a filter with another key asks for nothing that could be stored. -/
def Filter.seed (f : Filter) : Except StoreError Edge :=
  match f.src, f.dest with
  | some src, some dest =>
    let e := Edge.new src dest
    match f.uniqueIndex with
    | some key =>
      if key = e.uniqueIndex then .ok e
      else .error (.invalidData s!"uniqueIndex {key} does not belong to {src} -> {dest}")
    | none => .ok e
  | _, _ => .error (.invalidData "cannot insert an edge without both src and dest")

/-- The edge an upsert works on. One that is there but fails the filter keeps its key taken. -/
def Filter.target (f : Filter) (existing : Option Edge) (options : UpsertOptions) :
    Except StoreError (Option Edge) :=
  match existing with
  | some e => if f.accepts e then .ok (some e) else .error (.duplicateKey e.uniqueIndex)
  | none => if options.upsert then some <$> f.seed else .ok none

/-- The edge to write back; none if there is none and none is to be made. -/
def resolveUpsert (existing : Option Edge) (f : Filter) (u : Update) (options : UpsertOptions) :
    Except StoreError (Option Edge) := do
  match ← f.target existing options with
  | none => return none
  | some e =>
    match u.apply e with
    | (.ok (), e') => return some e'
    | (.error fault, _) => throw (.request fault)

end PropertyGraph
