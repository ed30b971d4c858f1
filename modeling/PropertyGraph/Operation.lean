import PropertyGraph.Request
import PropertyGraph.Upsert

/-! The single storage call that a request comes down to. -/
namespace PropertyGraph

inductive Target
  | single
  | many
  deriving DecidableEq

/-- A single-edge operation carries an update, a search none. -/
structure Operation where
  target : Target
  filter : Filter
  projection : Projection
  update : Option Update
  returnsDocument : Bool
  deriving DecidableEq

def Operation.upsertOptions (op : Operation) : UpsertOptions where
  upsert := true
  projection := op.projection
  returnDocument := op.returnsDocument

namespace Descriptor
variable (d : Descriptor)

def projection : Projection :=
  match d.get with
  | none => .identity
  | some .all => .all
  | some (.named names) => .props names

def update : Update where
  assign := d.set.getD ∅
  clear := match d.remove with
    | none => .nothing
    | some .all => .all
    | some (.named names) => .paths names

/-- With both endpoints given a search is pinned to their key. -/
def search (conditions : Conditions) : Except RequestError Operation :=
  if d.set.isSome || d.remove.isSome then .error .updateOnSearch
  else .ok {
    target := .many
    filter := {
      src := d.src
      dest := d.dest
      uniqueIndex := match d.src, d.dest with
        | some src, some dest => some (pairKey src dest)
        | _, _ => none
      props := conditions.toList }
    projection := d.projection
    update := none
    returnsDocument := d.get.isSome }

def single : Except RequestError Operation :=
  match d.src, d.dest with
  | none, _ => .error (.missingEndpoint .src)
  | some _, none => .error (.missingEndpoint .dest)
  | some src, some dest => .ok {
    target := .single
    filter := { src := some src, dest := some dest, uniqueIndex := some (pairKey src dest) }
    projection := d.projection
    update := some d.update
    returnsDocument := d.get.isSome }

def compile : Except RequestError Operation :=
  match d.find with
  | some conditions => d.search conditions
  | none => d.single

end Descriptor

end PropertyGraph
