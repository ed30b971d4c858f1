import PropertyGraph.Edges
import PropertyGraph.Proofs.OrderedMap
import PropertyGraph.Proofs.PairKey
import PropertyGraph.Request

/-! What a store is to its callers: properties by pairs of endpoints. -/
namespace PropertyGraph

/-- The endpoints of a directed edge. -/
structure Pair where
  src : NodeId
  dest : NodeId
  deriving DecidableEq

namespace Pair
variable (p : Pair)

def key : String := pairKey p.src p.dest

def edge (props : Option Properties) : Edge := { Edge.new p.src p.dest with props }

/-- What a caller is shown of the edge of a pair. -/
def seen (props : Option Properties) : ProjectedEdge := { src := p.src, dest := p.dest, props }

theorem key_inj {p q : Pair} (h : p.key = q.key) : p = q := by
  obtain ⟨src, dest⟩ := p
  obtain ⟨src', dest'⟩ := q
  obtain ⟨rfl, rfl⟩ := pairKey_inj h
  rfl

/-- Pairs are ordered by their keys. -/
instance : LT Pair := ⟨fun p q => p.key < q.key⟩

instance : DecidableLT Pair := fun p q => inferInstanceAs (Decidable (p.key < q.key))

instance : LinearKey Pair where
  irrefl p := LinearKey.irrefl p.key
  trans {p q r} := LinearKey.trans (a := p.key) (b := q.key) (c := r.key)
  trichotomy p q := (LinearKey.trichotomy p.key q.key).imp_right (·.imp_left key_inj)

end Pair

namespace Selector

/-- The part of some properties that is selected; all of them if nothing else is said. -/
def pick (selected : Option Selector) (props : Option Properties) : Option Properties :=
  match selected with
  | some (.named names) => props.map (·.restrict names)
  | some .all | none => props

/-- What is left of some properties without those that are selected. -/
def clear (selected : Option Selector) (props : Option Properties) : Option Properties :=
  match selected with
  | some (.named names) => props.map fun m => names.keys.foldl Properties.unset m
  | some .all | none => none

end Selector

/-- The calls that a store offers on its edges. -/
inductive StoreCall
  | set (a : Assignment)
  | remove (sel : Selection)
  | get (sel : Selection)
  | find (q : Query)

inductive StoreAnswer
  | done (answer : Except StoreError Unit)
  | read (answer : Except StoreError (Option ProjectedEdge))
  | found (answer : Except StoreError (List ProjectedEdge))

/-- The pairs that have an edge, with its properties. -/
abbrev Reference := OrderedMap Pair (Option Properties)

namespace Reference
variable (R : Reference)

/-- A missing edge counts as one without properties. -/
def props (p : Pair) : Option Properties := (R.get? p).join

/-- A key as the name it has to be, then the keys inside its value. -/
def checked (entry : String × Value) : Except RequestError (PropertyName × Value) := do
  let name ← PropertyName.ofText entry.1
  entry.2.checkKeys
  return (name, entry.2)

/-- Properties come into being with the first value written. -/
def assign (props : Option Properties) (writes : List (PropertyName × Value)) :
    Except RequestError (Option Properties) :=
  if writes.isEmpty then .ok props
  else some <$> writes.foldlM (fun m w => m.write w.1 w.2) (props.getD ∅)

/-- Every name and key is checked before the first value is written; a fault writes nothing. -/
def set (a : Assignment) : Except RequestError Reference := do
  let p : Pair := ⟨a.src, a.dest⟩
  let props ← assign (R.props p) (← a.props.toList.mapM checked)
  return R.insert p props

/-- A removal makes a missing edge. -/
def remove (sel : Selection) : Reference :=
  let p : Pair := ⟨sel.src, sel.dest⟩
  R.insert p (Selector.clear sel.props (R.props p))

/-- A read makes a missing edge if it is allowed to. -/
def get (upsertOnRead : Bool) (sel : Selection) : Option ProjectedEdge × Reference :=
  let p : Pair := ⟨sel.src, sel.dest⟩
  match R.get? p with
  | some props => (some (p.seen (Selector.pick sel.props props)), R)
  | none => if upsertOnRead then (some (p.seen none), R.insert p none) else (none, R)

/-- A condition on a missing property is asked all the same. -/
def satisfies (q : Query) (p : Pair) (props : Option Properties) : Bool :=
  q.src.all (· == p.src) && q.dest.all (· == p.dest)
    && (q.find.getD ∅).toList.all fun (name, condition) =>
      condition.holds (props.bind (·.read name))

/-- A search that asks for nothing finds nothing. -/
def find (q : Query) : List ProjectedEdge :=
  if q.src = none ∧ q.dest = none ∧ q.find = none then []
  else (R.toList.filter fun (p, props) => satisfies q p props).map fun (p, props) =>
    p.seen (Selector.pick q.props props)

def call (upsertOnRead : Bool) (R : Reference) : StoreCall → StoreAnswer × Reference
  | .set a =>
    match R.set a with
    | .ok R' => (.done (.ok ()), R')
    | .error fault => (.done (.error (.request fault)), R)
  | .remove sel => (.done (.ok ()), R.remove sel)
  | .get sel =>
    let (answer, R') := R.get upsertOnRead sel
    (.read (.ok answer), R')
  | .find q => (.found (.ok (R.find q)), R)

end Reference

theorem Above.key {lo : Option Pair} {p : Pair} (h : Above lo p) :
    Above (lo.map Pair.key) p.key := by
  cases lo with
  | none => trivial
  | some q => exact .of_lt (h.lt : q < p)

namespace Ascending
variable {lo : Option Pair}

/-- The edges that stand for the pairs, under the keys of the pairs. -/
def toEdges {lo : Option Pair} :
    Ascending Pair (Option Properties) lo → Ascending String Edge (lo.map Pair.key)
  | nil => nil
  | cons p props above rest => cons p.key (p.edge props) above.key rest.toEdges

theorem toList_toEdges (R : Ascending Pair (Option Properties) lo) :
    R.toEdges.toList = R.toList.map fun (p, props) => (p.key, p.edge props) := by
  induction R with
  | nil => rfl
  | cons p props above rest ih => rw [toEdges, toList_cons, toList_cons, ih, List.map_cons]

theorem get?_toEdges (R : Ascending Pair (Option Properties) lo) (p : Pair) :
    R.toEdges.get? p.key = (R.get? p).map p.edge := by
  induction R with
  | nil => rfl
  | cons q props above rest ih =>
    rw [toEdges, get?, get?, ih]
    by_cases h : p = q
    · subst h
      simp
    · have hk : p.key ≠ q.key := fun hk => h (Pair.key_inj hk)
      rw [if_neg h, if_neg hk]

theorem toEdges_insertAbove (R : Ascending Pair (Option Properties) lo) (p : Pair)
    (props : Option Properties) (above : Above lo p) :
    (R.insertAbove p props above).toEdges =
      R.toEdges.insertAbove p.key (p.edge props) above.key := by
  induction R with
  | nil => rfl
  | cons q props' h rest ih =>
    rw [insertAbove, toEdges, insertAbove]
    by_cases hlt : p < q
    · have hk : p.key < q.key := hlt
      rw [dif_pos hlt, dif_pos hk]
      rfl
    · have hk : ¬ p.key < q.key := hlt
      rw [dif_neg hlt, dif_neg hk]
      by_cases heq : p = q
      · subst heq
        rw [dif_pos rfl, dif_pos rfl]
        rfl
      · have hne : p.key ≠ q.key := fun hk => heq (Pair.key_inj hk)
        rw [dif_neg heq, dif_neg hne, toEdges, ih]

end Ascending

namespace Reference
variable {R : Reference} {p : Pair}

/-- The edges that a store holds for the reference. -/
def edges (R : Reference) : Edges := R.toEdges

theorem toList_edges (R : Reference) :
    R.edges.toList = R.toList.map fun (p, props) => (p.key, p.edge props) := R.toList_toEdges

theorem get?_edges (R : Reference) (p : Pair) : R.edges.get? p.key = (R.get? p).map p.edge :=
  R.get?_toEdges p

theorem edges_insert (R : Reference) (p : Pair) (props : Option Properties) :
    edges (R.insert p props) = R.edges.insert p.key (p.edge props) :=
  R.toEdges_insertAbove p props trivial

end Reference
end PropertyGraph
