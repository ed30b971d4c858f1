import PropertyGraph.Proofs.Place
import PropertyGraph.Proofs.Reordering

/-! Calls on one pair neither see nor touch the edges of other pairs. -/
namespace PropertyGraph

variable {α β : Type} {key key' : String} {f : Filter} {p : Pair} {d : Descriptor}

/-- The calls on one pair. A read may make a missing edge, or not. -/
inductive PairCall
  | set (a : Assignment)
  | remove (sel : Selection)
  | get (upsertOnRead : Bool) (sel : Selection)

namespace PairCall

/-- The endpoints in their order: the way back is another pair. -/
def pair : PairCall → Pair
  | set a => ⟨a.src, a.dest⟩
  | remove sel | get _ sel => ⟨sel.src, sel.dest⟩

def storeCall : PairCall → StoreCall
  | set a => .set a
  | remove sel => .remove sel
  | get _ sel => .get sel

/-- How the store has to read; it makes no difference to the other calls. -/
def upsertOnRead : PairCall → Bool
  | get upsertOnRead _ => upsertOnRead
  | _ => true

end PairCall

namespace Storage

/-- A call by a store on the storage. Stores of either kind may be on one storage. -/
def callPair (s : Storage) (c : PairCall) : StoreAnswer × Storage :=
  let (answer, store) := Store.call { storage := s, upsertOnRead := c.upsertOnRead } c.storeCall
  (answer, store.storage)

theorem requireRunning_write (s : Storage) (key : String) (e? : Option Edge) :
    (s.write key e?).requireRunning = s.requireRunning := by
  cases e? with
  | none => rfl
  | some e => exact s.requireRunning_put key e

theorem edge?_write_of_ne (h : key' ≠ key) (s : Storage) (e? : Option Edge) :
    (s.write key e?).edge? key' = s.edge? key' := by
  cases e? with
  | none => rfl
  | some e => exact edge?_put_of_ne h s e

theorem write_comm (h : key ≠ key') (s : Storage) (e? e?' : Option Edge) :
    (s.write key e?).write key' e?' = (s.write key' e?').write key e? := by
  cases e? with
  | none => rfl
  | some e =>
    cases e?' with
    | none => rfl
    | some e' => exact put_comm h s e e'

/-- A step that depends on the place under one key, and on the engine being started, and on nothing
else, and that writes nowhere else. -/
def LocalAt (key : String) (step : Storage → α × Storage) : Prop :=
  ∃ resolve : Except StoreError Unit → Except StoreError (Option Edge) → α × Option Edge, ∀ s,
    step s = ((resolve s.requireRunning (s.edge? key)).1,
      s.write key (resolve s.requireRunning (s.edge? key)).2)

theorem LocalAt.map {step : Storage → α × Storage} (h : LocalAt key step) (g : α → β) :
    LocalAt key fun s => (g (step s).1, (step s).2) := by
  obtain ⟨resolve, hr⟩ := h
  refine ⟨fun running existing => (resolve running existing).map g id, fun s => ?_⟩
  dsimp only
  rw [hr]
  rfl

theorem LocalAt.const (key : String) (answer : α) : LocalAt key fun s => (answer, s) :=
  ⟨fun _ _ => (answer, none), fun _ => rfl⟩

/-- Steps at different places do not see each other. -/
theorem LocalAt.apart {step : Storage → α × Storage} {step' : Storage → β × Storage}
    (h : LocalAt key step) (h' : LocalAt key' step') (hne : key ≠ key') (s : Storage) :
    (step (step' s).2).1 = (step s).1 ∧ (step' (step s).2).2 = (step (step' s).2).2 := by
  obtain ⟨resolve, hr⟩ := h
  obtain ⟨resolve', hr'⟩ := h'
  simp only [hr, hr', requireRunning_write, edge?_write_of_ne hne, edge?_write_of_ne hne.symm,
    write_comm hne, and_self]

theorem localAt_upsert (hk : f.uniqueIndex = some key) (u : Update) (options : UpsertOptions) :
    LocalAt key fun s => s.upsert f u options := by
  let next (running : Except StoreError Unit) (existing : Except StoreError (Option Edge)) :
      Except StoreError (Option Edge) := do
    running
    resolveUpsert (← existing) f u options
  exact ⟨fun running existing =>
    ((next running existing).map options.answer, (next running existing).toOption.join),
    fun s => upsert_eq hk s u options⟩

theorem localAt_find (hk : f.uniqueIndex = some key) (P : Projection) :
    LocalAt key fun s => (s.find f P, s) := by
  let found (running : Except StoreError Unit) (existing : Except StoreError (Option Edge)) :
      Except StoreError (List ProjectedEdge) := do
    running
    return ((← existing).filter f.accepts).toList.map P.apply
  exact ⟨fun running existing => (found running existing, none),
    fun s => congrArg (·, s) (find_eq hk s P)⟩

end Storage

namespace Store

theorem localAt_single (hs : d.src = some p.src) (hd : d.dest = some p.dest) (hf : d.find = none)
    (upsertOnRead : Bool) :
    Storage.LocalAt p.key fun t =>
      ((run ⟨t, upsertOnRead⟩ d).1, (run ⟨t, upsertOnRead⟩ d).2.storage) := by
  simp only [run_single _ hs hd hf]
  exact (Storage.localAt_upsert (f := p.filter) rfl d.update d.writeOptions).map _

end Store

namespace Storage

/-- Each call on a pair is a step at the place of the pair. -/
theorem localAt_callPair (c : PairCall) : LocalAt c.pair.key fun s => s.callPair c := by
  cases c with
  | set a =>
    cases hd : a.descriptor with
    | error fault =>
      simp only [callPair, PairCall.storeCall, Store.call, Store.setProperties, hd]
      exact .const _ _
    | ok d =>
      obtain ⟨writes, -, he⟩ := bind_eq_ok.mp hd
      cases he
      simp only [callPair, PairCall.storeCall, Store.call, Store.setProperties, hd]
      let d : Descriptor := { src := some a.src, dest := some a.dest, set := some (.ofList writes) }
      have h := Store.localAt_single (p := ⟨a.src, a.dest⟩) (d := d) rfl rfl rfl true
      exact h.map fun answer => StoreAnswer.done (answer.map fun _ => ())
  | remove sel =>
    have h := Store.localAt_single (p := ⟨sel.src, sel.dest⟩) (d := sel.remove) rfl rfl rfl true
    exact h.map fun answer => StoreAnswer.done (answer.map fun _ => ())
  | get upsertOnRead sel =>
    cases upsertOnRead with
    | true =>
      have h := Store.localAt_single (p := ⟨sel.src, sel.dest⟩) (d := sel.get) rfl rfl rfl true
      exact h.map fun answer => StoreAnswer.read (answer.map Outcome.first?)
    | false =>
      have h := localAt_find (f := Pair.filter ⟨sel.src, sel.dest⟩) rfl sel.peek.projection
      exact h.map fun answer => StoreAnswer.read ((answer.map Outcome.many).map Outcome.first?)

theorem independent_callPair {c d : PairCall} (h : c.pair ≠ d.pair) :
    Independent callPair c d := by
  have hne : c.pair.key ≠ d.pair.key := fun hk => h (Pair.key_inj hk)
  have hc := localAt_callPair c
  have hd := localAt_callPair d
  exact ⟨fun s => (hc.apart hd hne s).1, fun s => (hd.apart hc hne.symm s).1,
    fun s => (hc.apart hd hne s).2⟩

/-- As long as the calls on each pair stay in their order all calls may be reordered: each is
answered as before, and the storage is the same afterwards. -/
theorem pairs_isolated {calls calls' : List PairCall}
    (h : ∀ p, calls.filter (·.pair = p) = calls'.filter (·.pair = p)) (s : Storage) :
    (∀ p, (answered callPair s calls).filter (·.1.pair = p) =
        (answered callPair s calls').filter (·.1.pair = p)) ∧
      (runCalls callPair s calls).2 = (runCalls callPair s calls').2 :=
  answered_of_filter_eq (fun _ _ => independent_callPair) h s

/-- Calls on a pair and on its way back, in turns or one pair behind the other. -/
def sampleTurns (p : Pair) (byTurns : Bool) : List PairCall :=
  let set : PairCall :=
    .set { src := p.src, dest := p.dest, props := OrderedMap.ofList [("since", .int 1)] }
  let read : PairCall := .get false { src := p.src, dest := p.dest }
  let make : PairCall := .get true { src := p.dest, dest := p.src }
  let remove : PairCall := .remove { src := p.dest, dest := p.src }
  if byTurns then [set, make, read, remove] else [make, remove, set, read]

theorem filter_sampleTurns {p : Pair} (hne : p ≠ ⟨p.dest, p.src⟩) (q : Pair) :
    (sampleTurns p true).filter (·.pair = q) = (sampleTurns p false).filter (·.pair = q) := by
  have he : (⟨p.src, p.dest⟩ : Pair) = p := rfl
  by_cases hp : p = q
  · subst hp
    simp [sampleTurns, PairCall.pair, hne.symm]
  · simp [sampleTurns, PairCall.pair, List.filter_cons, he, hp]

theorem pairs_isolated_sample :
    let p : Pair := ⟨.ofByte 0xaa, .ofByte 0xbb⟩
    let s : Storage := { engine := .tree true, disk := {} }
    (∀ q, (sampleTurns p true).filter (·.pair = q) = (sampleTurns p false).filter (·.pair = q)) ∧
      (∀ q, (answered callPair s (sampleTurns p true)).filter (·.1.pair = q) =
        (answered callPair s (sampleTurns p false)).filter (·.1.pair = q)) ∧
      (runCalls callPair s (sampleTurns p true)).2 =
        (runCalls callPair s (sampleTurns p false)).2 := by
  intro p s
  have hne : p ≠ ⟨p.dest, p.src⟩ := by decide
  exact ⟨filter_sampleTurns hne, pairs_isolated (filter_sampleTurns hne) s⟩

end Storage
end PropertyGraph
