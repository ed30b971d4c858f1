import PropertyGraph.Proofs.Keyed
import PropertyGraph.Proofs.Serving
import PropertyGraph.Proofs.Snapshot

/-! Whatever is called on an engine, every edge stays at the place of its endpoints. -/
namespace PropertyGraph

variable {s : Storage} {edges edges' : Edges} {e : Edge} {key : String} {f : Filter} {u : Update}
  {options : UpsertOptions}

inductive StorageCall
  | data (c : DataCall)
  | start
  | stop
  | flush

inductive StorageAnswer
  | data (answer : DataAnswer)
  | done (answer : Except StoreError Unit)

/-- The key that a call may write under. -/
def DataCall.writes? : DataCall → Option String
  | .upsert f _ _ => f.uniqueIndex
  | _ => none

def StorageCall.writes? : StorageCall → Option String
  | .data c => c.writes?
  | _ => none

namespace EdgeTree

/-- If bytes under a key can be read at all, the edge found has the identity of the one written. -/
theorem bare_edge? {existing : Option Edge} (h : edges.Keyed)
    (he : (ofEdges edges).edge? key = .ok existing) :
    existing.map Edge.bare = (edges.get? key).map Edge.bare := by
  rw [edge?, ofEdges, Ascending.get?_mapValues] at he
  cases hg : edges.get? key with
  | none =>
    rw [hg] at he
    cases he
    rfl
  | some e =>
    rw [hg, Option.map_some] at he
    dsimp only at he
    cases hd : Edge.decode e.encode with
    | error fault => simp [hd, Functor.map, Except.map] at he
    | ok e' =>
      rw [hd] at he
      cases he
      simp [Edge.bare_of_decode (h key e hg).short hd]

/-- Bytes that are not read as they were written still tell the endpoints and the key. -/
theorem keyed_upsert {answer : Option ProjectedEdge} {tree' : EdgeTree} (h : edges.Keyed)
    (hf : f.uniqueIndex = some key)
    (hu : (ofEdges edges).upsert key f u options = .ok (answer, tree')) :
    ∃ edges', tree' = ofEdges edges' ∧ edges'.Keyed ∧ edges.Grown edges' (some key) := by
  obtain ⟨existing, he, hu⟩ := bind_eq_ok.mp hu
  obtain ⟨next, hr, hu⟩ := bind_eq_ok.mp hu
  cases next with
  | none =>
    cases hu
    exact ⟨edges, rfl, h, .refl edges _⟩
  | some e =>
    cases hu
    refine ⟨edges.insert key e, ?_, h.written hf (bare_edge? h he) hr⟩
    exact (OrderedMap.mapValues_insert Edge.encode edges key e).symm

end EdgeTree

namespace Storage

def call (s : Storage) : StorageCall → StorageAnswer × Storage
  | .data c =>
    let (answer, s') := s.data c
    (.data answer, s')
  | .start =>
    let (answer, s') := s.start
    (.done answer, s')
  | .stop =>
    let (answer, s') := s.stop
    (.done answer, s')
  | .flush =>
    let (answer, s') := s.flush
    (.done answer, s')

/-- An engine of either kind without edges, started or not, whose snapshot can be replaced. -/
structure Blank (s : Storage) : Prop where
  holds : s.Holds ∅
  load_eq : s.disk.snapshot.load = .ok ∅
  writable : s.disk.snapshot.writable = true

/-- A snapshot that a call leaves for the next start is one that the format can announce. -/
def CanSave (s : Storage) (c : StorageCall) : Prop :=
  c = .stop → ∀ edges, s.engine = .memory true true edges → edges.toMessagePack.longest < 2 ^ 32

theorem canSave_of_ne {c : StorageCall} (h : c ≠ .stop) : s.CanSave c := fun hc => absurd hc h

/-- The states to which calls lead from a blank one, as long as snapshots succeed. -/
inductive Reachable : Storage → Prop
  | blank {s : Storage} (h : s.Blank) : Reachable s
  | call {s : Storage} (h : Reachable s) (c : StorageCall) (hs : s.CanSave c) :
    Reachable (s.call c).2

/-- A stopped engine that takes over its snapshot when it is started again. -/
def rests (s : Storage) : Bool :=
  match s.engine with
  | .memory false true _ => true
  | _ => false

/-- Edges at their places, and the same ones again after the next start. -/
structure Sound (s : Storage) (edges : Edges) : Prop where
  holds : s.Holds edges
  keyed : edges.Keyed
  writable : s.disk.snapshot.writable = true
  reload : s.rests = true → ∀ edges', s.disk.snapshot.load = .ok edges' → edges' = edges

theorem Sound.awake (hh : s.Holds edges) (hk : edges.Keyed)
    (hw : s.disk.snapshot.writable = true) (hr : s.rests = false) : s.Sound edges := by
  refine ⟨hh, hk, hw, fun h => ?_⟩
  rw [hr] at h
  cases h

theorem Blank.sound (h : s.Blank) : s.Sound ∅ := by
  refine ⟨h.holds, ?_, h.writable, ?_⟩
  · intro key e hg
    cases hg
  · intro _ edges' hl
    rw [h.load_eq] at hl
    cases hl
    rfl

theorem Sound.memory_upsert {running persistent : Bool} {disk : Disk}
    (h : Sound ⟨.memory running persistent edges, disk⟩ edges) (f : Filter) (u : Update)
    (options : UpsertOptions) :
    ∃ edges', (upsert ⟨.memory running persistent edges, disk⟩ f u options).2.Sound edges' ∧
      edges.Grown edges' f.uniqueIndex := by
  cases hr : (do
      requireRunning ⟨.memory running persistent edges, disk⟩
      edges.upsert (← f.upsertKey) f u options) with
  | error fault =>
    refine ⟨edges, ?_, .refl edges _⟩
    simp only [upsert, hr]
    exact h
  | ok next =>
    obtain ⟨_, -, hk⟩ := bind_eq_ok.mp hr
    obtain ⟨key, hf, hu⟩ := bind_eq_ok.mp hk
    rw [Filter.upsertKey_eq_ok] at hf
    obtain ⟨hk, hg⟩ := h.keyed.upsert hf hu
    refine ⟨next.2, ?_, hf ▸ hg⟩
    simp only [upsert, hr]
    exact .awake rfl hk h.writable rfl

theorem Sound.tree_upsert {running : Bool} {disk : Disk} (h : Sound ⟨.tree running, disk⟩ edges)
    (f : Filter) (u : Update) (options : UpsertOptions) :
    ∃ edges', (upsert ⟨.tree running, disk⟩ f u options).2.Sound edges' ∧
      edges.Grown edges' f.uniqueIndex := by
  have ht : disk.tree = .ofEdges edges := h.holds
  cases hr : (do
      let key ← f.upsertKey
      requireRunning ⟨.tree running, disk⟩
      disk.tree.upsert key f u options) with
  | error fault =>
    refine ⟨edges, ?_, .refl edges _⟩
    simp only [upsert, hr]
    exact h
  | ok next =>
    obtain ⟨key, hf, hk⟩ := bind_eq_ok.mp hr
    obtain ⟨_, -, hu⟩ := bind_eq_ok.mp hk
    rw [Filter.upsertKey_eq_ok] at hf
    rw [ht] at hu
    obtain ⟨edges', he, hk, hg⟩ := EdgeTree.keyed_upsert h.keyed hf hu
    refine ⟨edges', ?_, hf ▸ hg⟩
    simp only [upsert, hr]
    exact .awake he hk h.writable rfl

theorem Sound.data (h : s.Sound edges) (c : DataCall) :
    ∃ edges', (s.data c).2.Sound edges' ∧ edges.Grown edges' c.writes? := by
  cases c with
  | find f p => exact ⟨edges, h, .refl edges _⟩
  | count f => exact ⟨edges, h, .refl edges _⟩
  | upsert f u options =>
    obtain ⟨engine, disk⟩ := s
    cases engine with
    | tree running => exact h.tree_upsert f u options
    | memory running persistent edges₀ =>
      obtain rfl : edges₀ = edges := h.holds
      exact h.memory_upsert f u options

theorem Sound.start (h : s.Sound edges) : s.start.2.Sound edges := by
  obtain ⟨engine, disk⟩ := s
  cases engine with
  | tree running => exact .awake h.holds h.keyed h.writable rfl
  | memory running persistent edges₀ =>
    cases running with
    | true => exact .awake h.holds h.keyed h.writable rfl
    | false =>
      cases persistent with
      | false => exact .awake h.holds h.keyed h.writable rfl
      | true =>
        rw [Storage.start]
        dsimp only
        cases hl : disk.snapshot.load with
        | error fault => exact h
        | ok edges' => exact .awake (h.reload rfl edges' hl) h.keyed h.writable rfl

/-- The last thing done to the snapshot of a resting engine is that its edges were saved. -/
theorem Sound.stop (h : s.Sound edges) (hs : s.CanSave .stop) : s.stop.2.Sound edges := by
  obtain ⟨engine, disk⟩ := s
  cases engine with
  | tree running => cases running <;> exact .awake h.holds h.keyed h.writable rfl
  | memory running persistent edges₀ =>
    obtain rfl : edges₀ = edges := h.holds
    cases running with
    | false => exact h
    | true =>
      cases persistent with
      | false => exact .awake rfl h.keyed h.writable rfl
      | true =>
        refine ⟨rfl, h.keyed, (disk.snapshot.writable_save edges₀).trans h.writable, ?_⟩
        intro _ edges' hl
        exact SnapshotFile.load_save h.writable (hs rfl edges₀ rfl) hl

theorem Sound.flush (h : s.Sound edges) : s.flush.2.Sound edges := by
  obtain ⟨engine, disk⟩ := s
  cases engine with
  | tree running => cases running <;> exact .awake h.holds h.keyed h.writable rfl
  | memory running persistent edges₀ =>
    cases running with
    | false => exact h
    | true =>
      cases persistent with
      | false => exact .awake h.holds h.keyed h.writable rfl
      | true =>
        have hw := (disk.snapshot.writable_save edges₀).trans h.writable
        exact .awake h.holds h.keyed hw rfl

/-- What one call preserves, and how the edges grow by it. -/
theorem Sound.call (h : s.Sound edges) (c : StorageCall) (hs : s.CanSave c) :
    ∃ edges', (s.call c).2.Sound edges' ∧ edges.Grown edges' c.writes? := by
  cases c with
  | data c => exact h.data c
  | start => exact ⟨edges, h.start, .refl edges _⟩
  | stop => exact ⟨edges, h.stop hs, .refl edges _⟩
  | flush => exact ⟨edges, h.flush, .refl edges _⟩

theorem Reachable.sound (h : s.Reachable) : ∃ edges, s.Sound edges := by
  induction h with
  | blank h => exact ⟨∅, h.sound⟩
  | call _ c hs ih =>
    obtain ⟨edges, hh⟩ := ih
    obtain ⟨edges', hh', -⟩ := hh.call c hs
    exact ⟨edges', hh'⟩

/-- An edge is read with the endpoints and the key of the one that was written. -/
theorem Sound.stored?_keyedBy (h : s.Sound edges) (hr : s.stored? key = some (.ok e)) :
    e.KeyedBy key := by
  obtain ⟨engine, disk⟩ := s
  cases engine with
  | memory running persistent edges₀ =>
    obtain rfl : edges₀ = edges := h.holds
    obtain ⟨e₀, hg, he⟩ := Option.map_eq_some_iff.mp hr
    cases he
    exact h.keyed key e hg
  | tree running =>
    have ht : disk.tree = .ofEdges edges := h.holds
    obtain ⟨bytes, hb, hd⟩ := Option.map_eq_some_iff.mp hr
    rw [ht, EdgeTree.ofEdges, Ascending.get?_mapValues] at hb
    obtain ⟨e₀, hg, rfl⟩ := Option.map_eq_some_iff.mp hb
    have hk := h.keyed key e₀ hg
    exact hk.of_bare (Edge.bare_of_decode hk.short hd)

/-- In every reachable state every edge stands under the key of its endpoints, also as it is read
from its bytes. No call removes an edge or gives it another identity, and only an upsert adds one,
under the key of its filter. -/
theorem reachable_unique (h : s.Reachable) :
    ∃ edges, s.Holds edges ∧ edges.Keyed ∧ edges.OnePerPair ∧
      (∀ key e, s.stored? key = some (.ok e) → e.KeyedBy key) ∧
      ∀ c, s.CanSave c → ∃ edges', (s.call c).2.Holds edges' ∧ edges.Grown edges' c.writes? := by
  obtain ⟨edges, hs⟩ := h.sound
  refine ⟨edges, hs.holds, hs.keyed, hs.keyed.onePerPair, fun key e => hs.stored?_keyedBy, ?_⟩
  intro c hc
  obtain ⟨edges', hs', hg⟩ := hs.call c hc
  exact ⟨edges', hs'.holds, hg⟩

/-- An upsert that makes an edge. -/
def sampleUpsert : StorageCall :=
  let a : NodeId := .ofByte 0xaa
  let key : Filter := { src := some a, dest := some a, uniqueIndex := some (pairKey a a) }
  .data (.upsert key {} { upsert := true })

/-- A memory engine with an edge in its snapshot, started again. -/
def sampleRestarted : Storage :=
  [.start, sampleUpsert, .stop, .start].foldl (fun s c => (s.call c).2)
    { engine := .memory false true ∅, disk := {} }

set_option maxRecDepth 8000 in
theorem reachable_unique_sample : sampleRestarted.Reachable ∧
    ∃ edges, sampleRestarted.Holds edges ∧ edges.Keyed ∧ edges.values.length = 1 := by
  have h₀ : Reachable ⟨.memory false true ∅, {}⟩ := .blank ⟨rfl, rfl, rfl⟩
  have h₁ := h₀.call .start (canSave_of_ne (by simp))
  have h₂ := h₁.call sampleUpsert (canSave_of_ne (by simp [sampleUpsert]))
  have h₃ := h₂.call .stop (by
    intro _ edges he
    cases he
    decide)
  have h : sampleRestarted.Reachable := h₃.call .start (canSave_of_ne (by simp))
  have hl : ∀ edges, sampleRestarted.Holds edges → edges.values.length = 1 := by
    intro edges hh
    cases hh
    decide
  obtain ⟨edges, hh, hk, -⟩ := reachable_unique h
  exact ⟨h, edges, hh, hk, hl edges hh⟩

end Storage
end PropertyGraph
