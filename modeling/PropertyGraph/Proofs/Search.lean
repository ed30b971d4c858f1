import PropertyGraph.Operation
import PropertyGraph.Proofs.Place

/-! What a search finds depends on the edges alone, not on the way they are looked up. -/
namespace PropertyGraph

variable {s : Storage} {edges : Edges} {e : Edge} {key : String} {f : Filter} {src dest : NodeId}

namespace Filter

/-- The filter with the key of a pair in it. -/
def pinned (f : Filter) (src dest : NodeId) : Filter :=
  { f with uniqueIndex := some (pairKey src dest) }

def unpinned (f : Filter) : Filter := { f with uniqueIndex := none }

/-- Of an edge at its place the key of a pair says no more than the endpoints do. -/
theorem accepts_pinned (he : e.KeyedBy key) (hs : f.src = some src) (hd : f.dest = some dest)
    (hk : f.uniqueIndex = none) : (f.pinned src dest).accepts e = f.accepts e := by
  have hu : e.uniqueIndex = pairKey e.src e.dest := he.own.trans he.made
  simp only [accepts, pinned, hs, hd, hk, hu, Option.all_some, Option.all_none, Bool.and_true]
  by_cases hse : src = e.src
  · by_cases hde : dest = e.dest
    · simp [hse, hde]
    · simp [beq_false_of_ne hde]
  · simp [beq_false_of_ne hse]

end Filter

/-- A search that was compiled looks under a key only if that is the key of its endpoints. -/
theorem Descriptor.filter_of_compile {d : Descriptor} {op : Operation} (h : d.compile = .ok op)
    (ht : op.target = .many) : op.filter = op.filter.unpinned ∨
      ∃ src dest, op.filter.src = some src ∧ op.filter.dest = some dest ∧
        op.filter = op.filter.unpinned.pinned src dest := by
  rw [compile] at h
  split at h
  · rw [search] at h
    split at h
    · cases h
    · cases h
      cases hs : d.src with
      | none => exact .inl rfl
      | some src =>
        cases hd : d.dest with
        | none => exact .inl rfl
        | some dest => exact .inr ⟨src, dest, rfl, rfl, rfl⟩
  · rw [single] at h
    split at h
    · cases h
    · cases h
    · cases h
      cases ht

namespace Edges

theorem Keyed.keyedBy_of_mem (h : edges.Keyed) (he : e ∈ edges.values) : ∃ key, e.KeyedBy key := by
  obtain ⟨key, hk⟩ := Ascending.get?_of_mem_values he
  exact ⟨key, h key e hk⟩

theorem Keyed.map_uniqueIndex (h : edges.Keyed) :
    edges.values.map Edge.uniqueIndex = edges.keys := by
  rw [Ascending.values, Ascending.keys, List.map_map]
  apply List.map_congr_left
  rintro ⟨key, e⟩ he
  exact (h key e ((Ascending.mem_toList_iff edges key e).mp he)).own

theorem Keyed.pairwise (h : edges.Keyed) :
    edges.values.Pairwise (·.uniqueIndex < ·.uniqueIndex) := by
  have hk : (edges.values.map Edge.uniqueIndex).Pairwise (· < ·) := by
    rw [h.map_uniqueIndex]
    exact edges.pairwise_keys
  exact List.pairwise_map.mp hk

/-- Projected edges have lost their keys, but not the endpoints that tell them. -/
theorem Keyed.pairwise_projected (h : edges.Keyed) (f : Filter) (p : Projection) :
    ((edges.values.filter f.accepts).map p.apply).Pairwise fun a b =>
      pairKey a.src a.dest < pairKey b.src b.dest := by
  have hm : ∀ e ∈ edges.values.filter f.accepts, pairKey e.src e.dest = e.uniqueIndex := by
    intro e he
    obtain ⟨key, hk⟩ := h.keyedBy_of_mem (List.mem_filter.mp he).1
    exact hk.made.symm.trans hk.own.symm
  rw [List.pairwise_map]
  refine (h.pairwise.filter f.accepts).imp_of_mem fun {a b} ha hb hlt => ?_
  change pairKey a.src a.dest < pairKey b.src b.dest
  rw [hm a ha, hm b hb]
  exact hlt

theorem Keyed.filter_pinned (h : edges.Keyed) (hs : f.src = some src) (hd : f.dest = some dest)
    (hk : f.uniqueIndex = none) :
    edges.values.filter (f.pinned src dest).accepts = edges.values.filter f.accepts := by
  apply List.filter_congr
  intro e he
  obtain ⟨key, hek⟩ := h.keyedBy_of_mem he
  exact Filter.accepts_pinned hek hs hd hk

end Edges

namespace Storage

/-- A search that goes through every edge, also if its filter has a key. -/
def scan (s : Storage) (f : Filter) (p : Projection) : Except StoreError (List ProjectedEdge) := do
  s.requireRunning
  match s.engine with
  | .memory _ _ edges => return (edges.values.filter f.accepts).map p.apply
  | .tree _ => return (← s.disk.tree.accepted f).map p.apply

/-- The stored edges, each as it is read under its key. -/
def Reads (s : Storage) (edges : Edges) : Prop :=
  ∀ key, s.stored? key = (edges.get? key).map .ok

theorem Reads.cases (h : s.Reads edges) (hr : s.engine.running = true) :
    (∃ persistent, s.engine = .memory true persistent edges) ∨
      (s.engine = .tree true ∧ s.disk.tree.Reads edges) := by
  obtain ⟨engine, disk⟩ := s
  cases engine with
  | memory running persistent edges₀ =>
    obtain rfl : running = true := hr
    have he : edges₀ = edges := by
      apply Ascending.ext_get?
      intro key
      exact Option.map_injective (fun _ _ he => Except.ok.inj he) (h key)
    exact .inl ⟨persistent, by rw [he]⟩
  | tree running =>
    obtain rfl : running = true := hr
    exact .inr ⟨rfl, EdgeTree.reads_iff.mpr h⟩

theorem Reads.find (h : s.Reads edges) (hr : s.engine.running = true) (f : Filter)
    (p : Projection) : s.find f p = .ok (edges.find f p) := by
  obtain ⟨engine, disk⟩ := s
  obtain ⟨persistent, rfl⟩ | ⟨rfl, ht⟩ := h.cases hr
  · rfl
  · exact ht.find f p

theorem Reads.scan (h : s.Reads edges) (hr : s.engine.running = true) (f : Filter)
    (p : Projection) : s.scan f p = .ok ((edges.values.filter f.accepts).map p.apply) := by
  obtain ⟨engine, disk⟩ := s
  obtain ⟨persistent, rfl⟩ | ⟨rfl, ht⟩ := h.cases hr
  · rfl
  · change (do return (← disk.tree.accepted f).map p.apply) = _
    rw [ht.accepted]
    rfl

theorem Reads.count (h : s.Reads edges) (hr : s.engine.running = true) (f : Filter) :
    s.count f = .ok (edges.count f) := by
  obtain ⟨engine, disk⟩ := s
  obtain ⟨persistent, rfl⟩ | ⟨rfl, ht⟩ := h.cases hr
  · rfl
  · exact ht.count f

theorem reads_of_accepted {disk : Disk} {running : Bool} {es : List Edge}
    (h : disk.tree.accepted f = .ok es) : ∃ edges, Reads ⟨.tree running, disk⟩ edges := by
  obtain ⟨all, ha, -⟩ := bind_eq_ok.mp h
  obtain ⟨edges, hm⟩ := Ascending.exists_mapValues disk.tree (mapM_eq_ok.mp ha)
  exact ⟨edges, EdgeTree.reads_iff.mp hm⟩

/-- A count goes through every edge, so it has an answer only if all of them can be read. -/
theorem reads_of_count {n : Nat} (h : s.count f = .ok n) : ∃ edges, s.Reads edges := by
  obtain ⟨engine, disk⟩ := s
  obtain ⟨_, -, h⟩ := bind_eq_ok.mp h
  cases engine with
  | memory running persistent edges => exact ⟨edges, fun _ => rfl⟩
  | tree running =>
    obtain ⟨es, ha, -⟩ := bind_eq_ok.mp h
    exact reads_of_accepted ha

theorem reads_of_find {p : Projection} {found : List ProjectedEdge} (hk : f.uniqueIndex = none)
    (h : s.find f p = .ok found) : ∃ edges, s.Reads edges := by
  obtain ⟨engine, disk⟩ := s
  obtain ⟨_, -, h⟩ := bind_eq_ok.mp h
  cases engine with
  | memory running persistent edges => exact ⟨edges, fun _ => rfl⟩
  | tree running =>
    change disk.tree.find f p = .ok found at h
    rw [EdgeTree.find, hk] at h
    obtain ⟨es, ha, -⟩ := bind_eq_ok.mp h
    exact reads_of_accepted ha

theorem Sound.keyed_of_reads {edges₀ : Edges} (h : s.Sound edges₀) (hr : s.Reads edges) :
    edges.Keyed := by
  intro key e he
  apply h.stored?_keyedBy
  rw [hr key, he]
  rfl

/-- Edges that every search of an engine is about. -/
structure Searched (s : Storage) (edges : Edges) : Prop where
  find_eq : ∀ f p, s.find f p = .ok ((edges.values.filter f.accepts).map p.apply)
  ascending : edges.values.Pairwise (·.uniqueIndex < ·.uniqueIndex)
  found_ascending : ∀ f p found, s.find f p = .ok found →
    found.Pairwise fun a b => pairKey a.src a.dest < pairKey b.src b.dest
  scan_eq : ∀ f p, s.scan f p = s.find f p
  count_eq : ∀ f p, s.count f = (s.find f p).map List.length
  pinned_eq : ∀ (f : Filter) src dest, f.src = some src → f.dest = some dest →
    f.uniqueIndex = none →
    (∀ p, s.find (f.pinned src dest) p = s.find f p) ∧ s.count (f.pinned src dest) = s.count f
  compiled_eq : ∀ (d : Descriptor) op, d.compile = .ok op → op.target = .many →
    (∀ p, s.find op.filter p = s.find op.filter.unpinned p) ∧
      s.count op.filter = s.count op.filter.unpinned

theorem Reads.searched (h : s.Reads edges) (hr : s.engine.running = true) (hk : edges.Keyed) :
    s.Searched edges := by
  have hf : ∀ f p, s.find f p = .ok ((edges.values.filter f.accepts).map p.apply) := by
    intro f p
    rw [h.find hr, hk.find_eq_scan]
  have hp : ∀ (f : Filter) src dest, f.src = some src → f.dest = some dest →
      f.uniqueIndex = none → (∀ p, s.find (f.pinned src dest) p = s.find f p) ∧
        s.count (f.pinned src dest) = s.count f := by
    intro f src dest hs hd hu
    have he := hk.filter_pinned hs hd hu
    constructor
    · intro p
      rw [hf, hf, he]
    · rw [h.count hr, h.count hr, Edges.count, Edges.count, he]
  refine ⟨hf, hk.pairwise, ?_, ?_, ?_, hp, ?_⟩
  · intro f p found hfound
    rw [hf] at hfound
    cases hfound
    exact hk.pairwise_projected f p
  · intro f p
    rw [h.scan hr, hf]
  · intro f p
    rw [h.count hr, hf, Except.map, List.length_map]
    rfl
  · intro d op hc ht
    obtain hu | ⟨src, dest, hs, hd, hu⟩ := Descriptor.filter_of_compile hc ht
    · rw [← hu]
      exact ⟨fun _ => rfl, rfl⟩
    · have he := hp op.filter.unpinned src dest hs hd rfl
      rw [← hu] at he
      exact he

theorem Sound.reads_or (h : s.Sound edges) :
    s.Reads edges ∨ (s.engine.kind = .tree ∧ ¬ edges.WithinLimits) := by
  obtain ⟨engine, disk⟩ := s
  cases engine with
  | memory running persistent edges₀ =>
    obtain rfl : edges₀ = edges := h.holds
    exact .inl fun _ => rfl
  | tree running =>
    have ht : disk.tree = .ofEdges edges := h.holds
    by_cases hl : edges.WithinLimits
    · refine .inl (EdgeTree.reads_iff.mp ?_)
      rw [ht]
      exact EdgeTree.reads_ofEdges hl
    · exact .inr ⟨rfl, hl⟩

/-- In every reachable state of a running engine each search is about the edges that are read from
it, and about all of them. Only bytes beyond the limits of their format might not be read again,
and then no search through all the edges has an answer. -/
theorem searches_exact (h : s.Reachable) (hr : s.engine.running = true) :
    (∀ edges, s.Reads edges → s.Searched edges) ∧
    (∃ edges, s.Holds edges ∧
      (s.Reads edges ∨ (s.engine.kind = .tree ∧ ¬ edges.WithinLimits))) ∧
    (∀ f n, s.count f = .ok n → ∃ edges, s.Reads edges) ∧
    ∀ (f : Filter) p found, f.uniqueIndex = none → s.find f p = .ok found →
      ∃ edges, s.Reads edges := by
  obtain ⟨edges₀, hs⟩ := h.sound
  refine ⟨?_, ⟨edges₀, hs.holds, hs.reads_or⟩, fun _ _ => reads_of_count,
    fun _ _ _ => reads_of_find⟩
  intro edges he
  exact he.searched hr (hs.keyed_of_reads he)

/-- A tree with an edge in it. -/
def sampleTree : Storage :=
  [.start, sampleUpsert].foldl (fun s c => (s.call c).2) { engine := .tree false, disk := {} }

set_option maxRecDepth 8000 in
theorem searches_exact_sample :
    let a : NodeId := .ofByte 0xaa
    let f : Filter := { src := some a, dest := some a }
    sampleTree.Reachable ∧ sampleTree.engine.running = true ∧
      (∃ edges, sampleTree.Reads edges ∧ sampleTree.Searched edges) ∧
      sampleTree.find f .all = .ok [⟨a, a, none⟩] ∧
      sampleTree.find (f.pinned a a) .all = .ok [⟨a, a, none⟩] := by
  intro a f
  have h₀ : Reachable ⟨.tree false, {}⟩ := .blank ⟨rfl, rfl, rfl⟩
  have h₁ := h₀.call .start (canSave_of_ne (by simp))
  have h : sampleTree.Reachable := h₁.call sampleUpsert (canSave_of_ne (by simp [sampleUpsert]))
  have hr : sampleTree.engine.running = true := rfl
  obtain ⟨hs, -, -, hf⟩ := searches_exact h hr
  have hfound : sampleTree.find f .all = .ok [⟨a, a, none⟩] := by rfl
  obtain ⟨edges, he⟩ := hf f .all _ rfl hfound
  have hp := ((hs edges he).pinned_eq f a a rfl rfl rfl).1 .all
  exact ⟨h, hr, ⟨edges, he, hs edges he⟩, hfound, hp.trans hfound⟩

section Unread
variable {fault : StoreError}

theorem not_reads_of_unread (hs : s.stored? key = some (.error fault)) : ¬ s.Reads edges := by
  intro he
  rw [he key] at hs
  obtain ⟨e, -, hf⟩ := Option.map_eq_some_iff.mp hs
  cases hf

/-- One edge that cannot be read leaves every count without an answer. -/
theorem count_of_unread (hs : s.stored? key = some (.error fault)) (f : Filter) :
    ∃ fault', s.count f = .error fault' := by
  cases hc : s.count f with
  | error fault' => exact ⟨fault', rfl⟩
  | ok n =>
    obtain ⟨edges, he⟩ := reads_of_count hc
    exact absurd he (not_reads_of_unread hs)

theorem find_of_unread (hs : s.stored? key = some (.error fault)) (hk : f.uniqueIndex = none)
    (p : Projection) : ∃ fault', s.find f p = .error fault' := by
  cases hf : s.find f p with
  | error fault' => exact ⟨fault', rfl⟩
  | ok found =>
    obtain ⟨edges, he⟩ := reads_of_find hk hf
    exact absurd he (not_reads_of_unread hs)

/-- Once a tree has taken an edge that it cannot read there is no answer to a search that goes
through all edges, nor to a count, while the other edges are still found by their keys. -/
theorem searches_fail {p : Pair} {slot : Option (Option Properties)} {n : Nat}
    (hr : s.engine.running = true) (ht : s.engine.kind = .tree)
    (hx : s.edge? p.key = .ok (slot.map p.edge)) (hj : slot.join = none)
    (hn : MessagePack.maxDepth < n + 2) :
    let t := (s.upsert p.filter (.deep n) { upsert := true }).2
    (s.upsert p.filter (.deep n) { upsert := true }).1 = .ok none ∧
      (∀ f, ∃ fault, t.count f = .error fault) ∧
      (∀ f P, f.uniqueIndex = none → ∃ fault, t.find f P = .error fault) ∧
      ∀ q, q ≠ p → ∀ P, t.find q.filter P = s.find q.filter P := by
  intro t
  have hu : s.upsert p.filter (.deep n) { upsert := true } =
      (.ok none, s.put p.key (p.edge (some (.deep n)))) := upsert_deep (if_pos hr) hx hj rfl n
  have hput : t = s.put p.key (p.edge (some (.deep n))) := congrArg Prod.snd hu
  have hs : t.stored? p.key = some (.error (.deserialization none)) :=
    hput ▸ stored?_put_deep ht hn p
  refine ⟨congrArg Prod.fst hu, count_of_unread hs, fun f P hk => find_of_unread hs hk P, ?_⟩
  intro q hq P
  have hne : q.key ≠ p.key := fun he => hq (Pair.key_inj he)
  rw [hput, find_eq rfl, find_eq rfl, requireRunning_put, edge?_put_of_ne hne]

end Unread

/-- Of an edge that is not there a search by its key finds nothing, and neither a count nor a search
without the key has an answer. -/
theorem deep_edge_ends_searches :
    let p : Pair := ⟨.ofByte 0xaa, .ofByte 0xbb⟩
    let q : Pair := ⟨.ofByte 0xbb, .ofByte 0xaa⟩
    let u : Update := .deep MessagePack.maxDepth
    let s : Storage := { engine := .tree true, disk := {} }
    let t := (s.upsert p.filter u { upsert := true }).2
    t.Reachable ∧ t.engine.running = true ∧
      (s.upsert p.filter u { upsert := true }).1 = .ok none ∧
      t.find q.filter .all = .ok [] ∧ (∃ fault, t.count q.filter = .error fault) ∧
      ∃ fault, t.find q.filter.unpinned .all = .error fault := by
  intro p q u s t
  have h : s.Reachable := .blank ⟨rfl, rfl, rfl⟩
  have hx : s.edge? p.key = .ok (Option.map p.edge none) := rfl
  obtain ⟨ha, hc, hf, hq⟩ := searches_fail (n := MessagePack.maxDepth) rfl rfl hx rfl (by decide)
  have ht : t.Reachable := h.call (.data (.upsert p.filter u { upsert := true }))
    (canSave_of_ne (by simp))
  have hput : t = s.put p.key (p.edge (some (.deep MessagePack.maxDepth))) :=
    congrArg Prod.snd (upsert_deep rfl hx rfl rfl MessagePack.maxDepth)
  have hrun : t.engine.running = true := by
    rw [hput]
    rfl
  exact ⟨ht, hrun, ha, (hq q (by decide) .all).trans rfl, hc q.filter, hf _ .all rfl⟩

end Storage
end PropertyGraph
