import PropertyGraph.Proofs.Run
import PropertyGraph.Proofs.Serving

/-! The two engines cannot be told apart by calls on their edges. -/
namespace PropertyGraph.Storage

variable {s t m : Storage} {edges : Edges}

/-- What can be read can also be read again once it is written as bytes. -/
def WithinLimits (s : Storage) : Prop := ∀ key e, s.stored? key = some (.ok e) → e.WithinLimits

/-- Engines of both kinds that hold the same edges. -/
def Alike (t m : Storage) : Prop := ∃ edges, t.Serves .tree edges ∧ m.Serves .memory edges

theorem Serves.withinLimits_iff (h : s.Serves .memory edges) :
    s.WithinLimits ↔ edges.WithinLimits := by
  constructor
  · intro hl e he
    obtain ⟨key, hk⟩ := Ascending.get?_of_mem_values he
    refine hl key e ?_
    rw [h.memory_stored?, hk]
    rfl
  · intro hl key e hk
    rw [h.memory_stored?, Option.map_eq_some_iff] at hk
    obtain ⟨e', he, hok⟩ := hk
    cases hok
    exact hl e (Ascending.mem_values_of_get? he)

theorem Serves.run (h : s.Serves .memory edges) (calls : List DataCall) :
    (runCalls Storage.data s calls).2.Serves .memory (runCalls Edges.data edges calls).2 := by
  have hstep : ∀ s edges c, Serves s .memory edges → True → True →
      (s.data c).1 = (edges.data c).1 ∧ (s.data c).2.Serves .memory (edges.data c).2 :=
    fun s edges c h _ _ => h.memory_data c
  exact (runCalls_agree hstep calls h fun _ _ => trivial).2

theorem Alike.stored? (h : t.Alike m) (hl : m.WithinLimits) (key : String) :
    t.stored? key = m.stored? key := by
  obtain ⟨edges, ht, hm⟩ := h
  have he := hm.withinLimits_iff.mp hl
  rw [ht.tree_stored? he, hm.memory_stored?]

/-- One call on both engines; the edges in memory tell whether those of the tree can be read. -/
theorem Alike.data (h : t.Alike m) (hl : m.WithinLimits) (c : DataCall) :
    (t.data c).1 = (m.data c).1 ∧ (t.data c).2.Alike (m.data c).2 := by
  obtain ⟨edges, ht, hm⟩ := h
  have he := hm.withinLimits_iff.mp hl
  obtain ⟨hta, hts⟩ := ht.tree_data he c
  obtain ⟨hma, hms⟩ := hm.memory_data c
  exact ⟨hta.trans hma.symm, (edges.data c).2, hts, hms⟩

theorem Alike.run (h : t.Alike m) (calls : List DataCall)
    (hl : ∀ before, before <+: calls → (runCalls Storage.data m before).2.WithinLimits) :
    (runCalls Storage.data t calls).1 = (runCalls Storage.data m calls).1 ∧
      (runCalls Storage.data t calls).2.Alike (runCalls Storage.data m calls).2 :=
  runCalls_agree (fun _ _ c h hl _ => h.data hl c) calls h hl

/-- Engines of both kinds, started without edges, give the same answers to the same calls, and
after every one of them the same edges are read from both. -/
theorem engines_agree (ht : t.Serves .tree ∅) (hm : m.Serves .memory ∅) (calls : List DataCall)
    (limits : ∀ before, before <+: calls → (runCalls data m before).2.WithinLimits) :
    (runCalls data t calls).1 = (runCalls data m calls).1 ∧
      ∀ before, before <+: calls → ∀ key,
        (runCalls data t before).2.stored? key = (runCalls data m before).2.stored? key := by
  have h : t.Alike m := ⟨∅, ht, hm⟩
  refine ⟨(h.run calls limits).1, fun before hb key => ?_⟩
  have hl : ∀ b, b <+: before → (runCalls data m b).2.WithinLimits :=
    fun b hp => limits b (hp.trans hb)
  exact (h.run before hl).2.stored? (limits before hb) key

/-- An upsert that makes an edge, one that is rejected, and a count. -/
def sampleCalls : List DataCall :=
  let a : NodeId := .ofByte 0xaa
  let key : Filter := { src := some a, dest := some a, uniqueIndex := some (pairKey a a) }
  let x : PropertyName := ⟨"x", by decide, by decide⟩
  let xy : PropertyName := ⟨"x.y", by decide, by decide⟩
  let nan : Value := .float ⟨0x7ff8000000000001⟩
  [.upsert key { assign := .ofList [(x, nan)] } { upsert := true, returnDocument := true },
    .upsert key { assign := .ofList [(xy, .null)] } { upsert := true },
    .count { props := [(x, .ops [.present true])] }]

set_option maxRecDepth 4000 in
theorem engines_agree_sample :
    let t : Storage := { engine := .tree true, disk := {} }
    let m : Storage := { engine := .memory true false ∅, disk := {} }
    t.Serves .tree ∅ ∧ m.Serves .memory ∅ ∧
      (runCalls data t sampleCalls).1 = (runCalls data m sampleCalls).1 ∧
      ∀ key, (runCalls data t sampleCalls).2.stored? key =
        (runCalls data m sampleCalls).2.stored? key := by
  intro t m
  have ht : t.Serves .tree ∅ := ⟨rfl, rfl, rfl⟩
  have hm : m.Serves .memory ∅ := ⟨rfl, rfl, rfl⟩
  have hl : ∀ n ≤ 3, (runCalls Edges.data ∅ (sampleCalls.take n)).2.WithinLimits := by decide
  have limits : ∀ before, before <+: sampleCalls → (runCalls data m before).2.WithinLimits := by
    intro before hb
    rw [List.prefix_iff_eq_take.mp hb]
    exact (hm.run _).withinLimits_iff.mpr (hl _ hb.length_le)
  obtain ⟨ha, hk⟩ := engines_agree ht hm sampleCalls limits
  exact ⟨ht, hm, ha, hk sampleCalls List.prefix_rfl⟩

end PropertyGraph.Storage
