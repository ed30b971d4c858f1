import PropertyGraph.Edges
import PropertyGraph.Proofs.Edge.Identity

/-! Edges that stand under their own keys, one for each pair of endpoints. -/
namespace PropertyGraph

variable {edges edges' : Edges} {e : Edge} {key : String} {f : Filter} {u : Update}
  {options : UpsertOptions}

theorem Filter.upsertKey_eq_ok : f.upsertKey = .ok key ↔ f.uniqueIndex = some key := by
  rw [upsertKey]
  cases f.uniqueIndex <;> simp

namespace Edges

/-- Every edge is at its place. -/
def Keyed (edges : Edges) : Prop := ∀ key e, edges.get? key = some e → e.KeyedBy key

/-- No two edges have the same endpoints. -/
def OnePerPair (edges : Edges) : Prop := ∀ key e key' e',
  edges.get? key = some e → edges.get? key' = some e' → e.src = e'.src → e.dest = e'.dest →
    key = key'

theorem Keyed.onePerPair (h : edges.Keyed) : edges.OnePerPair :=
  fun key e key' e' hg hg' hs hd => (h key e hg).unique (h key' e' hg') hs hd

/-- With every edge at its place it makes no difference that a filter with a key is looked up. -/
theorem Keyed.find_eq_scan (h : edges.Keyed) (f : Filter) (p : Projection) :
    edges.find f p = (edges.values.filter f.accepts).map p.apply := by
  rw [find]
  cases hf : f.uniqueIndex with
  | none => rfl
  | some key =>
    have hk : ∀ entry ∈ edges.toList, f.accepts entry.2 = true → entry.1 = key := by
      rintro ⟨key', e⟩ he ha
      have ho := (h key' e ((Ascending.mem_toList_iff edges key' e).mp he)).own
      simp only [Filter.accepts, hf, Option.all_some, Bool.and_eq_true, beq_iff_eq] at ha
      exact ho.symm.trans ha.1.2.symm
    rw [Ascending.filter_values_of_key hk]

/-- Edges that came from others by a call that may write under one key alone. -/
structure Grown (edges edges' : Edges) (key? : Option String) : Prop where
  kept : ∀ key e, edges.get? key = some e → ∃ e', edges'.get? key = some e' ∧ e'.bare = e.bare
  others : ∀ key, key? ≠ some key → edges'.get? key = edges.get? key
  size_le : edges'.values.length ≤ edges.values.length + 1

theorem Grown.refl (edges : Edges) (key? : Option String) : edges.Grown edges key? :=
  ⟨fun _ e h => ⟨e, h, rfl⟩, fun _ _ => rfl, Nat.le_succ _⟩

theorem Keyed.insert (h : edges.Keyed) (he : e.KeyedBy key) : Keyed (edges.insert key e) := by
  intro key' e' hg
  rw [OrderedMap.get?_insert] at hg
  split at hg
  · next hk =>
    cases hg
    exact hk ▸ he
  · exact h key' e' hg

theorem grown_insert (h : ∀ e₀, edges.get? key = some e₀ → e.bare = e₀.bare) :
    edges.Grown (edges.insert key e) (some key) where
  kept key' e' hg := by
    by_cases hk : key' = key
    · subst hk
      exact ⟨e, by simp [OrderedMap.get?_insert], h e' hg⟩
    · exact ⟨e', by simp [OrderedMap.get?_insert, hk, hg], rfl⟩
  others key' hk := by
    have hne : key' ≠ key := fun heq => hk (congrArg some heq.symm)
    rw [OrderedMap.get?_insert, if_neg hne]
  size_le := by
    have hl := OrderedMap.length_insert_le edges key e
    simpa [Ascending.values] using hl

/-- The edge that an upsert found may differ from the one that is there in its properties. -/
theorem Keyed.written {existing : Option Edge} (h : edges.Keyed) (hf : f.uniqueIndex = some key)
    (hx : existing.map Edge.bare = (edges.get? key).map Edge.bare)
    (hr : resolveUpsert existing f u options = .ok (some e)) :
    Keyed (edges.insert key e) ∧ edges.Grown (edges.insert key e) (some key) := by
  have hk : ∀ e₁, existing = some e₁ → e₁.KeyedBy key := by
    rintro e₁ rfl
    obtain ⟨e₀, hg, hb⟩ := Option.map_eq_some_iff.mp hx.symm
    exact (h key e₀ hg).of_bare hb.symm
  refine ⟨h.insert (resolveUpsert_keyedBy hf hk hr), grown_insert fun e₀ hg => ?_⟩
  rw [hg] at hx
  obtain ⟨e₁, rfl, hb⟩ := Option.map_eq_some_iff.mp hx
  exact (resolveUpsert_bare hr).trans hb

theorem Keyed.upsert {answer : Option ProjectedEdge} (h : edges.Keyed)
    (hf : f.uniqueIndex = some key)
    (hu : edges.upsert key f u options = .ok (answer, edges')) :
    edges'.Keyed ∧ edges.Grown edges' (some key) := by
  obtain ⟨next, hr, hu⟩ := bind_eq_ok.mp hu
  cases next with
  | none =>
    cases hu
    exact ⟨h, .refl edges _⟩
  | some e =>
    cases hu
    exact h.written hf rfl hr

end Edges

end PropertyGraph
