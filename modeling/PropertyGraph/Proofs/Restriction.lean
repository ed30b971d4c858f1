import PropertyGraph.Proofs.Views

/-! A projection to names shows what is stored at them, and nothing else. -/
namespace PropertyGraph

variable {m r selected : Properties} {name : PropertyName} {names : OrderedSet PropertyName}
  {copied rest : List PropertyName} {v : Value} {path ls : List String} {e : Edge}

namespace Properties
open Value

/-- One value written to where it is stored, which might be refused. -/
def copy (m selected : Properties) (name : PropertyName) : Except RequestError Properties :=
  match m.read name with
  | some v => selected.write name v
  | none => .ok selected

/-- Something is stored at one of the names that leads to the path or goes on from it. -/
def Selects (m : Properties) (names : List PropertyName) (path : List String) : Prop :=
  ∃ name ∈ names, (m.read name).isSome ∧ (name.segments <+: path ∨ path <+: name.segments)

/-- What there is to see of a selection when some names have been copied, in whatever order: maps
that are made on the way to a value are where maps are stored. -/
structure Copies (m : Properties) (copied : List PropertyName) (selected : Properties) : Prop where
  shown : ∀ path, m.Selects copied path →
    view (root (some selected)) path = view (root (some m)) path
  hidden : ∀ path, path ≠ [] → ¬ m.Selects copied path → view (root (some selected)) path = none

theorem view_of_onWay (hv : m.read name = some v) (hl : OnWay ls name.segments) :
    view (root (some m)) ls = some (.map ∅) := by
  obtain ⟨⟨js, hs⟩, hne⟩ := hl
  rw [read_eq, ← hs] at hv
  have ha : ((Value.map m).at? ls).bind (·.at? js) = some v := (at?_append _ ls js).symm.trans hv
  obtain ⟨u, hu, hj⟩ := Option.bind_eq_some_iff.mp ha
  cases js with
  | nil => exact absurd (List.append_nil ls ▸ hs) hne
  | cons k js =>
    obtain ⟨inner, rfl⟩ := map_of_at? hj
    exact view_eq_map.mpr ⟨inner, hu⟩

theorem selects_append : m.Selects (copied ++ [name]) path ↔ m.Selects copied path ∨
    (m.read name).isSome ∧ (name.segments <+: path ∨ path <+: name.segments) := by
  simp [Selects, or_and_right, exists_or]

/-- A way to a name with a value leads through maps, in the selection as in what is stored. -/
theorem Copies.passable (h : m.Copies copied selected) (hv : m.read name = some v)
    (hl : OnWay ls name.segments) : Passable (root (some selected)) ls := by
  by_cases hne : ls = []
  · subst hne
    exact .inr rfl
  · by_cases hs : m.Selects copied ls
    · exact .inr ((h.shown ls hs).trans (view_of_onWay hv hl))
    · exact .inl (h.hidden ls hne hs)

/-- Where a value has been copied to, and on the way there, it is seen as it is stored. -/
theorem view_of_copied {node node' : Option Value} (hv : m.read name = some v)
    (h : editRoot node (name, some v) = .ok node')
    (hp : name.segments <+: path ∨ path <+: name.segments) :
    view node' path = view (root (some m)) path := by
  by_cases hb : name.segments <+: path
  · obtain ⟨js, rfl⟩ := hb
    rw [view_append, view_append, ← read_eq, hv, at?_edit h]
  · have hl := (onWay_or_apart hb).resolve_right fun ha => ha.2 (hp.resolve_left hb)
    rw [map_of_edit h hl, view_of_onWay hv hl]

theorem Copies.step_some (h : m.Copies copied selected) (hv : m.read name = some v) :
    ∃ selected', selected.write name v = .ok selected' ∧
      m.Copies (copied ++ [name]) selected' := by
  obtain ⟨selected', hw⟩ := exists_write (fun ls hl => h.passable hv hl) v
  have hn := edit_of_write hw
  have hapart : ∀ path, ¬ (name.segments <+: path ∨ path <+: name.segments) →
      view (root (some selected')) path = view (root (some selected)) path := by
    intro path hp
    exact view_congr (at?_edit_of_apart (not_or.mp hp) hn)
  refine ⟨selected', hw, ?_, ?_⟩
  · intro path hs
    by_cases hp : name.segments <+: path ∨ path <+: name.segments
    · exact view_of_copied hv hn hp
    · rw [hapart path hp]
      exact h.shown path ((selects_append.mp hs).resolve_right fun hs' => hp hs'.2)
  · intro path hne hs
    rw [selects_append, not_or] at hs
    obtain ⟨hs, hn⟩ := hs
    rw [hapart path fun hp => hn ⟨by rw [hv]; rfl, hp⟩]
    exact h.hidden path hne hs

theorem Copies.step_none (h : m.Copies copied selected) (hv : m.read name = none) :
    m.Copies (copied ++ [name]) selected := by
  have hs : ∀ path, m.Selects (copied ++ [name]) path ↔ m.Selects copied path := by
    intro path
    rw [selects_append, hv]
    simp
  exact ⟨fun path hp => h.shown path ((hs path).mp hp),
    fun path hne hp => h.hidden path hne fun hp' => hp ((hs path).mpr hp')⟩

theorem Copies.step (h : m.Copies copied selected) (name : PropertyName) :
    ∃ selected', m.copy selected name = .ok selected' ∧ m.Copies (copied ++ [name]) selected' := by
  rw [copy]
  cases hv : m.read name with
  | none => exact ⟨selected, rfl, h.step_none hv⟩
  | some v => exact h.step_some hv

theorem Copies.run (h : m.Copies copied selected) (rest : List PropertyName) :
    ∃ r, rest.foldlM m.copy selected = .ok r ∧ m.Copies (copied ++ rest) r := by
  induction rest generalizing copied selected with
  | nil => exact ⟨selected, rfl, by rwa [List.append_nil]⟩
  | cons name rest ih =>
    obtain ⟨selected', hc, h'⟩ := h.step name
    obtain ⟨r, hr, hcopies⟩ := ih h'
    rw [List.append_assoc] at hcopies
    refine ⟨r, ?_, hcopies⟩
    rw [List.foldlM_cons, hc]
    exact hr

theorem copies_nil (m : Properties) : m.Copies [] ∅ := by
  constructor
  · rintro path ⟨name, hn, -⟩
    cases hn
  · intro path hne _
    cases path with
    | nil => exact absurd rfl hne
    | cons k ks => rfl

/-- A projection passes over writes that fail, but none does. -/
theorem restrict_of_foldlM (h : names.keys.foldlM m.copy ∅ = .ok r) : m.restrict names = r := by
  rw [restrict]
  generalize names.keys = rest at h
  generalize (∅ : Properties) = selected at h ⊢
  induction rest generalizing selected with
  | nil =>
    cases h
    rfl
  | cons name rest ih =>
    rw [List.foldlM_cons] at h
    obtain ⟨selected', hc, h⟩ := bind_eq_ok.mp h
    rw [List.foldl_cons, ← ih selected' h]
    rw [copy] at hc
    cases hv : m.read name with
    | none =>
      rw [hv] at hc
      cases hc
      rfl
    | some v =>
      rw [hv] at hc
      simp only [write] at hc
      split at hc
      · next hw =>
        cases hc
        simp only [hw, Option.getD_some]
      · cases hc

/-- What is read of a selection: the values at its names, maps on the way to them, nothing else. -/
structure Restricts (m : Properties) (names : OrderedSet PropertyName) (r : Properties) : Prop where
  named : ∀ path, (∃ name ∈ names.keys, name.segments <+: path) → r.at? path = m.at? path
  onWay : ∀ path, path ≠ [] →
    (∃ name ∈ names.keys, OnWay path name.segments ∧ (m.read name).isSome) →
    ∃ inner, r.at? path = some (.map inner)
  hidden : ∀ path, (∀ name ∈ names.keys, ¬ name.segments <+: path) →
    (∀ name ∈ names.keys, OnWay path name.segments → m.read name = none) → r.at? path = none

theorem Copies.restricts (h : m.Copies names.keys r) : m.Restricts names r := by
  constructor
  · rintro path ⟨name, hn, hp⟩
    have hne : path ≠ [] := by
      rintro rfl
      exact name.segments_ne_nil (List.prefix_nil.mp hp)
    have hv : (root (some r)).bind (·.at? path) = (root (some m)).bind (·.at? path) := by
      refine view_inj fun js => ?_
      rw [← view_append, ← view_append]
      have hp' := hp.trans (List.prefix_append path js)
      by_cases hs : m.Selects names.keys (path ++ js)
      · exact h.shown _ hs
      · rw [h.hidden _ (by simp [hne]) hs]
        obtain ⟨ls, he⟩ := hp'
        cases hr : m.read name with
        | none =>
          rw [read_eq] at hr
          rw [← he, view_append, hr]
          rfl
        | some v => exact absurd ⟨name, hn, by rw [hr]; rfl, .inl ⟨ls, he⟩⟩ hs
    rw [at?_eq hne, at?_eq hne]
    exact hv
  · rintro path hne ⟨name, hn, hl, hv⟩
    obtain ⟨v, hv'⟩ := Option.isSome_iff_exists.mp hv
    rw [at?_eq hne]
    exact view_eq_map.mp ((h.shown path ⟨name, hn, hv, .inr hl.1⟩).trans (view_of_onWay hv' hl))
  · intro path hn hl
    by_cases hne : path = []
    · subst hne
      rfl
    · rw [at?_eq hne]
      refine view_eq_none.mp (h.hidden path hne ?_)
      rintro ⟨name, hk, hv, hp | hp⟩
      · exact hn name hk hp
      · rcases onWay_or_apart (hn name hk) with hw | ha
        · rw [hl name hk hw] at hv
          cases hv
        · exact ha.2 hp

/-- What a selection shows of the names is stored, so that nothing is lost by selecting again. -/
theorem restrict_restrict (h : m.Copies names.keys r) : r.restrict names = r := by
  obtain ⟨r', hr, h'⟩ := r.copies_nil.run names.keys
  rw [restrict_of_foldlM hr]
  refine eq_of_views fun path => ?_
  by_cases hne : path = []
  · subst hne
    rfl
  · by_cases hs : r.Selects names.keys path
    · exact h'.shown path hs
    · rw [h'.hidden path hne hs, h.hidden path hne]
      rintro ⟨name, hn, hv, hp⟩
      have hr : r.read name = m.read name := h.restricts.named _ ⟨name, hn, List.prefix_refl _⟩
      exact hs ⟨name, hn, hr ▸ hv, hp⟩

end Properties

namespace Projection

/-- No value is refused its place in the projection, whatever the names have in common: what leads
to it was a map where it is stored. -/
theorem props_exact (h : e.props = some m) (names : OrderedSet PropertyName) :
    let r := m.restrict names
    (Projection.props names).apply e = { src := e.src, dest := e.dest, props := some r } ∧
      names.keys.foldlM m.copy ∅ = .ok r ∧ m.Restricts names r ∧
      (Projection.props names).apply { e with props := some r } =
        (Projection.props names).apply e := by
  intro r
  obtain ⟨r', hr, hc⟩ := m.copies_nil.run names.keys
  obtain rfl : r = r' := Properties.restrict_of_foldlM hr
  have hap : (Projection.props names).apply e =
      { src := e.src, dest := e.dest, props := some r } := by
    rw [apply, h]
    rfl
  refine ⟨hap, hr, hc.restricts, ?_⟩
  rw [hap, apply]
  exact congrArg (fun m => ProjectedEdge.mk e.src e.dest (some m)) (Properties.restrict_restrict hc)

def sampleStored : Properties :=
  OrderedMap.ofList [("age", .int 3), ("home", .map (OrderedMap.ofList [("city", .str "x"),
    ("zip", .int 1)])), ("tags", .arr [.null])]

/-- A name inside another one, one through an array, and one of nothing. -/
def sampleNames : OrderedSet PropertyName :=
  OrderedSet.ofList [⟨"home.zip", by decide, by decide⟩, ⟨"home", by decide, by decide⟩,
    ⟨"tags.first", by decide, by decide⟩, ⟨"work.zip", by decide, by decide⟩]

set_option maxRecDepth 8000 in
theorem props_exact_sample :
    let e : Edge := { Edge.new (.ofByte 0xee) (.ofByte 0xee) with props := some sampleStored }
    let r := sampleStored.restrict sampleNames
    e.props = some sampleStored ∧ sampleStored.Restricts sampleNames r ∧
      r = OrderedMap.ofList [("home", .map (OrderedMap.ofList [("city", .str "x"),
        ("zip", .int 1)]))] := by
  intro e r
  obtain ⟨-, -, hr, -⟩ := props_exact (e := e) rfl sampleNames
  exact ⟨rfl, hr, by decide +kernel⟩

end Projection

end PropertyGraph
