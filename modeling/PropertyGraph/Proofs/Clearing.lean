import PropertyGraph.Proofs.AssignedPaths

/-! What is left of properties from which names were cleared, in whatever order. -/
namespace PropertyGraph

variable {e e' : Edge} {u : Update} {m r : Properties} {name : PropertyName} {ls path : List String}
  {names order : List PropertyName}

namespace Properties
open Value

theorem view_unset (m : Properties) (name : PropertyName) (ls : List String) :
    view (root (some (m.unset name))) ls =
      if name.segments <+: ls then none else view (root (some m)) ls := by
  have h : edit (.pathConflict name.text) none name.segments (root (some m)) =
      .ok (root (some (m.unset name))) := editRoot_unset m name
  split
  · next hp =>
    obtain ⟨js, rfl⟩ := hp
    exact view_eq_none.mpr (at?_edit_append h js)
  · next hp => exact view_edit_none h hp

/-- A name takes away the same whether it comes early or late. -/
theorem view_foldl_unset (names : List PropertyName) (m : Properties) (ls : List String) :
    view (root (some (names.foldl unset m))) ls =
      if ∃ name ∈ names, name.segments <+: ls then none else view (root (some m)) ls := by
  induction names generalizing m with
  | nil => simp
  | cons name names ih =>
    rw [List.foldl_cons, ih, view_unset]
    by_cases hp : name.segments <+: ls <;> simp [hp]

/-- Of a value that is no map all is seen. -/
theorem view_eq_value {node : Option Value} {w : Value} (hw : ∀ inner, w ≠ .map inner) :
    view node ls = some w ↔ node.bind (·.at? ls) = some w := by
  rw [view]
  cases node.bind (·.at? ls) with
  | none => simp
  | some u => cases u <;> simp_all [bare, eq_comm]

theorem foldl_unset_congr (h : ∀ name, name ∈ order ↔ name ∈ names) (m : Properties) :
    order.foldl unset m = names.foldl unset m := by
  refine eq_of_views fun ls => ?_
  rw [view_foldl_unset, view_foldl_unset]
  simp only [h]

/-- What is read of properties from which some names were cleared. -/
structure Clears (names : List PropertyName) (m r : Properties) : Prop where
  gone : ∀ path, (∃ name ∈ names, name.segments <+: path) → r.at? path = none
  /-- On the way to a name a map stays a map, also an empty one. -/
  maps : ∀ path, (∀ name ∈ names, ¬ name.segments <+: path) →
    (∃ name ∈ names, OnWay path name.segments) →
    ((∃ inner, r.at? path = some (.map inner)) ↔ ∃ inner, m.at? path = some (.map inner))
  /-- A value that is no map stays as it is, also if it is on the way to a name. -/
  values : ∀ path, (∀ name ∈ names, ¬ name.segments <+: path) →
    (∃ name ∈ names, OnWay path name.segments) →
    ∀ w, (∀ inner, w ≠ .map inner) → (r.at? path = some w ↔ m.at? path = some w)
  elsewhere : ∀ path, (∀ name ∈ names, ¬ name.segments <+: path) →
    (∀ name ∈ names, ¬ OnWay path name.segments) → r.at? path = m.at? path

theorem clears_foldl_unset (names : List PropertyName) (m : Properties) :
    m.Clears names (names.foldl unset m) := by
  have hseen : ∀ path, (∀ name ∈ names, ¬ name.segments <+: path) →
      view (root (some (names.foldl unset m))) path = view (root (some m)) path := by
    intro path hn
    rw [view_foldl_unset, if_neg]
    rintro ⟨name, hk, hp⟩
    exact hn name hk hp
  refine ⟨?_, ?_, ?_, ?_⟩
  · rintro path ⟨name, hk, hp⟩
    have hne : path ≠ [] := by
      rintro rfl
      exact name.segments_ne_nil (List.prefix_nil.mp hp)
    rw [at?_eq hne]
    refine view_eq_none.mp ((view_foldl_unset names m path).trans ?_)
    exact if_pos ⟨name, hk, hp⟩
  · intro path hn _
    rcases eq_or_ne path [] with rfl | hne
    · rfl
    · rw [at?_eq hne, at?_eq hne]
      exact view_eq_map.symm.trans ((hseen path hn).congr_left.trans view_eq_map)
  · intro path hn _ w hw
    rcases eq_or_ne path [] with rfl | hne
    · rfl
    · rw [at?_eq hne, at?_eq hne]
      exact (view_eq_value hw).symm.trans ((hseen path hn).congr_left.trans (view_eq_value hw))
  · intro path hn hl
    rcases eq_or_ne path [] with rfl | hne
    · rfl
    · rw [at?_eq hne, at?_eq hne]
      refine PairEdit.at?_foldlM_editRoot (fun w hw => ?_) (foldlM_editRoot_unset m names)
      obtain ⟨name, hk, rfl⟩ := List.mem_map.mp hw
      exact (onWay_or_apart (hn name hk)).resolve_left (hl name hk)

end Properties

namespace Update

theorem cleared_of_paths {names : OrderedSet PropertyName} (hc : u.clear = .paths names)
    (ho : ∀ name, name ∈ order ↔ name ∈ names.keys) (e : Edge) :
    u.cleared e = { e with props := e.props.map fun m => order.foldl Properties.unset m } := by
  simp only [cleared, hc, Properties.foldl_unset_congr ho]

theorem assigned_of_apply (h : u.apply e = (.ok (), e')) :
    ∃ e₁, u.assigned e = (.ok (), e₁) ∧ e' = u.cleared e₁ := by
  rw [apply] at h
  rcases hu : u.assigned e with ⟨_ | _, e₁⟩
  · rw [hu] at h
    cases h
  · rw [hu] at h
    cases h
    exact ⟨e₁, rfl, rfl⟩

/-- To clear names is to take away what is at them and nothing else. It never fails, it comes behind
all that is assigned, and it may go through the names in any order. -/
theorem clears_exactly (names : OrderedSet PropertyName) :
    (∀ (e : Edge) m, e.props = some m → ∃ r,
      apply { clear := .paths names } e = (.ok (), { e with props := some r }) ∧
        m.Clears names.keys r) ∧
    (∀ (u : Update) e e', u.clear = .paths names → u.apply e = (.ok (), e') →
      ∀ name ∈ names.keys, e'.property? name = none) ∧
    ∀ (u : Update) e e' (order : List PropertyName), u.clear = .paths names →
      u.apply e = (.ok (), e') → (∀ name, name ∈ order ↔ name ∈ names.keys) →
      ∃ e₁, u.assigned e = (.ok (), e₁) ∧
        e' = { e₁ with props := e₁.props.map fun m => order.foldl Properties.unset m } := by
  refine ⟨?_, ?_, ?_⟩
  · intro e m hm
    refine ⟨names.keys.foldl Properties.unset m, ?_, Properties.clears_foldl_unset _ m⟩
    have hc : cleared { clear := .paths names } e = _ := cleared_of_paths rfl (fun _ => .rfl) e
    rw [hm] at hc
    exact congrArg (Prod.mk (Except.ok ())) hc
  · intro u e e' hc h name hk
    obtain ⟨e₁, -, rfl⟩ := assigned_of_apply h
    rw [cleared_of_paths hc fun _ => .rfl, Edge.property?]
    cases e₁.props with
    | none => rfl
    | some m =>
      have hr := Properties.clears_foldl_unset names.keys m
      exact hr.gone name.segments ⟨name, hk, List.prefix_refl _⟩
  · intro u e e' order hc h ho
    obtain ⟨e₁, ha, rfl⟩ := assigned_of_apply h
    exact ⟨e₁, ha, cleared_of_paths hc ho e₁⟩

/-- One name is inside another, one leads through a number, and one leaves an empty map. -/
def sampleCleared : List PropertyName :=
  [⟨"car.door", by decide, by decide⟩, ⟨"year.month", by decide, by decide⟩,
    ⟨"owner.id", by decide, by decide⟩, ⟨"car", by decide, by decide⟩]

def sampleCar : Properties :=
  OrderedMap.ofList [("car", .map (OrderedMap.ofList [("door", .int 4), ("seat", .int 5)])),
    ("owner", .map (OrderedMap.ofList [("id", .int 1)])), ("year", .int 1990)]

/-- What is cleared was assigned just before. -/
def sampleReplaced : Update :=
  { assign := OrderedMap.ofList (sampleCleared.take 1 |>.map (·, .str "x"))
    clear := .paths (OrderedSet.ofList sampleCleared) }

set_option maxRecDepth 8000 in
theorem clears_exactly_sample :
    let names := OrderedSet.ofList sampleCleared
    let e : Edge := { Edge.new (.ofByte 0xac) (.ofByte 0xac) with props := some sampleCar }
    let e' : Edge := { e with props := some (OrderedMap.ofList [("owner", .map ∅),
      ("year", .int 1990)]) }
    e.props = some sampleCar ∧
      (∃ r, apply { clear := .paths names } e = (.ok (), { e with props := some r }) ∧
        sampleCar.Clears names.keys r) ∧
      sampleReplaced.clear = .paths names ∧ sampleReplaced.apply e = (.ok (), e') ∧
      (∀ name ∈ names.keys, e'.property? name = none) ∧
      (∀ name, name ∈ sampleCleared ↔ name ∈ names.keys) ∧
      ∃ e₁, sampleReplaced.assigned e = (.ok (), e₁) ∧
        e' = { e₁ with props := e₁.props.map fun m => sampleCleared.foldl Properties.unset m } := by
  intro names e e'
  obtain ⟨hclears, hgone, horder⟩ := clears_exactly names
  have h : sampleReplaced.apply e = (.ok (), e') := Prod.ext (by rfl) (by decide +kernel)
  have ho : ∀ name, name ∈ sampleCleared ↔ name ∈ names.keys :=
    fun name => List.Perm.mem_iff (by decide +kernel)
  exact ⟨rfl, hclears e _ rfl, rfl, h, hgone _ e e' rfl h, ho, horder _ e e' _ rfl h ho⟩

end Update
end PropertyGraph
