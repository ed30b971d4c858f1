import Mathlib.Data.List.MinMax
import PropertyGraph.Proofs.Views

/-! What is at each path after an assignment, also if its names lead through each other. -/
namespace PropertyGraph

variable {e e' : Edge} {u : Update} {name : PropertyName} {v : Value} {s t : Option Value}
  {ls js path : List String} {w : PropertyName × Option Value}
  {ws : List (PropertyName × Option Value)} {props : Option Properties}

theorem PropertyName.not_prefix_of_lt {n n' : PropertyName} (h : n < n') :
    ¬ n'.segments <+: n.segments := fun hp => not_lt_of_segments hp h

namespace Properties
open Value

theorem exists_split (hw : w ∈ ws) (h : ws.foldlM editRoot s = .ok t) :
    ∃ before after s₁ s₂, ws = before ++ w :: after ∧ editRoot s₁ w = .ok s₂ ∧
      after.foldlM editRoot s₂ = .ok t := by
  obtain ⟨before, after, rfl⟩ := List.append_of_mem hw
  rw [List.foldlM_append] at h
  obtain ⟨s₁, -, h⟩ := bind_eq_ok.mp h
  rw [List.foldlM_cons] at h
  obtain ⟨s₂, hs, h⟩ := bind_eq_ok.mp h
  exact ⟨before, after, s₁, s₂, rfl, hs, h⟩

theorem map_kept (hs : view s ls = some (.map ∅)) (hn : ∀ w ∈ ws, ¬ w.1.segments <+: ls)
    (h : ws.foldlM editRoot s = .ok t) : view t ls = some (.map ∅) := by
  induction ws generalizing s with
  | nil =>
    cases h
    exact hs
  | cons w ws ih =>
    rw [List.foldlM_cons] at h
    obtain ⟨s₁, hw, h⟩ := bind_eq_ok.mp h
    obtain ⟨hn₁, hns⟩ := List.forall_mem_cons.mp hn
    exact ih (map_kept_of_edit hs hn₁ hw) hns h

theorem not_prefix_of_later {before after : List (PropertyName × Option Value)}
    (hp : (before ++ w :: after).Pairwise (·.1 < ·.1)) :
    ∀ w' ∈ after, ¬ w'.1.segments <+: w.1.segments := by
  have hw := (List.pairwise_cons.mp (List.pairwise_append.mp hp).2.1).1
  exact fun w' hw' => PropertyName.not_prefix_of_lt (hw w' hw')

/-- Maps are on the way to whatever was written: the names that end on this way come before. -/
theorem map_of_onWay (hp : ws.Pairwise (·.1 < ·.1)) (hw : (name, some v) ∈ ws)
    (hl : OnWay ls name.segments) (h : ws.foldlM editRoot s = .ok t) :
    view t ls = some (.map ∅) := by
  obtain ⟨before, after, s₁, s₂, rfl, hs, h⟩ := exists_split hw h
  refine map_kept (map_of_edit hs hl) ?_ h
  intro w' hw' hpre
  exact not_prefix_of_later hp w' hw' (hpre.trans hl.1)

/-- The longest name that leads to a path is written last of those that do, and only names that go
on from the path could change it again. -/
theorem at?_of_longest (hp : ws.Pairwise (·.1 < ·.1)) (hw : w ∈ ws)
    (hl : ∀ w' ∈ ws, w'.1.segments <+: w.1.segments ++ js → w'.1.segments <+: w.1.segments)
    (hn : ∀ w' ∈ ws, ¬ OnWay (w.1.segments ++ js) w'.1.segments)
    (h : ws.foldlM editRoot s = .ok t) :
    t.bind (·.at? (w.1.segments ++ js)) = w.2.bind (·.at? js) := by
  obtain ⟨before, after, s₁, s₂, rfl, hs, h⟩ := exists_split hw h
  have ha : ∀ w' ∈ after, Apart w'.1.segments (w.1.segments ++ js) := by
    intro w' hw'
    have hm : w' ∈ before ++ w :: after := by simp [hw']
    have hnp := fun hpre => not_prefix_of_later hp w' hw' (hl w' hm hpre)
    exact (onWay_or_apart hnp).resolve_left (hn w' hm)
  rw [PairEdit.at?_foldlM_editRoot ha h]
  exact at?_edit_append hs js

end Properties

/-- The value at a path of one or more keys. -/
def Edge.at? (e : Edge) (path : List String) : Option Value := e.props.bind (·.at? path)

theorem Edge.at?_eq (hne : path ≠ []) :
    e.at? path = (Properties.root e.props).bind (·.at? path) := by
  rw [Edge.at?]
  cases e.props with
  | none => rfl
  | some m => exact Properties.at?_eq hne

namespace Update

/-- The assignments as edits, in the order of their names. -/
def writes (u : Update) : List (PropertyName × Option Value) :=
  u.assign.toList.map fun w => (w.1, some w.2)

theorem mem_writes : (name, some v) ∈ u.writes ↔ u.assign.get? name = some v := by
  rw [writes, List.mem_map, ← Ascending.mem_toList_iff]
  constructor
  · rintro ⟨⟨n, v'⟩, hw, he⟩
    cases he
    exact hw
  · exact fun hw => ⟨(name, v), hw, rfl⟩

theorem mem_keys_of_writes (h : w ∈ u.writes) : w.1 ∈ u.assign.keys := by
  obtain ⟨w', hw', rfl⟩ := List.mem_map.mp h
  exact List.mem_map_of_mem hw'

theorem pairwise_writes (u : Update) : u.writes.Pairwise (·.1 < ·.1) :=
  List.pairwise_map.mpr u.assign.pairwise_toList

theorem apply_eq_ok : u.apply e = (.ok (), e') ↔
    ∃ props, Reference.assign e.props u.assign.toList = .ok props ∧
      e' = u.cleared { e with props } := by
  have hw := Reference.assignAll_eq (e.props.getD ∅) u.assign.toList
  rw [apply, assigned, Reference.assign, Ascending.isEmpty_toList]
  cases u.assign.isEmpty with
  | true => simp [eq_comm]
  | false =>
    cases hf : u.assign.toList.foldlM (fun m w => m.write w.1 w.2) (e.props.getD ∅) with
    | ok m' =>
      rw [hf] at hw
      simp [hw, eq_comm]
    | error fault =>
      rw [hf] at hw
      obtain ⟨m', hw⟩ := hw
      simp [hw]

theorem foldlM_writes (u : Update) (props : Option Properties) :
    u.writes.foldlM Properties.editRoot (Properties.root props) =
      (Reference.assign props u.assign.toList).map Properties.root :=
  Reference.assign_root props u.assign.toList

/-- The path is on the way to a name that is assigned. -/
def Extends (u : Update) (path : List String) : Prop :=
  ∃ name ∈ u.assign.keys, OnWay path name.segments

/-- The longest name assigned of those that lead to a path or end there, and its value. -/
structure Governs (u : Update) (path : List String) (name : PropertyName) (v : Value) : Prop where
  assigned : u.assign.get? name = some v
  leads : name.segments <+: path
  longest : ∀ other ∈ u.assign.keys, other.segments <+: path →
    other.segments.length ≤ name.segments.length

theorem exists_governs (h : ∃ name ∈ u.assign.keys, name.segments <+: path) :
    ∃ name v, u.Governs path name v := by
  obtain ⟨name₀, hk, hp⟩ := h
  let leading := u.assign.keys.filter fun name => name.segments <+: path
  let length := fun name : PropertyName => name.segments.length
  have hm : name₀ ∈ leading := List.mem_filter.mpr ⟨hk, decide_eq_true hp⟩
  cases hmax : leading.argmax length with
  | none =>
    rw [List.argmax_eq_none.mp hmax] at hm
    cases hm
  | some name =>
    obtain ⟨hk, hp⟩ := List.mem_filter.mp (List.argmax_mem hmax)
    obtain ⟨v, hv⟩ := Ascending.mem_keys_iff.mp hk
    refine ⟨name, v, hv, of_decide_eq_true hp, ?_⟩
    intro other ho hpre
    have hm : other ∈ leading := List.mem_filter.mpr ⟨ho, decide_eq_true hpre⟩
    exact List.le_of_mem_argmax (f := length) hm hmax

/-- What an edge is after an assignment, by what it was. -/
structure Assigns (u : Update) (e e' : Edge) : Prop where
  /-- Nothing but the properties may change. -/
  same : e'.src = e.src ∧ e'.dest = e.dest ∧ e'.uniqueIndex = e.uniqueIndex
  /-- On the way to a name there are maps. -/
  above : ∀ path, path ≠ [] → u.Extends path → ∃ m, e'.at? path = some (.map m)
  /-- At and below a name the value of the longest one is read. -/
  below : ∀ path, ¬ u.Extends path → (∃ name ∈ u.assign.keys, name.segments <+: path) →
    ∃ name v, u.Governs path name v ∧ e'.at? path = v.at? (path.drop name.segments.length)
  elsewhere : ∀ path, ¬ u.Extends path → (∀ name ∈ u.assign.keys, ¬ name.segments <+: path) →
    e'.at? path = e.at? path
  /-- A name that no other one extends has the value that was assigned to it. -/
  reads : ∀ name v, u.assign.get? name = some v → ¬ u.Extends name.segments →
    e'.property? name = some v

theorem at?_of_governs (hg : u.Governs path name v) (hx : ¬ u.Extends path)
    (h : u.writes.foldlM Properties.editRoot s = .ok t) :
    t.bind (·.at? path) = v.at? (path.drop name.segments.length) := by
  obtain ⟨ha, ⟨js, rfl⟩, hl⟩ := hg
  rw [List.drop_left]
  refine Properties.at?_of_longest (w := (name, some v)) u.pairwise_writes (mem_writes.mpr ha)
    ?_ ?_ h
  · intro w' hw' hp
    have hlen := hl w'.1 (mem_keys_of_writes hw') hp
    exact List.prefix_of_prefix_length_le hp (List.prefix_append _ js) hlen
  · exact fun w' hw' hp => hx ⟨w'.1, mem_keys_of_writes hw', hp⟩

/-- An assignment means the same whatever the order of its names, since what leads to a name is
written before it. -/
theorem assigns_of_apply (hc : u.clear = .nothing) (h : u.apply e = (.ok (), e')) :
    u.Assigns e e' := by
  obtain ⟨props, ha, rfl⟩ := apply_eq_ok.mp h
  have hf := u.foldlM_writes e.props
  rw [ha] at hf
  have he : u.cleared { e with props } = { e with props } := by rw [cleared, hc]
  rw [he]
  have hat : ∀ {path}, path ≠ [] →
      Edge.at? { e with props } path = (Properties.root props).bind (·.at? path) :=
    fun hne => Edge.at?_eq hne
  have hread : ∀ path name v, u.Governs path name v → ¬ u.Extends path →
      Edge.at? { e with props } path = v.at? (path.drop name.segments.length) := by
    intro path name v hg hx
    have hne : path ≠ [] := by
      rintro rfl
      exact name.segments_ne_nil (List.prefix_nil.mp hg.leads)
    rw [hat hne]
    exact at?_of_governs hg hx hf
  refine ⟨⟨rfl, rfl, rfl⟩, ?_, ?_, ?_, ?_⟩
  · rintro path hne ⟨name, hk, hl⟩
    obtain ⟨v, hv⟩ := Ascending.mem_keys_iff.mp hk
    rw [hat hne]
    exact Value.view_eq_map.mp
      (Properties.map_of_onWay u.pairwise_writes (mem_writes.mpr hv) hl hf)
  · intro path hx hn
    obtain ⟨name, v, hg⟩ := exists_governs hn
    exact ⟨name, v, hg, hread path name v hg hx⟩
  · intro path hx hn
    by_cases hne : path = []
    · subst hne
      rw [Edge.at?, Edge.at?]
      cases props <;> cases e.props <;> rfl
    · rw [hat hne, Edge.at?_eq hne]
      refine PairEdit.at?_foldlM_editRoot (fun w hw => ?_) hf
      have hk := mem_keys_of_writes hw
      exact (onWay_or_apart (hn w.1 hk)).resolve_left fun hl => hx ⟨w.1, hk, hl⟩
  · intro name v hv hx
    have hg : u.Governs name.segments name v := by
      refine ⟨hv, List.prefix_refl _, ?_⟩
      exact fun other _ hp => hp.length_le
    have hr := hread name.segments name v hg hx
    rw [List.drop_length] at hr
    exact hr

/-- A name and a longer one, with a third between them in the order of texts. -/
def sampleTags : Update :=
  let tag : PropertyName := ⟨"tag", by decide, by decide⟩
  let between : PropertyName := ⟨"tag-id", by decide, by decide⟩
  let longer : PropertyName := ⟨"tag.by", by decide, by decide⟩
  let tags : Properties := OrderedMap.ofList [("by", .null), ("of", .bool true)]
  { assign := OrderedMap.ofList [(tag, .map tags), (between, .int 7), (longer, .str "x")] }

set_option maxRecDepth 8000 in
theorem assigns_of_apply_sample :
    let e := Edge.new (.ofByte 0xbb) (.ofByte 0xbb)
    let e' := (sampleTags.apply e).2
    sampleTags.clear = .nothing ∧ sampleTags.apply e = (.ok (), e') ∧ sampleTags.Assigns e e' ∧
      e'.at? ["tag", "by"] = some (.str "x") ∧ e'.at? ["tag", "of"] = some (.bool true) := by
  intro e e'
  have h : sampleTags.apply e = (.ok (), e') := Prod.ext (by rfl) rfl
  exact ⟨rfl, h, assigns_of_apply rfl h, by decide, by decide⟩

end Update

end PropertyGraph
