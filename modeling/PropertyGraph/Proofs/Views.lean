import PropertyGraph.Proofs.PairEdits

/-! What there is to see at each path of a value, and what edits change of that. -/
namespace PropertyGraph

variable {v w : Value} {x node node' s s' t t' : Option Value} {ks ls js : List String}
  {fault : RequestError} {ws : List (PropertyName × Option Value)}
  {f g : Option Value → Except RequestError (Option Value)}

/-- A path is on the way to another one that goes on from its end. -/
def OnWay (ls ks : List String) : Prop := ls <+: ks ∧ ls ≠ ks

theorem not_onWay_nil : ¬ OnWay ls [] := fun h => h.2 (List.prefix_nil.mp h.1)

theorem onWay_cons_iff {k l : String} : OnWay (l :: ls) (k :: ks) ↔ l = k ∧ OnWay ls ks := by
  rw [OnWay, OnWay, List.cons_prefix_cons]
  constructor
  · rintro ⟨⟨rfl, hp⟩, hne⟩
    exact ⟨rfl, hp, fun he => hne (congrArg _ he)⟩
  · rintro ⟨rfl, hp, hne⟩
    exact ⟨⟨rfl, hp⟩, by simpa using hne⟩

theorem onWay_or_apart (h : ¬ ks <+: ls) : OnWay ls ks ∨ Apart ks ls := by
  by_cases hp : ls <+: ks
  · refine .inl ⟨hp, ?_⟩
    rintro rfl
    exact h (List.prefix_refl ls)
  · exact .inr ⟨h, hp⟩

namespace Value

/-- A map without what is in it, and any other value. -/
def bare : Value → Value
  | map _ => map ∅
  | v => v

theorem at?_append (v : Value) (ks js : List String) :
    v.at? (ks ++ js) = (v.at? ks).bind (·.at? js) := by
  induction ks generalizing v with
  | nil => rfl
  | cons k ks ih =>
    cases v with
    | map fields =>
      change (fields.get? k).bind (·.at? (ks ++ js)) = ((fields.get? k).bind (·.at? ks)).bind _
      cases fields.get? k with
      | none => rfl
      | some u => exact ih u
    | null | bool _ | int _ | float _ | str _ | arr _ => rfl

/-- Only maps have something below them. -/
theorem map_of_at? {k : String} (h : v.at? (k :: ks) = some w) : ∃ m, v = map m := by
  cases v with
  | map m => exact ⟨m, rfl⟩
  | null | bool _ | int _ | float _ | str _ | arr _ => cases h

/-- What there is to see at a path; of a map only that it is one. -/
def view (node : Option Value) (ks : List String) : Option Value :=
  (node.bind (·.at? ks)).map bare

theorem view_congr (h : node.bind (·.at? ks) = node'.bind (·.at? ls)) :
    view node ks = view node' ls := congrArg (Option.map bare) h

theorem view_append (node : Option Value) (ks js : List String) :
    view node (ks ++ js) = view (node.bind (·.at? ks)) js := by
  cases node with
  | none => rfl
  | some v => exact congrArg (Option.map bare) (at?_append v ks js)

theorem view_eq_none : view node ks = none ↔ node.bind (·.at? ks) = none :=
  Option.map_eq_none_iff

theorem view_eq_map :
    view node ks = some (map ∅) ↔ ∃ m, node.bind (·.at? ks) = some (map m) := by
  rw [view]
  cases node.bind (·.at? ks) with
  | none => simp
  | some u => cases u <;> simp [bare]

mutual

/-- Values are the same if all that there is to see of them is. -/
theorem eq_of_view (v w : Value) (h : ∀ ks, view (some v) ks = view (some w) ks) : v = w := by
  have hv : v.bare = w.bare := Option.some.inj (h [])
  cases v with
  | map m =>
    cases w with
    | map m' =>
      refine congrArg map (Ascending.ext_get? fun k => ?_)
      have hk : ∀ ks, view (m.get? k) ks = view (m'.get? k) ks := fun ks => h (k :: ks)
      cases hm : m.get? k with
      | none =>
        cases hm' : m'.get? k with
        | none => rfl
        | some u' =>
          rw [hm, hm'] at hk
          cases hk []
      | some u =>
        cases hm' : m'.get? k with
        | none =>
          rw [hm, hm'] at hk
          cases hk []
        | some u' =>
          rw [hm, hm'] at hk
          exact congrArg some (eq_of_view_fields m (k, u) ((m.mem_toList_iff k u).mpr hm) u' hk)
    | null | bool _ | int _ | float _ | str _ | arr _ => cases hv
  | null | bool _ | int _ | float _ | str _ | arr _ =>
    cases w with
    | map m' => cases hv
    | null | bool _ | int _ | float _ | str _ | arr _ => exact hv

theorem eq_of_view_fields {lo : Option String} (m : Ascending String Value lo) :
    ∀ e ∈ m.toList, ∀ w, (∀ ks, view (some e.2) ks = view (some w) ks) → e.2 = w := by
  cases m with
  | nil => simp
  | cons k v above rest =>
    intro e he w hw
    rcases List.mem_cons.mp he with rfl | he
    · exact eq_of_view v w hw
    · exact eq_of_view_fields rest e he w hw

end

theorem view_inj (h : ∀ ks, view node ks = view node' ks) : node = node' := by
  have h₀ := h []
  cases node with
  | none =>
    cases node' with
    | none => rfl
    | some w => cases h₀
  | some v =>
    cases node' with
    | none => cases h₀
    | some w => exact congrArg some (eq_of_view v w h)

/-- What is below an edit is what is below the value that was put there. -/
theorem at?_edit_append (h : edit fault x ks node = .ok s) (js : List String) :
    s.bind (·.at? (ks ++ js)) = x.bind (·.at? js) := by
  have hx := at?_edit h
  cases s with
  | none =>
    rw [← hx]
    rfl
  | some v =>
    rw [← hx]
    exact at?_append v ks js

/-- On the way to what was put somewhere there are maps. -/
theorem map_of_edit (h : edit fault (some v) ks node = .ok s) (hl : OnWay ls ks) :
    view s ls = some (map ∅) := by
  induction ks generalizing ls node s with
  | nil => exact absurd hl not_onWay_nil
  | cons k ks ih =>
    cases hx : opened (some v) node with
    | none =>
      rw [edit_of_closed hx] at h
      cases h
    | some fields =>
      rw [edit_of_opened hx] at h
      obtain ⟨r, hr, rfl⟩ := map_eq_ok.mp h
      cases ls with
      | nil => rfl
      | cons l ls =>
        obtain ⟨rfl, hl'⟩ := onWay_cons_iff.mp hl
        have hv := at?_of_opened (opened_map none (fields.put l r)) l ls
        rw [Properties.get?_put_self] at hv
        exact (view_congr hv).trans (ih hr hl')

theorem opened_none_eq_some {fields : Properties} (h : opened none node = some fields) :
    node = some (map fields) := by
  cases node with
  | none => cases h
  | some u =>
    cases u with
    | map m =>
      cases h
      rfl
    | null | bool _ | int _ | float _ | str _ | arr _ => cases h

/-- What was taken away is seen to be missing there and below, but not on the way. -/
theorem view_edit_none (h : edit fault none ks node = .ok s) (hp : ¬ ks <+: ls) :
    view s ls = view node ls := by
  induction ks generalizing ls node s with
  | nil => exact absurd List.nil_prefix hp
  | cons k ks ih =>
    cases hx : opened none node with
    | none => rw [edit_ok_of_closed hx h]
    | some fields =>
      rw [edit_of_opened hx] at h
      obtain ⟨r, hr, rfl⟩ := map_eq_ok.mp h
      obtain rfl := opened_none_eq_some hx
      cases ls with
      | nil => rfl
      | cons l ls =>
        refine (view_congr (at?_of_opened (opened_map none (fields.put k r)) l ls)).trans ?_
        by_cases hkl : k = l
        · subst hkl
          rw [Properties.get?_put_self]
          exact ih hr fun hp' => hp (List.cons_prefix_cons.mpr ⟨rfl, hp'⟩)
        · rw [Properties.get?_put_of_ne hkl]
          rfl

/-- Nothing is at a path, or a map, so that there is a way on. -/
def Passable (node : Option Value) (ks : List String) : Prop :=
  view node ks = none ∨ view node ks = some (map ∅)

theorem Passable.of_view (h : Passable node ks) (hv : view node' ls = view node ks) :
    Passable node' ls := by
  rw [Passable, hv]
  exact h

theorem passable_nil_iff : Passable node [] ↔ ∃ fields, opened (some v) node = some fields := by
  cases node with
  | none => simp [Passable, view, opened]
  | some u => cases u <;> simp [Passable, view, opened, at?, bare]

/-- A value can be put at the end of a way, and only there. -/
theorem edit_some_ok_iff :
    (∃ s, edit fault (some v) ks node = .ok s) ↔ ∀ ls, OnWay ls ks → Passable node ls := by
  induction ks generalizing node with
  | nil => exact ⟨fun _ ls hl => absurd hl not_onWay_nil, fun _ => ⟨_, rfl⟩⟩
  | cons k ks ih =>
    constructor
    · rintro ⟨s, h⟩ ls hl
      cases hx : opened (some v) node with
      | none =>
        rw [edit_of_closed hx] at h
        cases h
      | some fields =>
        rw [edit_of_opened hx] at h
        obtain ⟨r, hr, -⟩ := map_eq_ok.mp h
        cases ls with
        | nil => exact passable_nil_iff.mpr ⟨fields, hx⟩
        | cons l ls =>
          obtain ⟨rfl, hl'⟩ := onWay_cons_iff.mp hl
          exact (ih.mp ⟨r, hr⟩ ls hl').of_view (view_congr (at?_of_opened hx l ls))
    · intro h
      obtain ⟨fields, hx⟩ := passable_nil_iff.mp (h [] ⟨List.nil_prefix, by simp⟩)
      have hk : ∀ ls, OnWay ls ks → Passable (fields.get? k) ls := by
        intro ls hl
        have hl' := h (k :: ls) (onWay_cons_iff.mpr ⟨rfl, hl⟩)
        exact hl'.of_view (view_congr (at?_of_opened hx k ls).symm)
      obtain ⟨r, hr⟩ := ih.mpr hk
      rw [edit_of_opened hx, hr]
      exact ⟨_, rfl⟩

/-- A map on the way stays there, whatever else is done below it. -/
theorem map_kept_of_edit (hs : view node ls = some (map ∅)) (hp : ¬ ks <+: ls)
    (h : edit fault x ks node = .ok s) : view s ls = some (map ∅) := by
  cases x with
  | none => rw [view_edit_none h hp, hs]
  | some v =>
    rcases onWay_or_apart hp with hl | ha
    · exact map_of_edit h hl
    · rw [view_congr (at?_edit_of_apart ha h), hs]

/-- Taking something away opens no way and closes none. -/
theorem passable_of_edit_none (hs : Passable node ls) (h : edit fault none ks node = .ok s) :
    Passable s ls := by
  by_cases hp : ks <+: ls
  · obtain ⟨js, rfl⟩ := hp
    exact .inl (view_eq_none.mpr (at?_edit_append h js))
  · exact hs.of_view (view_edit_none h hp)

/-- Taking something away never fails. -/
theorem exists_edit_none (fault : RequestError) (ks : List String) (node : Option Value) :
    ∃ s, edit fault none ks node = .ok s := by
  induction ks generalizing node with
  | nil => exact ⟨none, rfl⟩
  | cons k ks ih =>
    cases hx : opened none node with
    | none => exact ⟨node, edit_of_closed hx⟩
    | some fields =>
      obtain ⟨r, hr⟩ := ih (fields.get? k)
      rw [edit_of_opened hx, hr]
      exact ⟨_, rfl⟩

/-- At a path either the same is seen after every such change, or what was seen before it. -/
def Settles (f : Option Value → Except RequestError (Option Value)) (ks : List String) : Prop :=
  (∃ c, ∀ node node', f node = .ok node' → view node' ks = c) ∨
    ∀ node node', f node = .ok node' → view node' ks = view node ks

theorem settles_edit (fault : RequestError) (x : Option Value) (ks ls : List String) :
    Settles (edit fault x ks) ls := by
  by_cases hp : ks <+: ls
  · obtain ⟨js, rfl⟩ := hp
    refine .inl ⟨view x js, fun node node' h => ?_⟩
    exact view_congr (at?_edit_append h js)
  · cases x with
    | none => exact .inr fun node node' h => view_edit_none h hp
    | some v =>
      rcases onWay_or_apart hp with hl | ha
      · exact .inl ⟨some (map ∅), fun node node' h => map_of_edit h hl⟩
      · exact .inr fun node node' h => view_congr (at?_edit_of_apart ha h)

theorem Settles.bind (hf : Settles f ks) (hg : Settles g ks) :
    Settles (fun node => f node >>= g) ks := by
  rcases hg with ⟨c, hg⟩ | hg
  · refine .inl ⟨c, fun node node' h => ?_⟩
    obtain ⟨node₁, -, h⟩ := bind_eq_ok.mp h
    exact hg node₁ node' h
  · have hv : ∀ node node', (f node >>= g) = .ok node' →
        ∃ node₁, f node = .ok node₁ ∧ view node' ks = view node₁ ks := by
      intro node node' h
      obtain ⟨node₁, h₁, h⟩ := bind_eq_ok.mp h
      exact ⟨node₁, h₁, hg node₁ node' h⟩
    rcases hf with ⟨c, hf⟩ | hf
    · refine .inl ⟨c, fun node node' h => ?_⟩
      obtain ⟨node₁, h₁, he⟩ := hv node node' h
      exact he.trans (hf node node₁ h₁)
    · refine .inr fun node node' h => ?_
      obtain ⟨node₁, h₁, he⟩ := hv node node' h
      exact he.trans (hf node node₁ h₁)

/-- What settles everywhere is the same when it is done once more. -/
theorem eq_of_settles (hf : ∀ ks, Settles f ks) (h : f s = .ok t) (h' : f t = .ok t') :
    t' = t := by
  refine view_inj fun ks => ?_
  rcases hf ks with ⟨c, hf⟩ | hf
  · rw [hf t t' h', hf s t h]
  · exact hf t t' h'

end Value

namespace Properties
open Value
variable {m m' : Properties} {name : PropertyName}

theorem eq_of_views (h : ∀ ls, view (root (some m)) ls = view (root (some m')) ls) : m = m' :=
  Option.some.inj (root_inj (view_inj h))

theorem read_eq (m : Properties) (name : PropertyName) :
    m.read name = (root (some m)).bind (·.at? name.segments) := at?_eq name.segments_ne_nil

/-- Where the way to a name is open a value can be written. -/
theorem exists_write (h : ∀ ls, OnWay ls name.segments → Passable (root (some m)) ls)
    (v : Value) : ∃ m', m.write name v = .ok m' := by
  obtain ⟨node, hn⟩ := edit_some_ok_iff.mpr h
  obtain ⟨m', hw, -⟩ := map_eq_ok.mp ((editRoot_write m name v).symm.trans hn)
  exact ⟨m', hw⟩

theorem edit_of_write (hw : m.write name v = .ok m') :
    edit (.pathConflict name.text) (some v) name.segments (root (some m)) =
      .ok (root (some m')) := by
  refine (editRoot_write m name v).trans ?_
  rw [hw]
  rfl

theorem settles_editRoot (w : PropertyName × Option Value) (ls : List String) :
    Settles (editRoot · w) ls := settles_edit _ _ _ _

theorem settles_foldlM_editRoot (ws : List (PropertyName × Option Value)) (ls : List String) :
    Settles (fun node => ws.foldlM editRoot node) ls := by
  induction ws with
  | nil =>
    refine .inr fun node node' h => ?_
    cases h
    rfl
  | cons w ws ih =>
    simp only [List.foldlM_cons]
    exact (settles_editRoot w ls).bind ih

/-- What was done from one root can be done from another one that leaves the same ways open. -/
theorem exists_foldlM_editRoot (h : ws.foldlM editRoot s = .ok s')
    (ho : ∀ w ∈ ws, w.2.isSome → ∀ ls, OnWay ls w.1.segments → Passable s ls → Passable t ls) :
    ∃ t', ws.foldlM editRoot t = .ok t' := by
  induction ws generalizing s t with
  | nil => exact ⟨t, rfl⟩
  | cons w ws ih =>
    rw [List.foldlM_cons] at h
    obtain ⟨s₁, hs, h⟩ := bind_eq_ok.mp h
    have ht : ∃ t₁, editRoot t w = .ok t₁ := by
      obtain ⟨name, x⟩ := w
      cases x with
      | none => exact exists_edit_none _ _ t
      | some v =>
        have hw := edit_some_ok_iff.mp ⟨s₁, hs⟩
        refine edit_some_ok_iff.mpr fun ls hl => ?_
        exact ho _ List.mem_cons_self rfl ls hl (hw ls hl)
    obtain ⟨t₁, ht⟩ := ht
    have hn : ∀ w' ∈ ws, w'.2.isSome → ∀ ls, OnWay ls w'.1.segments →
        Passable s₁ ls → Passable t₁ ls := by
      intro w' hw' hx ls hl hs₁
      rcases settles_editRoot w ls with ⟨c, hc⟩ | hc
      · exact hs₁.of_view ((hc t t₁ ht).trans (hc s s₁ hs).symm)
      · have hs := hs₁.of_view (hc s s₁ hs).symm
        exact (ho w' (List.mem_cons_of_mem _ hw') hx ls hl hs).of_view (hc t t₁ ht)
    obtain ⟨t', h'⟩ := ih h hn
    exact ⟨t', by rw [List.foldlM_cons, ht]; exact h'⟩

end Properties

end PropertyGraph
