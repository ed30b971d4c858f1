import PropertyGraph.Proofs.AssignedPaths

/-! When an assignment is refused and by which name, said without making it. -/
namespace PropertyGraph

variable {e : Edge} {u : Update} {name base other : PropertyName} {v w : Value}
  {node s t : Option Value} {ks ls js path : List String} {x : Option Value}
  {fault : RequestError} {before after ws : List (PropertyName × Option Value)}

/-- The first step that fails decides a series of them. -/
theorem foldlM_eq_error {ε σ α : Type} {f : σ → α → Except ε σ} {xs : List α} {s : σ}
    {fault : ε} : xs.foldlM f s = .error fault ↔ ∃ before a after t,
      xs = before ++ a :: after ∧ before.foldlM f s = .ok t ∧ f t a = .error fault := by
  constructor
  · intro h
    induction xs generalizing s with
    | nil => cases h
    | cons a xs ih =>
      rw [List.foldlM_cons] at h
      rcases bind_eq_error.mp h with h | ⟨s₁, hs, h⟩
      · exact ⟨[], a, xs, s, rfl, rfl, h⟩
      · obtain ⟨before, b, after, t, rfl, hb, hf⟩ := ih h
        refine ⟨a :: before, b, after, t, rfl, ?_, hf⟩
        rw [List.foldlM_cons, hs]
        exact hb
  · rintro ⟨before, a, after, t, rfl, hb, hf⟩
    rw [List.foldlM_append]
    refine bind_eq_error.mpr (.inr ⟨t, hb, ?_⟩)
    rw [List.foldlM_cons]
    exact bind_eq_error.mpr (.inl hf)

theorem OnWay.of_prefix (hp : ks <+: ls) (hl : OnWay ls js) : OnWay ks js := by
  refine ⟨hp.trans hl.1, ?_⟩
  rintro rfl
  exact hl.2 (hl.1.eq_of_length_le hp.length_le)

/-- The ways to a name end before its last segment. -/
theorem PropertyName.onWay_iff : OnWay ls name.segments ↔ ls <+: name.segments.dropLast := by
  obtain ⟨init, k, hs⟩ := (List.eq_nil_or_concat' name.segments).resolve_left name.segments_ne_nil
  rw [hs, List.dropLast_concat, OnWay, List.prefix_concat_iff]
  constructor
  · rintro ⟨he | hp, hn⟩
    · exact absurd he hn
    · exact hp
  · intro hp
    refine ⟨.inr hp, ?_⟩
    rintro rfl
    have hlen := hp.length_le
    rw [List.length_append] at hlen
    exact absurd hlen (Nat.not_succ_le_self _)

namespace Value

theorem not_passable_iff : ¬ Passable node ls ↔
    ∃ w, node.bind (·.at? ls) = some w ∧ ∀ m, w ≠ map m := by
  rw [Passable, not_or, view_eq_none, view_eq_map]
  cases node.bind (·.at? ls) with
  | none => simp
  | some w => simp

/-- An edit opens or closes a way only at its own place. -/
theorem passable_iff_of_edit (hp : ¬ ks <+: ls) (h : edit fault x ks node = .ok s) :
    Passable s ls ↔ Passable node ls := by
  cases x with
  | none => rw [Passable, Passable, view_edit_none h hp]
  | some v =>
    rcases onWay_or_apart hp with hl | ha
    · exact ⟨fun _ => edit_some_ok_iff.mp ⟨s, h⟩ ls hl, fun _ => .inr (map_of_edit h hl)⟩
    · rw [Passable, Passable, view_congr (at?_edit_of_apart ha h)]

theorem eq_of_edit_error {fault' : RequestError} (h : edit fault x ks node = .error fault') :
    fault' = fault := by
  induction ks generalizing node with
  | nil => cases h
  | cons k ks ih =>
    cases hx : opened x node with
    | some fields =>
      rw [edit_of_opened hx] at h
      exact ih (map_eq_error.mp h)
    | none =>
      rw [edit_of_closed hx] at h
      split at h
      · cases h
        rfl
      · cases h

/-- A value that cannot be put at its place has met another one on the way. -/
theorem edit_some_eq_error_iff {fault' : RequestError} :
    edit fault (some v) ks node = .error fault' ↔
      (∃ ls, OnWay ls ks ∧ ¬ Passable node ls) ∧ fault' = fault := by
  constructor
  · intro hf
    refine ⟨?_, eq_of_edit_error hf⟩
    by_contra hn
    obtain ⟨s, hs⟩ := edit_some_ok_iff.mpr fun ls hl => not_not.mp fun hp => hn ⟨ls, hl, hp⟩
    cases hf.symm.trans hs
  · rintro ⟨⟨ls, hl, hn⟩, rfl⟩
    cases hr : edit fault' (some v) ks node with
    | ok s => exact absurd (edit_some_ok_iff.mp ⟨s, hr⟩ ls hl) hn
    | error fault => exact congrArg _ (eq_of_edit_error hr)

end Value

namespace Properties
open Value

theorem passable_iff_of_foldlM (hn : ∀ w ∈ ws, ¬ w.1.segments <+: ls)
    (h : ws.foldlM editRoot s = .ok t) : Passable t ls ↔ Passable s ls := by
  induction ws generalizing s with
  | nil =>
    cases h
    rfl
  | cons w ws ih =>
    rw [List.foldlM_cons] at h
    obtain ⟨s₁, hw, h⟩ := bind_eq_ok.mp h
    obtain ⟨hn₁, hns⟩ := List.forall_mem_cons.mp hn
    exact (ih hns h).trans (passable_iff_of_edit hn₁ hw)

end Properties

namespace Update
open Value

/-- The way to a name meets a value that is no map. It starts at what was assigned to the longest
name that it goes on from, or at what is stored if there is no such name. -/
inductive Conflicts (u : Update) (e : Edge) (name : PropertyName) : Prop
  | assigned {base : PropertyName} {v w : Value} {js : List String}
      (longest : u.Governs name.segments.dropLast base v)
      (onWay : OnWay (base.segments ++ js) name.segments)
      (met : v.at? js = some w) (closed : ∀ m, w ≠ .map m)
  | stored {w : Value} {path : List String}
      (first : ∀ other ∈ u.assign.keys, ¬ OnWay other.segments name.segments)
      (onWay : OnWay path name.segments)
      (met : e.at? path = some w) (closed : ∀ m, w ≠ .map m)

/-- The first of the names that conflict, in the order of their texts. -/
structure ConflictsFirst (u : Update) (e : Edge) (name : PropertyName) : Prop where
  assigned : name ∈ u.assign.keys
  conflicts : u.Conflicts e name
  least : ∀ other ∈ u.assign.keys, u.Conflicts e other → ¬ other < name

theorem met_iff : (∃ w, e.at? ls = some w ∧ ∀ m, w ≠ .map m) ↔
    ¬ Passable (Properties.root e.props) ls := by
  by_cases hne : ls = []
  · subst hne
    rw [Edge.at?]
    cases e.props <;> simp [Properties.root, Properties.at?, Passable, view, Value.at?, bare]
  · rw [Edge.at?_eq hne, not_passable_iff]

section Turn
-- The turn of a name has come: those before it have been written.
variable (hu : u.writes = before ++ (name, some v) :: after)
  (h : before.foldlM Properties.editRoot (Properties.root e.props) = .ok t)
include hu

theorem mem_keys_of_before {w : PropertyName × Option Value} (hw : w ∈ before) :
    w.1 ∈ u.assign.keys := mem_keys_of_writes (hu ▸ List.mem_append_left _ hw)

theorem mem_before_of_governs (hb : u.Governs name.segments.dropLast base w) :
    (base, some w) ∈ before := by
  have hon := PropertyName.onWay_iff.mpr hb.leads
  have hp := hu ▸ u.pairwise_writes
  rcases List.mem_append.mp (hu ▸ mem_writes.mpr hb.assigned) with hm | hm
  · exact hm
  · rcases List.mem_cons.mp hm with he | hm
    · cases he
      exact absurd rfl hon.2
    · exact absurd hon.1 (Properties.not_prefix_of_later hp _ hm)

include h

/-- Below the longest name on the way there is what was assigned to that name, as far as the way
goes. -/
theorem passable_iff_of_governs (hb : u.Governs name.segments.dropLast base w)
    (hl : OnWay (base.segments ++ js) name.segments) :
    Passable t (base.segments ++ js) ↔ Passable (some w) js := by
  have hkeys : ∀ w' ∈ before, w'.1 ∈ u.assign.keys := fun _ hw' => mem_keys_of_before hu hw'
  have hp := (List.pairwise_append.mp (hu ▸ u.pairwise_writes)).1
  obtain ⟨b₁, b₂, s₁, s₂, rfl, hs, hr⟩ := Properties.exists_split (mem_before_of_governs hu hb) h
  have hn : ∀ w' ∈ b₂, ¬ w'.1.segments <+: base.segments ++ js := by
    intro w' hw' hpre
    have hlead := PropertyName.onWay_iff.mp (hl.of_prefix hpre)
    have hlen := hb.longest w'.1 (hkeys w' (by simp [hw'])) hlead
    have hbase := List.prefix_of_prefix_length_le hlead hb.leads hlen
    exact Properties.not_prefix_of_later hp w' hw' hbase
  have hat : s₂.bind (·.at? (base.segments ++ js)) = (some w).bind (·.at? js) :=
    at?_edit_append hs js
  rw [Properties.passable_iff_of_foldlM hn hr, Passable, Passable, view, view, hat]

/-- Where no name leads to, what is stored has been left. -/
theorem passable_iff_of_first
    (hf : ∀ other ∈ u.assign.keys, ¬ OnWay other.segments name.segments)
    (hl : OnWay ls name.segments) :
    Passable t ls ↔ Passable (Properties.root e.props) ls := by
  refine Properties.passable_iff_of_foldlM (fun w' hw' hpre => ?_) h
  exact hf w'.1 (mem_keys_of_before hu hw') (hl.of_prefix hpre)

theorem conflicts_iff : u.Conflicts e name ↔
    ∃ ls, OnWay ls name.segments ∧ ¬ Passable t ls := by
  constructor
  · intro hc
    cases hc with
    | assigned longest onWay met closed =>
      refine ⟨_, onWay, ?_⟩
      rw [passable_iff_of_governs hu h longest onWay]
      exact not_passable_iff.mpr ⟨_, met, closed⟩
    | stored first onWay met closed =>
      refine ⟨_, onWay, ?_⟩
      rw [passable_iff_of_first hu h first onWay]
      exact met_iff.mp ⟨_, met, closed⟩
  · rintro ⟨ls, hl, hn⟩
    by_cases hb : ∃ other ∈ u.assign.keys, other.segments <+: name.segments.dropLast
    · obtain ⟨base, w, hg⟩ := exists_governs hb
      by_cases hpre : base.segments <+: ls
      · obtain ⟨js, rfl⟩ := hpre
        rw [passable_iff_of_governs hu h hg hl] at hn
        obtain ⟨w', met, closed⟩ := not_passable_iff.mp hn
        exact .assigned hg hl met closed
      · -- On the way to the base there are maps, so nothing is met before it.
        have hlb := List.prefix_or_prefix_of_prefix hl.1 (PropertyName.onWay_iff.mpr hg.leads).1
        have hon : OnWay ls base.segments :=
          ⟨hlb.resolve_right hpre, fun he => hpre (he ▸ List.prefix_refl _)⟩
        have hp := (List.pairwise_append.mp (hu ▸ u.pairwise_writes)).1
        have hmap := Properties.map_of_onWay hp (mem_before_of_governs hu hg) hon h
        exact absurd (.inr hmap) hn
    · have hf : ∀ other ∈ u.assign.keys, ¬ OnWay other.segments name.segments :=
        fun other hk ho => hb ⟨other, hk, PropertyName.onWay_iff.mp ho⟩
      rw [passable_iff_of_first hu h hf hl] at hn
      obtain ⟨w, met, closed⟩ := met_iff.mpr hn
      exact .stored hf hl met closed

/-- Whether a name is refused when its turn comes can be told before. -/
theorem refused_iff : Properties.editRoot t (name, some v) = .error fault ↔
    u.Conflicts e name ∧ fault = .pathConflict name.text := by
  rw [conflicts_iff hu h]
  exact edit_some_eq_error_iff

end Turn

theorem not_conflicts_of_written (hu : u.writes = ws ++ after)
    (h : ws.foldlM Properties.editRoot (Properties.root e.props) = .ok t)
    (hw : (name, some v) ∈ ws) : ¬ u.Conflicts e name := by
  intro hc
  obtain ⟨before, rest, rfl⟩ := List.append_of_mem hw
  rw [List.foldlM_append] at h
  obtain ⟨s, hs, h⟩ := bind_eq_ok.mp h
  rw [List.foldlM_cons] at h
  obtain ⟨s', hs', -⟩ := bind_eq_ok.mp h
  rw [List.append_assoc] at hu
  cases hs'.symm.trans ((refused_iff hu hs).mpr ⟨hc, rfl⟩)

theorem apply_fault_iff : (u.apply e).1 = .error fault ↔
    u.writes.foldlM Properties.editRoot (Properties.root e.props) = .error fault := by
  have hw := Reference.assignAll_eq (e.props.getD ∅) u.assign.toList
  rw [foldlM_writes, map_eq_error, apply, assigned, Reference.assign, Ascending.isEmpty_toList]
  cases u.assign.isEmpty with
  | true => simp
  | false =>
    cases hf : u.assign.toList.foldlM (fun m w => m.write w.1 w.2) (e.props.getD ∅) with
    | ok m' =>
      rw [hf] at hw
      simp [hw]
    | error fault' =>
      rw [hf] at hw
      obtain ⟨m', hw⟩ := hw
      simp [hw]

theorem exists_writes_of_mem (hk : name ∈ u.assign.keys) : ∃ v, (name, some v) ∈ u.writes := by
  obtain ⟨v, hv⟩ := Ascending.mem_keys_iff.mp hk
  exact ⟨v, mem_writes.mpr hv⟩

theorem conflictsFirst_of_fault (h : (u.apply e).1 = .error fault) :
    ∃ name, u.ConflictsFirst e name ∧ fault = .pathConflict name.text := by
  obtain ⟨before, w, after, t, hu, hb, hf⟩ := foldlM_eq_error.mp (apply_fault_iff.mp h)
  have hw : w ∈ u.writes := hu ▸ List.mem_append_cons_self
  have hp := List.pairwise_append.mp (hu ▸ u.pairwise_writes)
  obtain ⟨⟨name, v⟩, -, rfl⟩ := List.mem_map.mp hw
  obtain ⟨hc, rfl⟩ := (refused_iff hu hb).mp hf
  refine ⟨name, ⟨mem_keys_of_writes hw, hc, ?_⟩, rfl⟩
  intro other ho hco hlt
  obtain ⟨v', hm⟩ := exists_writes_of_mem ho
  rcases List.mem_append.mp (hu ▸ hm) with hm | hm
  · exact not_conflicts_of_written hu hb hm hco
  · rcases List.mem_cons.mp hm with he | hm
    · cases he
      exact LinearKey.irrefl _ hlt
    · exact LinearKey.irrefl _ (LinearKey.trans hlt ((List.pairwise_cons.mp hp.2.1).1 _ hm))

theorem ConflictsFirst.unique {name' : PropertyName} (h : u.ConflictsFirst e name)
    (h' : u.ConflictsFirst e name') : name = name' := by
  rcases LinearKey.trichotomy name name' with hlt | he | hlt
  · exact absurd hlt (h'.least name h.assigned h.conflicts)
  · exact he
  · exact absurd hlt (h.least name' h'.assigned h'.conflicts)

theorem exists_fault (hk : name ∈ u.assign.keys) (hc : u.Conflicts e name) :
    ∃ fault, (u.apply e).1 = .error fault := by
  cases hr : u.writes.foldlM Properties.editRoot (Properties.root e.props) with
  | error fault => exact ⟨fault, apply_fault_iff.mpr hr⟩
  | ok t =>
    obtain ⟨v, hm⟩ := exists_writes_of_mem hk
    exact absurd hc (not_conflicts_of_written (List.append_nil _).symm hr hm)

/-- An update fails if a name that it assigns conflicts, and then with the first of those that do.
What it clears has no part in that. -/
theorem refused_exactly (u : Update) (e : Edge) :
    (∀ fault, (u.apply e).1 = .error fault ↔
      ∃ name, u.ConflictsFirst e name ∧ fault = .pathConflict name.text) ∧
    ((∃ fault, (u.apply e).1 = .error fault) ↔ ∃ name ∈ u.assign.keys, u.Conflicts e name) ∧
    ∀ clear, (apply { u with clear } e).1 = (u.apply e).1 := by
  refine ⟨fun fault => ⟨conflictsFirst_of_fault, ?_⟩, ⟨?_, ?_⟩, ?_⟩
  · rintro ⟨name, hc, rfl⟩
    obtain ⟨fault, hf⟩ := exists_fault hc.assigned hc.conflicts
    obtain ⟨name', hc', rfl⟩ := conflictsFirst_of_fault hf
    rw [hf, hc.unique hc']
  · rintro ⟨fault, hf⟩
    obtain ⟨name, hc, -⟩ := conflictsFirst_of_fault hf
    exact ⟨name, hc.assigned, hc.conflicts⟩
  · rintro ⟨name, hk, hc⟩
    exact exists_fault hk hc
  · intro clear
    have ha : assigned { u with clear } e = u.assigned e := rfl
    rw [apply, apply, ha]
    rcases u.assigned e with ⟨_ | _, e'⟩ <;> rfl

/-- A number is no place for a longer name, but an assignment may put a map in its stead. -/
example :
    let e := { Edge.new (.ofByte 0xab) (.ofByte 0xab) with
      props := some (OrderedMap.ofList [("size", .int 1)]) }
    let size : PropertyName := ⟨"size", by decide, by decide⟩
    let width : PropertyName := ⟨"size.width", by decide, by decide⟩
    (apply { assign := OrderedMap.ofList [(width, .int 2)] } e).1 =
        .error (.pathConflict "size.width") ∧
      (apply { assign := OrderedMap.ofList [(width, .int 2), (size, .map ∅)] } e).1 = .ok () :=
  ⟨by rfl, by rfl⟩

end Update
end PropertyGraph
