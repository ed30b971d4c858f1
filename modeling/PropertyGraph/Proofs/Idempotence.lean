import PropertyGraph.Proofs.AssignedPaths
import PropertyGraph.Proofs.PairCalls
import PropertyGraph.Proofs.ReadModes

/-! Updates that succeed change nothing when they are made again. -/
namespace PropertyGraph

variable {e e' : Edge} {existing : Option Edge} {u : Update} {options : UpsertOptions} {p : Pair}
  {s t : Store} {d : Descriptor} {outcome : Outcome} {node node' : Option Value}
  {ls : List String} {ws : List (PropertyName × Option Value)}

namespace Update

/-- What is cleared path by path, as edits. -/
def removals (u : Update) : List (PropertyName × Option Value) :=
  match u.clear with
  | .paths names => names.keys.map fun name => (name, none)
  | .nothing | .all => []

theorem none_of_removals (u : Update) : ∀ w ∈ u.removals, w.2 = none := by
  intro w hw
  rw [removals] at hw
  cases hc : u.clear with
  | nothing | all =>
    rw [hc] at hw
    cases hw
  | paths names =>
    rw [hc] at hw
    obtain ⟨name, -, rfl⟩ := List.mem_map.mp hw
    rfl

theorem foldlM_removals (hc : u.clear ≠ .all) (e : Edge) :
    u.removals.foldlM Properties.editRoot (Properties.root e.props) =
      .ok (Properties.root (u.cleared e).props) := by
  rw [removals, cleared]
  cases hu : u.clear with
  | nothing => rfl
  | all => exact absurd hu hc
  | paths names => exact Reference.clear_root e.props names

theorem cleared_eq (u : Update) (e : Edge) :
    u.cleared e = { e with props := (u.cleared e).props } := by
  rw [cleared]
  cases u.clear <;> rfl

/-- Unless it clears everything, an update is a series of edits. -/
theorem apply_eq_ok_iff (hc : u.clear ≠ .all) : u.apply e = (.ok (), e') ↔
    (u.writes ++ u.removals).foldlM Properties.editRoot (Properties.root e.props) =
      .ok (Properties.root e'.props) ∧ e' = { e with props := e'.props } := by
  rw [List.foldlM_append, foldlM_writes, apply_eq_ok]
  constructor
  · rintro ⟨props, ha, rfl⟩
    refine ⟨?_, u.cleared_eq _⟩
    rw [ha]
    exact foldlM_removals hc { e with props }
  · rintro ⟨h, he⟩
    obtain ⟨node, hn, h⟩ := bind_eq_ok.mp h
    obtain ⟨props, ha, rfl⟩ := map_eq_ok.mp hn
    have hr := foldlM_removals hc { e with props }
    rw [h] at hr
    have hp := Properties.root_inj (Except.ok.inj hr)
    refine ⟨props, ha, ?_⟩
    rw [he, hp, u.cleared_eq { e with props }]

theorem passable_of_removals (hn : ∀ w ∈ ws, w.2 = none) (hs : Value.Passable node ls)
    (h : ws.foldlM Properties.editRoot node = .ok node') : Value.Passable node' ls := by
  induction ws generalizing node with
  | nil =>
    cases h
    exact hs
  | cons w ws ih =>
    rw [List.foldlM_cons] at h
    obtain ⟨node₁, hw, h⟩ := bind_eq_ok.mp h
    obtain ⟨hn₁, hns⟩ := List.forall_mem_cons.mp hn
    rw [Properties.editRoot, hn₁] at hw
    exact ih hns (Value.passable_of_edit_none hs hw) h

/-- The ways to all names assigned are open behind an update, whatever it cleared. -/
theorem passable_of_edits
    (h : (u.writes ++ u.removals).foldlM Properties.editRoot node = .ok node') :
    ∀ w ∈ u.writes ++ u.removals, w.2.isSome → ∀ ls, OnWay ls w.1.segments →
      Value.Passable node' ls := by
  rw [List.foldlM_append] at h
  obtain ⟨node₁, hw, hr⟩ := bind_eq_ok.mp h
  rintro ⟨name, x⟩ hm hx ls hl
  obtain ⟨v, rfl⟩ := Option.isSome_iff_exists.mp hx
  have hmem : (name, some v) ∈ u.writes := by
    rcases List.mem_append.mp hm with hm | hm
    · exact hm
    · cases u.none_of_removals _ hm
  have hmap := Properties.map_of_onWay u.pairwise_writes hmem hl hw
  exact passable_of_removals u.none_of_removals (.inr hmap) hr

/-- Every path was left as the update leaves it, or the update does not care for it. -/
theorem apply_again (h : u.apply e = (.ok (), e')) : u.apply e' = (.ok (), e') := by
  by_cases hc : u.clear = .all
  · obtain ⟨props, ha, rfl⟩ := apply_eq_ok.mp h
    have hw := u.foldlM_writes e.props
    rw [ha] at hw
    -- Where there are no properties all ways are open, and what is assigned is cleared again.
    obtain ⟨node, hn⟩ := Properties.exists_foldlM_editRoot (t := none) hw
      fun _ _ _ _ _ _ => .inl rfl
    obtain ⟨props', ha', -⟩ := map_eq_ok.mp ((u.foldlM_writes none).symm.trans hn)
    have hcleared : ∀ e : Edge, u.cleared e = { e with props := none } := by
      intro e
      rw [cleared, hc]
    refine apply_eq_ok.mpr ⟨props', ?_, ?_⟩
    · rw [hcleared]
      exact ha'
    · rw [hcleared, hcleared]
  · obtain ⟨hf, he⟩ := (apply_eq_ok_iff hc).mp h
    -- The maps that the first pass needed are there for the second one.
    obtain ⟨node, hn⟩ := Properties.exists_foldlM_editRoot hf
      fun w hw hx ls hl _ => passable_of_edits hf w hw hx ls hl
    obtain rfl := Value.eq_of_settles (Properties.settles_foldlM_editRoot _) hf hn
    exact (apply_eq_ok_iff hc).mpr ⟨hn, rfl⟩

theorem eq_edge_of_apply {props : Option Properties} (h : u.apply (p.edge props) = (.ok (), e)) :
    e = p.edge e.props := by
  obtain ⟨props', -, rfl⟩ := apply_eq_ok.mp h
  exact u.cleared_eq _

end Update

/-- An edge that the filter of a pair accepts is that of the pair. -/
theorem Pair.eq_edge_of_accepts (h : p.filter.accepts e = true) : e = p.edge e.props := by
  obtain ⟨src, dest, key, props⟩ := e
  simp only [Filter.accepts, Pair.filter, Option.all_some, Bool.and_eq_true, beq_iff_eq] at h
  obtain ⟨⟨⟨rfl, rfl⟩, rfl⟩, -⟩ := h
  rfl

theorem Pair.resolve_eq_ok {next : Option Edge}
    (h : resolveUpsert existing p.filter u options = .ok next) :
    ∃ slot : Option (Option Properties), existing = slot.map p.edge := by
  cases existing with
  | none => exact ⟨none, rfl⟩
  | some e₀ =>
    rw [resolveUpsert, Filter.target] at h
    by_cases ha : p.filter.accepts e₀ = true
    · exact ⟨some e₀.props, congrArg some (eq_edge_of_accepts ha)⟩
    · rw [if_neg ha] at h
      cases h

/-- An edge that was put somewhere is read as it was, or not at all. -/
theorem Storage.eq_of_reread {s : Storage} {key : String} (hw : (s.put key e).Whole key)
    (h : s.reread e = .ok e') : e' = e := by
  have hl : (s.put key e).Legible key := by
    refine ⟨hw, fun read hr => ?_⟩
    rw [stored?_put, if_pos rfl, h] at hr
    exact ⟨e', (Option.some.inj hr).symm⟩
  exact Except.ok.inj (h.symm.trans hl.reread)

namespace Store

/-- What a request that succeeded on one edge has read there, and what it wrote. -/
theorem run_eq_ok (hs : d.src = some p.src) (hd : d.dest = some p.dest) (hf : d.find = none)
    (h : s.run d = (.ok outcome, t)) :
    ∃ slot props, s.storage.requireRunning = .ok () ∧
      d.update.apply (p.edge slot) = (.ok (), p.edge props) ∧ t = s.place p (some props) := by
  cases hx : (do s.storage.requireRunning; s.storage.edge? p.key) with
  | error fault =>
    rw [run_of_unread hx hs hd hf] at h
    cases h
  | ok existing =>
    obtain ⟨_, hr, hx⟩ := bind_eq_ok.mp hx
    have hslot : ∃ slot : Option (Option Properties), existing = slot.map p.edge := by
      have hq := Storage.upsert_eq (f := p.filter) rfl s.storage d.update d.writeOptions
      simp only [hr, hx, bind, Except.bind] at hq
      rw [s.run_single hs hd hf, hq] at h
      cases hn : resolveUpsert existing p.filter d.update d.writeOptions with
      | error fault =>
        rw [hn] at h
        cases h
      | ok next => exact Pair.resolve_eq_ok hn
    obtain ⟨slot, rfl⟩ := hslot
    cases hu : d.update.apply (p.edge slot.join) with
    | mk answer e =>
      cases answer with
      | error fault =>
        rw [run_edit_error hr hx hs hd hf (congrArg Prod.fst hu)] at h
        cases h
      | ok _ =>
        rw [Update.eq_edge_of_apply hu] at hu
        rw [run_edit_ok hr hx hs hd hf hu] at h
        cases h
        exact ⟨slot.join, e.props, hr, hu, rfl⟩

/-- The edge that was written is read again, or it cannot be read and is not touched. -/
theorem run_again (hs : d.src = some p.src) (hd : d.dest = some p.dest) (hf : d.find = none)
    (h : s.run d = (.ok outcome, t)) (hw : t.storage.Whole p.key) :
    (t.run d).2 = t ∧ (t.storage.Legible p.key → ∃ outcome', (t.run d).1 = .ok outcome') := by
  obtain ⟨slot, props, hr, hu, rfl⟩ := run_eq_ok hs hd hf h
  have hr' := (requireRunning_place s p (some props)).trans hr
  have hstored := stored?_place s p props
  cases hread : s.storage.reread (p.edge props) with
  | error fault =>
    rw [hread] at hstored
    have hx : (do (s.place p (some props)).storage.requireRunning
                  (s.place p (some props)).storage.edge? p.key) = .error fault := by
      rw [hr']
      exact Storage.edge?_eq_error.mpr hstored
    rw [run_of_unread hx hs hd hf]
    refine ⟨rfl, fun hl => ?_⟩
    obtain ⟨e, he⟩ := hl.reads _ hstored
    cases he
  | ok e =>
    obtain rfl := Storage.eq_of_reread hw hread
    rw [hread] at hstored
    have hx : (s.place p (some props)).storage.edge? p.key =
        .ok (Option.map p.edge (some props)) := Storage.edge?_eq_ok.mpr hstored
    rw [run_edit_ok hr' hx hs hd hf (Update.apply_again hu), place_place]
    exact ⟨rfl, fun _ => ⟨_, rfl⟩⟩

end Store

def Assignment.pair (a : Assignment) : Pair := ⟨a.src, a.dest⟩

theorem Assignment.single_of_descriptor {a : Assignment} (h : a.descriptor = .ok d) :
    d.src = some a.pair.src ∧ d.dest = some a.pair.dest ∧ d.find = none :=
  PairEdit.single_of_descriptor (p := a.pair) (.set a.props) h

namespace Store

/-- A call that is made once more leaves the store as it is, and it succeeds again if the edge that
it left can be read. -/
structure Repeats (t : Store) (p : Pair) (again : Except StoreError Unit × Store) : Prop where
  kept : again.2 = t
  accepted : t.storage.Legible p.key → again.1 = .ok ()

theorem repeats_run (hs : d.src = some p.src) (hd : d.dest = some p.dest) (hf : d.find = none)
    (h : s.run d = (.ok outcome, t)) (hw : t.storage.Whole p.key) :
    t.Repeats p ((t.run d).1.map fun _ => (), (t.run d).2) := by
  obtain ⟨hkept, hok⟩ := run_again hs hd hf h hw
  refine ⟨hkept, fun hl => ?_⟩
  obtain ⟨outcome', ho⟩ := hok hl
  exact map_eq_ok.mpr ⟨outcome', ho, rfl⟩

theorem repeats_set {a : Assignment} (h : s.setProperties a = (.ok (), t))
    (hw : t.storage.Whole a.pair.key) : t.Repeats a.pair (t.setProperties a) := by
  rw [setProperties] at h ⊢
  cases hd : a.descriptor with
  | error fault =>
    rw [hd] at h
    cases h
  | ok d =>
    rw [hd] at h
    obtain ⟨hs, hd', hf⟩ := Assignment.single_of_descriptor hd
    obtain ⟨ha, rfl⟩ := Prod.ext_iff.mp h
    obtain ⟨outcome, ho, -⟩ := map_eq_ok.mp ha
    exact repeats_run hs hd' hf (Prod.ext ho rfl) hw

theorem repeats_remove {sel : Selection} (h : s.removeProperties sel = (.ok (), t))
    (hw : t.storage.Whole sel.pair.key) : t.Repeats sel.pair (t.removeProperties sel) := by
  obtain ⟨ha, rfl⟩ := Prod.ext_iff.mp h
  obtain ⟨outcome, ho, -⟩ := map_eq_ok.mp ha
  have hrun : s.run sel.remove = (.ok outcome, (s.removeProperties sel).2) := Prod.ext ho rfl
  exact repeats_run (p := sel.pair) rfl rfl rfl hrun hw

/-- An update that succeeded on an edge succeeds on what it left, which it leaves as it is. So does
a call that was made on a store. In a tree this is so as long as the edge takes less than 4 GiB;
bytes of which a size was cut off might be read as another edge. -/
theorem updates_idempotent :
    (∀ (u : Update) (e e' : Edge), u.apply e = (.ok (), e') → u.apply e' = (.ok (), e')) ∧
      (∀ (s t : Store) (a : Assignment), s.setProperties a = (.ok (), t) →
        t.storage.Whole a.pair.key → t.Repeats a.pair (t.setProperties a)) ∧
      ∀ (s t : Store) (sel : Selection), s.removeProperties sel = (.ok (), t) →
        t.storage.Whole sel.pair.key → t.Repeats sel.pair (t.removeProperties sel) :=
  ⟨fun _ _ _ h => Update.apply_again h, fun _ _ _ h hw => repeats_set h hw,
    fun _ _ _ h hw => repeats_remove h hw⟩

/-- One value goes with a name above it that is cleared, of the other one the map around it
stays. -/
def sampleMark : Update :=
  let mark : PropertyName := ⟨"mark", by decide, by decide⟩
  let below : PropertyName := ⟨"mark.at", by decide, by decide⟩
  let beside : PropertyName := ⟨"note.at", by decide, by decide⟩
  { assign := OrderedMap.ofList [(below, .int 1), (beside, .int 2)]
    clear := .paths (OrderedSet.ofList [mark, beside]) }

set_option maxRecDepth 8000 in
/-- On a tree, where an edge is read again from its bytes. -/
theorem updates_idempotent_sample :
    let e := Edge.new (.ofByte 0xdd) (.ofByte 0xdd)
    let e' : Edge := { e with props := some (OrderedMap.ofList [("note", .map ∅)]) }
    let s : Store := { storage := { engine := .tree true, disk := {} } }
    let a : Assignment :=
      { src := e.src, dest := e.dest, props := OrderedMap.ofList [("note", .map ∅)] }
    let sel : Selection := { src := e.src, dest := e.dest }
    sampleMark.apply e = (.ok (), e') ∧ sampleMark.apply e' = (.ok (), e') ∧
      (s.setProperties a).1 = .ok () ∧ (s.setProperties a).2.storage.Whole a.pair.key ∧
      (s.setProperties a).2.Repeats a.pair ((s.setProperties a).2.setProperties a) ∧
      (s.removeProperties sel).1 = .ok () ∧
      (s.removeProperties sel).2.storage.Whole sel.pair.key ∧
      (s.removeProperties sel).2.Repeats sel.pair
        ((s.removeProperties sel).2.removeProperties sel) := by
  intro e e' s a sel
  have hm : sampleMark.apply e = (.ok (), e') := by rfl
  have hs : s.storage.Serves .tree ∅ := ⟨rfl, rfl, rfl⟩
  obtain ⟨hupdate, hset, hremove⟩ := updates_idempotent
  have hset' : ∀ s : Store, s.storage.Serves .tree ∅ → (s.setProperties a).1 = .ok () ∧
      (s.setProperties a).2.storage.Whole a.pair.key ∧
      (s.setProperties a).2.Repeats a.pair ((s.setProperties a).2.setProperties a) := by
    intro s hs
    obtain ⟨hr, hx⟩ := blank_edge hs a.pair
    have hp : s.setProperties a =
        (.ok (), s.place a.pair (some (some (OrderedMap.ofList [("note", .map ∅)])))) :=
      setProperties_edit hr hx (PairEdit.apply_single rfl rfl rfl none)
    have hl : (a.pair.edge (some (OrderedMap.ofList [("note", .map ∅)]))).encode.length <
        2 ^ 32 := by decide
    have hw := (hs.holds.whole_empty a.pair.key).put a.pair.key hl
    rw [hp]
    exact ⟨rfl, hw, hset s _ a hp hw⟩
  have hremove' : ∀ s : Store, s.storage.Serves .tree ∅ → (s.removeProperties sel).1 = .ok () ∧
      (s.removeProperties sel).2.storage.Whole sel.pair.key ∧
      (s.removeProperties sel).2.Repeats sel.pair
        ((s.removeProperties sel).2.removeProperties sel) := by
    intro s hs
    obtain ⟨hr, hx⟩ := blank_edge hs sel.pair
    have hp : s.removeProperties sel = (.ok (), s.place sel.pair (some none)) :=
      removeProperties_edit hr hx none
    have hl : (sel.pair.edge none).encode.length < 2 ^ 32 := by decide
    have hw := (hs.holds.whole_empty sel.pair.key).put sel.pair.key hl
    rw [hp]
    exact ⟨rfl, hw, hremove s _ sel hp hw⟩
  obtain ⟨ha, hwa, hra⟩ := hset' s hs
  obtain ⟨hr, hwr, hrr⟩ := hremove' s hs
  exact ⟨hm, hupdate _ _ _ hm, ha, hwa, hra, hr, hwr, hrr⟩

end Store

end PropertyGraph
