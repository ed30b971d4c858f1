import PropertyGraph.Proofs.Assignment
import PropertyGraph.Proofs.Edge.Depth
import PropertyGraph.Proofs.Edits

/-! Writes to the properties of one pair, as series of edits at the paths of their names. -/
namespace PropertyGraph

variable {p : Pair} {m m' : Properties} {props props' : Option Properties}
  {writes : List (PropertyName × Value)} {fault : RequestError} {slot : Option (Option Properties)}

namespace Properties

/-- Properties as the root of all paths, which may be missing. -/
def root (props : Option Properties) : Option Value := props.map .map

theorem root_inj (h : root props = root props') : props = props' := by
  cases props with
  | none =>
    cases props' with
    | none => rfl
    | some m' => cases h
  | some m =>
    cases props' with
    | none => cases h
    | some m' =>
      cases h
      rfl

/-- One step of a write: a value at the place of a name, or nothing there. -/
def editRoot (node : Option Value) (w : PropertyName × Option Value) :
    Except RequestError (Option Value) :=
  Value.edit (.pathConflict w.1.text) w.2 w.1.segments node

theorem editRoot_write (m : Properties) (name : PropertyName) (v : Value) :
    editRoot (root (some m)) (name, some v) = (m.write name v).map fun m' => root (some m') := by
  refine (Value.edit_eq_setAt? name.segments_ne_nil).trans ?_
  rw [write]
  cases m.setAt? v name.segments <;> rfl

theorem editRoot_unset (m : Properties) (name : PropertyName) :
    editRoot (root (some m)) (name, none) = .ok (root (some (m.unset name))) :=
  Value.edit_eq_unsetAt? name.segments_ne_nil

theorem foldlM_editRoot_write (m : Properties) (writes : List (PropertyName × Value)) :
    (writes.map fun w => (w.1, some w.2)).foldlM editRoot (root (some m)) =
      (writes.foldlM (fun (m : Properties) w => m.write w.1 w.2) m).map fun m' =>
        root (some m') := by
  induction writes generalizing m with
  | nil => rfl
  | cons w ws ih =>
    rw [List.map_cons, List.foldlM_cons, List.foldlM_cons, editRoot_write]
    cases m.write w.1 w.2 with
    | error fault => rfl
    | ok m' => exact ih m'

theorem foldlM_editRoot_unset (m : Properties) (names : List PropertyName) :
    (names.map fun name => (name, none)).foldlM editRoot (root (some m)) =
      .ok (root (some (names.foldl unset m))) := by
  induction names generalizing m with
  | nil => rfl
  | cons name names ih =>
    rw [List.map_cons, List.foldlM_cons, editRoot_unset]
    exact ih (m.unset name)

theorem editRoot_missing (name : PropertyName) (v : Value) :
    editRoot none (name, some v) = editRoot (root (some ∅)) (name, some v) := by
  rw [editRoot, editRoot]
  cases hs : name.segments with
  | nil => exact absurd hs name.segments_ne_nil
  | cons k ks => exact Value.edit_missing _ v k ks

end Properties

namespace Reference

theorem assign_root (props : Option Properties) (writes : List (PropertyName × Value)) :
    (writes.map fun w => (w.1, some w.2)).foldlM Properties.editRoot (Properties.root props) =
      (assign props writes).map Properties.root := by
  cases writes with
  | nil => rfl
  | cons w ws =>
    have hb : ∀ m : Properties, (assign (some m) (w :: ws)).map Properties.root =
        ((w :: ws).map fun w => (w.1, some w.2)).foldlM Properties.editRoot
          (Properties.root (some m)) := by
      intro m
      rw [Properties.foldlM_editRoot_write, assign, if_neg (by simp), Option.getD_some]
      cases (w :: ws).foldlM (fun m w => m.write w.1 w.2) m <;> rfl
    cases props with
    | some m => exact (hb m).symm
    | none =>
      have ha : assign none (w :: ws) = assign (some ∅) (w :: ws) := rfl
      rw [ha, hb ∅, List.map_cons, List.foldlM_cons, List.foldlM_cons]
      exact congrArg (· >>= _) (Properties.editRoot_missing w.1 w.2)

theorem clear_root (props : Option Properties) (names : OrderedSet PropertyName) :
    (names.keys.map fun name => (name, none)).foldlM Properties.editRoot (Properties.root props) =
      .ok (Properties.root (Selector.clear (some (.named names)) props)) := by
  cases props with
  | some m => exact Properties.foldlM_editRoot_unset m names.keys
  | none =>
    have hn : ∀ names : List PropertyName,
        (names.map fun name => (name, (none : Option Value))).foldlM Properties.editRoot none =
          .ok none := by
      intro names
      induction names with
      | nil => rfl
      | cons name names ih =>
        rw [List.map_cons, List.foldlM_cons, Properties.editRoot, Value.edit_none_none]
        exact ih
    exact hn names.keys

end Reference

/-- A write to the edge of a pair, without its endpoints. -/
inductive PairEdit
  | set (props : Properties)
  | remove (names : OrderedSet PropertyName)

namespace PairEdit

/-- The paths of the names that a write uses, also of those that are refused. -/
def paths : PairEdit → List (List String)
  | set props => props.keys.map segmentsOf
  | remove names => names.keys.map PropertyName.segments

/-- No name of one write is the same as a name of the other, or leads through it. -/
def Unrelated (c d : PairEdit) : Prop := ∀ ks ∈ c.paths, ∀ ls ∈ d.paths, Apart ks ls

instance (c d : PairEdit) : Decidable (c.Unrelated d) :=
  inferInstanceAs (Decidable (∀ ks ∈ c.paths, ∀ ls ∈ d.paths, Apart ks ls))

/-- What a write makes of the properties. -/
def apply (props : Option Properties) : PairEdit → Except RequestError (Option Properties)
  | set m => do Reference.assign props (← m.toList.mapM Reference.checked)
  | remove names => .ok (Selector.clear (some (.named names)) props)

/-- A write as a series of edits, if its names and values pass their checks. -/
def series : PairEdit → Except RequestError (List (PropertyName × Option Value))
  | set m => (m.toList.mapM Reference.checked).map fun ws => ws.map fun w => (w.1, some w.2)
  | remove names => .ok (names.keys.map fun name => (name, none))

theorem apply_root (c : PairEdit) (props : Option Properties) :
    (c.apply props).map Properties.root = (do
      (← c.series).foldlM Properties.editRoot (Properties.root props)) := by
  cases c with
  | remove names => exact (Reference.clear_root props names).symm
  | set m =>
    rw [apply, series]
    cases m.toList.mapM Reference.checked with
    | error fault => rfl
    | ok writes => exact (Reference.assign_root props writes).symm

theorem mem_paths_of_series {c : PairEdit} {ws : List (PropertyName × Option Value)}
    (h : c.series = .ok ws) : ∀ w ∈ ws, w.1.segments ∈ c.paths := by
  cases c with
  | remove names =>
    cases h
    intro w hw
    obtain ⟨name, hn, rfl⟩ := List.mem_map.mp hw
    exact List.mem_map_of_mem hn
  | set m =>
    obtain ⟨writes, hw, rfl⟩ := map_eq_ok.mp h
    intro w hw'
    obtain ⟨w₀, hw₀, rfl⟩ := List.mem_map.mp hw'
    have ht : w₀.1.text ∈ m.toList.map (·.1) :=
      Reference.texts_of_checked hw ▸ List.mem_map_of_mem hw₀
    exact List.mem_map_of_mem ht

theorem apply_of_series_error {c : PairEdit} (h : c.series = .error fault)
    (props : Option Properties) : c.apply props = .error fault := by
  have hr := c.apply_root props
  rw [h] at hr
  exact map_eq_error.mp hr

/-- Unrelated writes neither refuse each other nor lose what the other one wrote. -/
theorem commuting_apply {c d : PairEdit} (h : c.Unrelated d) :
    Commuting (fun props => c.apply props) fun props => d.apply props := by
  cases hc : c.series with
  | error fault =>
    simp only [apply_of_series_error hc]
    exact .error fault _
  | ok ws =>
    cases hd : d.series with
    | error fault =>
      simp only [apply_of_series_error hd]
      exact (Commuting.error fault _).symm
    | ok ws' =>
      have hr : ∀ props, ws.foldlM Properties.editRoot (Properties.root props) =
          (c.apply props).map Properties.root := by
        intro props
        rw [c.apply_root, hc]
        rfl
      have hr' : ∀ props, ws'.foldlM Properties.editRoot (Properties.root props) =
          (d.apply props).map Properties.root := by
        intro props
        rw [d.apply_root, hd]
        rfl
      refine .of_map (fun _ _ => Properties.root_inj) hr hr' (.foldlM₂ ?_)
      intro w hw w' hw'
      exact Value.commuting_edit
        (h _ (mem_paths_of_series hc w hw) _ (mem_paths_of_series hd w' hw')) _ _ _ _

theorem apply_single {k : String} {v : Value} {name : PropertyName}
    (hn : PropertyName.ofText k = .ok name) (hs : name.segments = [k]) (hv : v.checkKeys = .ok ())
    (props : Option Properties) :
    (set (OrderedMap.ofList [(k, v)])).apply props = .ok (some ((props.getD ∅).insert k v)) := by
  have hc : Reference.checked (k, v) = .ok (name, v) := by
    rw [Reference.checked, hn, hv]
    rfl
  have hw : (props.getD ∅).write name v = .ok ((props.getD ∅).insert k v) := by
    rw [Properties.write, hs]
    rfl
  have hl : [(k, v)].mapM Reference.checked = .ok [(name, v)] := by
    rw [mapM_eq_ok, List.map_singleton, hc, List.map_singleton]
  have ha : Reference.assign props [(name, v)] = some <$> (props.getD ∅).write name v := by
    rw [Reference.assign, if_neg (by simp), List.foldlM_cons]
    simp only [List.foldlM_nil, bind_pure]
  rw [hw] at ha
  refine Eq.trans ?_ ha
  exact congrArg (· >>= Reference.assign props) hl

/-- A value of any depth passes its check. -/
theorem apply_deep (n : Nat) : (set (.deep n)).apply none = .ok (some (.deep n)) :=
  apply_single rfl rfl (Value.checkKeys_boxed n) none

theorem foldlM_of_apply {c : PairEdit} (h : c.apply props = .ok props') :
    ∃ ws, c.series = .ok ws ∧
      ws.foldlM Properties.editRoot (Properties.root props) = .ok (Properties.root props') := by
  have hr := c.apply_root props
  rw [h] at hr
  exact bind_eq_ok.mp hr.symm

theorem at?_foldlM_editRoot {ws : List (PropertyName × Option Value)} {ks : List String}
    {node node' : Option Value} (ha : ∀ w ∈ ws, Apart w.1.segments ks)
    (h : ws.foldlM Properties.editRoot node = .ok node') :
    node'.bind (·.at? ks) = node.bind (·.at? ks) := by
  induction ws generalizing node with
  | nil =>
    cases h
    rfl
  | cons w ws ih =>
    rw [List.foldlM_cons] at h
    obtain ⟨node₁, hw, h⟩ := bind_eq_ok.mp h
    obtain ⟨ha₁, has⟩ := List.forall_mem_cons.mp ha
    rw [ih has h, Value.at?_edit_of_apart ha₁ hw]

theorem exists_checked {entries : List (String × Value)} {e : String × Value}
    (h : entries.mapM Reference.checked = .ok writes) (he : e ∈ entries) :
    ∃ w ∈ writes, w.1.text = e.1 ∧ w.2 = e.2 := by
  have hc : Reference.checked e ∈ writes.map .ok :=
    mapM_eq_ok.mp h ▸ List.mem_map_of_mem he
  obtain ⟨w, hw, hc⟩ := List.mem_map.mp hc
  have ht := Reference.text_of_checked hc.symm
  obtain ⟨name, -, hv⟩ := bind_eq_ok.mp hc.symm
  obtain ⟨_, -, hv⟩ := bind_eq_ok.mp hv
  cases hv
  exact ⟨_, hw, ht, rfl⟩

/-- Names are written in order, and what extends a name comes behind it. So a value may only be
changed again by a longer name of the same assignment. -/
theorem at?_apply_set {name : String} {v : Value} (hv : m.get? name = some v)
    (hn : ∀ other ∈ m.keys, other ≠ name → ¬ segmentsOf name <+: segmentsOf other)
    (h : (set m).apply props = .ok props') :
    (Properties.root props').bind (·.at? (segmentsOf name)) = some v := by
  obtain ⟨ws, hs, hf⟩ := foldlM_of_apply h
  obtain ⟨writes, hw, rfl⟩ := map_eq_ok.mp hs
  have he := (Ascending.mem_toList_iff m name v).mpr hv
  obtain ⟨w, hm, rfl, rfl⟩ := exists_checked hw he
  have hp := Reference.pairwise_of_checked m.pairwise_toList hw
  have hk : ∀ w' ∈ writes, w'.1.text ∈ m.keys := by
    intro w' hw'
    have ht : w'.1.text ∈ m.toList.map (·.1) :=
      Reference.texts_of_checked hw ▸ List.mem_map_of_mem hw'
    exact ht
  obtain ⟨before, after, rfl⟩ := List.append_of_mem hm
  rw [List.map_append, List.map_cons, List.foldlM_append] at hf
  obtain ⟨node₁, -, hf⟩ := bind_eq_ok.mp hf
  rw [List.foldlM_cons] at hf
  obtain ⟨node₂, he₂, hf⟩ := bind_eq_ok.mp hf
  have ha : ∀ w' ∈ after.map fun w => (w.1, some w.2), Apart w'.1.segments w.1.segments := by
    intro w' hw'
    obtain ⟨w₀, hw₀, rfl⟩ := List.mem_map.mp hw'
    have hlt : w.1.text < w₀.1.text :=
      (List.pairwise_cons.mp (List.pairwise_append.mp hp).2.1).1 w₀ hw₀
    refine ⟨fun hpre => not_lt_of_segments hpre hlt, ?_⟩
    refine hn w₀.1.text (hk w₀ (by simp [hw₀])) ?_
    intro heq
    rw [heq] at hlt
    exact LinearKey.irrefl _ hlt
  refine (at?_foldlM_editRoot ha hf).trans ?_
  exact Value.at?_edit he₂

/-- What a write makes of the edge of a pair, which may be missing. -/
def write (c : PairEdit) (slot : Option (Option Properties)) :
    Except RequestError (Option (Option Properties)) := (c.apply slot.join).map some

def step (slot : Option (Option Properties)) (c : PairEdit) :
    Except RequestError Unit × Option (Option Properties) := attempt c.write slot

theorem state_of_step (slot : Option (Option Properties)) (c : PairEdit) :
    (step slot c).2 = slot ∨ ∃ props, (step slot c).2 = some props := by
  rw [step, attempt, write]
  cases c.apply slot.join with
  | error fault => exact .inl rfl
  | ok props => exact .inr ⟨props, rfl⟩

theorem commuting_write {c d : PairEdit} (h : c.Unrelated d) : Commuting c.write d.write where
  both hc hd := by
    obtain ⟨y, hy, rfl⟩ := map_eq_ok.mp hc
    obtain ⟨z, hz, rfl⟩ := map_eq_ok.mp hd
    obtain ⟨w, hw, hw'⟩ := (commuting_apply h).both hy hz
    exact ⟨some w, map_eq_ok.mpr ⟨w, hw, rfl⟩, map_eq_ok.mpr ⟨w, hw', rfl⟩⟩
  left hc hd := by
    obtain ⟨z, hz, rfl⟩ := map_eq_ok.mp hd
    exact map_eq_error.mpr ((commuting_apply h).left (map_eq_error.mp hc) hz)
  right hd hc := by
    obtain ⟨y, hy, rfl⟩ := map_eq_ok.mp hc
    exact map_eq_error.mpr ((commuting_apply h).right (map_eq_error.mp hd) hy)

theorem independent_step {c d : PairEdit} (h : c.Unrelated d) : Independent step c d :=
  (commuting_write h).independent

theorem Unrelated.symm {c d : PairEdit} (h : c.Unrelated d) : d.Unrelated c :=
  fun ks hk ls hl => (h ls hl ks hk).symm

theorem apply_of_step {c : PairEdit} (h : (step slot c).1 = .ok ()) :
    ∃ props, c.apply slot.join = .ok props ∧ (step slot c).2 = some props := by
  rw [step, attempt] at h ⊢
  rw [write] at h ⊢
  cases ha : c.apply slot.join with
  | error fault =>
    rw [ha] at h
    cases h
  | ok props => exact ⟨props, rfl, rfl⟩

/-- A set may as well be the last one, so nothing is lost of it. -/
theorem at?_runCalls_set {edits : List PairEdit} {name : String} {v : Value}
    (hu : edits.Pairwise Unrelated) (hm : .set m ∈ edits) (ha : (step slot (.set m)).1 = .ok ())
    (hv : m.get? name = some v)
    (hn : ∀ other ∈ m.keys, other ≠ name → ¬ segmentsOf name <+: segmentsOf other) :
    ∃ props, (runCalls step slot edits).2 = some props ∧
      (Properties.root props).bind (·.at? (segmentsOf name)) = some v := by
  obtain ⟨before, after, rfl⟩ := List.append_of_mem hm
  have hp : (before ++ .set m :: after).Perm ((before ++ after) ++ [.set m]) :=
    List.perm_middle.trans (List.perm_append_singleton _ _).symm
  have hi := hu.imp independent_step
  have hi' := (hp.pairwise_iff fun h => Independent.symm h).mp hi
  have hlast : ∀ d ∈ before ++ after, Independent step (.set m) d := by
    intro d hd
    exact ((List.pairwise_append.mp hi').2.2 d hd _ (List.mem_singleton_self _)).symm
  obtain ⟨-, hans, -⟩ := runCalls_of_independent hlast slot
  rw [ha] at hans
  obtain ⟨props, hset, hstep⟩ := apply_of_step hans
  rw [state_of_perm hp hi, runCalls_append]
  exact ⟨props, hstep, at?_apply_set hv hn hset⟩

end PairEdit

end PropertyGraph
