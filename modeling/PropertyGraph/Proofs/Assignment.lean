import PropertyGraph.Proofs.PropertyName
import PropertyGraph.Proofs.Reference
import PropertyGraph.Proofs.Run
import PropertyGraph.Update

/-! Assignments: their names are checked in the order of the keys, and so are they written. -/
namespace PropertyGraph

variable {fault : RequestError} {name : PropertyName} {v : Value} {m m' : Properties}
  {entries : List (String × Value)} {writes : List (PropertyName × Value)}

/-- The faults that an assignment may have. -/
def RequestError.OfAssignment : RequestError → Prop
  | .nameLength | .name _ | .pathConflict _ => True
  | _ => False

theorem PropertyName.ofText_error {text : String} (h : ofText text = .error fault) :
    fault.OfAssignment := by
  rw [ofText] at h
  split at h
  · cases h
    trivial
  · split at h
    · split at h
      · cases h
      · cases h
        trivial
    · cases h
      trivial

namespace Value

mutual

theorem checkKeys_error (v : Value) (h : v.checkKeys = .error fault) : fault.OfAssignment := by
  cases v with
  | arr items => exact checkItems_error items h
  | map fields => exact checkFields_error fields h
  | null | bool _ | int _ | float _ | str _ => cases h

theorem checkItems_error (vs : List Value) (h : checkItems vs = .error fault) :
    fault.OfAssignment := by
  cases vs with
  | nil => cases h
  | cons v vs =>
    rcases bind_eq_error.mp h with h | ⟨_, -, h⟩
    · exact checkKeys_error v h
    · exact checkItems_error vs h

theorem checkFields_error {lo : Option String} (fields : Ascending String Value lo)
    (h : checkFields fields = .error fault) : fault.OfAssignment := by
  cases fields with
  | nil => cases h
  | cons k v above rest =>
    rw [checkFields] at h
    split at h
    · cases h
      trivial
    · rcases bind_eq_error.mp h with h | ⟨_, -, h⟩
      · exact checkKeys_error v h
      · exact checkFields_error rest h

end

end Value

theorem Properties.write_error (h : m.write name v = .error fault) : fault.OfAssignment := by
  rw [write] at h
  split at h
  · cases h
  · cases h
    trivial

namespace Reference

theorem named_eq_mapM (entries : List (String × Value)) :
    Assignment.named entries = entries.mapM checked := by
  induction entries with
  | nil => rfl
  | cons e es ih => simp [Assignment.named, checked, List.mapM_cons, ih]

theorem text_of_checked {e : String × Value} {w : PropertyName × Value} (h : checked e = .ok w) :
    w.1.text = e.1 := by
  obtain ⟨name, hn, h⟩ := bind_eq_ok.mp h
  obtain ⟨_, -, h⟩ := bind_eq_ok.mp h
  cases h
  exact PropertyName.text_of_ofText hn

theorem texts_of_checked (h : entries.mapM checked = .ok writes) :
    writes.map (·.1.text) = entries.map (·.1) := by
  induction entries generalizing writes with
  | nil =>
    cases h
    rfl
  | cons e es ih =>
    rw [List.mapM_cons] at h
    obtain ⟨w, hw, h⟩ := bind_eq_ok.mp h
    obtain ⟨ws, hws, h⟩ := bind_eq_ok.mp h
    cases h
    rw [List.map_cons, List.map_cons, ih hws, text_of_checked hw]

/-- Keys in order are names in order. -/
theorem pairwise_of_checked (he : entries.Pairwise (·.1 < ·.1))
    (h : entries.mapM checked = .ok writes) : writes.Pairwise (·.1 < ·.1) := by
  have hk : (entries.map (·.1)).Pairwise (· < ·) := List.pairwise_map.mpr he
  rw [← texts_of_checked h] at hk
  rw [List.pairwise_map] at hk
  exact hk

theorem checked_error {e : String × Value} (h : checked e = .error fault) :
    fault.OfAssignment := by
  rcases bind_eq_error.mp h with h | ⟨name, -, h⟩
  · exact PropertyName.ofText_error h
  · rcases bind_eq_error.mp h with h | ⟨_, -, h⟩
    · exact Value.checkKeys_error e.2 h
    · cases h

theorem mapM_checked_error (h : entries.mapM checked = .error fault) : fault.OfAssignment := by
  obtain ⟨before, e, after, -, -, he⟩ := mapM_eq_error.mp h
  exact checked_error he

theorem foldlM_write_error
    (h : writes.foldlM (fun m w => m.write w.1 w.2) m = .error fault) : fault.OfAssignment := by
  induction writes generalizing m with
  | nil => cases h
  | cons w ws ih =>
    rw [List.foldlM_cons] at h
    rcases bind_eq_error.mp h with h | ⟨m', -, h⟩
    · exact Properties.write_error h
    · exact ih h

theorem assign_error {props : Option Properties} (h : assign props writes = .error fault) :
    fault.OfAssignment := by
  rw [assign] at h
  split at h
  · cases h
  · cases hw : writes.foldlM (fun m w => m.write w.1 w.2) (props.getD ∅) with
    | error fault' =>
      rw [hw] at h
      cases h
      exact foldlM_write_error hw
    | ok m' =>
      rw [hw] at h
      cases h

theorem set_error {R : Reference} {a : Assignment} (h : R.set a = .error fault) :
    fault.OfAssignment := by
  rcases bind_eq_error.mp h with h | ⟨writes, -, h⟩
  · exact mapM_checked_error h
  · rcases bind_eq_error.mp h with h | ⟨props, -, h⟩
    · exact assign_error h
    · cases h

/-- A fault stops the writes; what was written before stays in the answer. -/
theorem assignAll_eq (m : Properties) (writes : List (PropertyName × Value)) :
    match writes.foldlM (fun m w => m.write w.1 w.2) m with
    | .ok m' => Update.assignAll m writes = (.ok (), m')
    | .error fault => ∃ m', Update.assignAll m writes = (.error fault, m') := by
  induction writes generalizing m with
  | nil => rfl
  | cons w ws ih =>
    rw [List.foldlM_cons, Update.assignAll]
    cases hw : m.write w.1 w.2 with
    | error fault => exact ⟨m, rfl⟩
    | ok m' => exact ih m'

/-- An update with writes in the order of their names does what they do one after another. -/
theorem apply_assign (p : Pair) (props : Option Properties) (h : writes.Pairwise (·.1 < ·.1)) :
    match assign props writes with
    | .ok props' =>
      Update.apply { assign := .ofList writes } (p.edge props) = (.ok (), p.edge props')
    | .error fault =>
      (Update.apply { assign := .ofList writes } (p.edge props)).1 = .error fault := by
  have hl := OrderedMap.toList_ofList h
  have he : (OrderedMap.ofList writes).isEmpty = writes.isEmpty := by
    rw [← Ascending.isEmpty_toList, hl]
  have hw := assignAll_eq (props.getD ∅) writes
  rw [assign, Update.apply, Update.assigned, he, hl]
  cases writes with
  | nil => rfl
  | cons w ws =>
    cases hf : (w :: ws).foldlM (fun m w => m.write w.1 w.2) (props.getD ∅) with
    | ok m' =>
      rw [hf] at hw
      simp only [List.isEmpty_cons, Pair.edge, Edge.new, hw]
      rfl
    | error fault =>
      rw [hf] at hw
      obtain ⟨m', hw⟩ := hw
      simp only [List.isEmpty_cons, Pair.edge, Edge.new, hw]
      rfl

end Reference
end PropertyGraph
