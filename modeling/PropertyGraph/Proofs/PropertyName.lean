import PropertyGraph.PropertyName

/-! A name is the keys on its path, joined by dots. -/
namespace PropertyGraph

variable {keys : List String}

theorem splitDots_eq_splitOn (cs : List Char) : splitDots cs = cs.splitOn '.' := by
  induction cs with
  | nil => exact (List.splitOn_nil '.').symm
  | cons c cs ih =>
    rw [List.splitOn_eq_splitOnP] at ih ⊢
    rw [splitDots, ih, List.splitOnP_cons_eq_if_modifyHead]
    by_cases hc : c = '.'
    · rw [if_pos hc, if_pos (beq_iff_eq.mpr hc)]
    · rw [if_neg hc, if_neg (by simpa using hc)]
      cases hs : cs.splitOnP (· == '.') with
      | nil => exact absurd hs (List.splitOnP_ne_nil _ cs)
      | cons piece pieces => rfl

/-- The text for the end of a path. -/
def joinDots (keys : List String) : String := ".".intercalate keys

theorem toList_joinDots (keys : List String) :
    (joinDots keys).toList = ['.'].intercalate (keys.map String.toList) :=
  String.toList_intercalate

theorem segmentsOf_joinDots (hne : keys ≠ []) (hk : ∀ k ∈ keys, '.' ∉ k.toList) :
    segmentsOf (joinDots keys) = keys := by
  have hm : keys.map String.toList ≠ [] := by simpa using hne
  rw [segmentsOf, splitDots_eq_splitOn, toList_joinDots,
    List.splitOn_intercalate '.' (by simpa using hk) hm, List.map_map]
  simp

theorem joinDots_segmentsOf (text : String) : joinDots (segmentsOf text) = text := by
  have hs : (segmentsOf text).map String.toList = text.toList.splitOn '.' := by
    simp [segmentsOf, splitDots_eq_splitOn]
  apply String.toList_inj.mp
  rw [toList_joinDots, hs, List.intercalate_splitOn]

theorem prefix_intercalate (sep : List Char) {pieces pieces' : List (List Char)}
    (h : pieces <+: pieces') : sep.intercalate pieces <+: sep.intercalate pieces' := by
  induction pieces generalizing pieces' with
  | nil => exact List.nil_prefix
  | cons x xs ih =>
    cases pieces' with
    | nil => exact absurd (List.prefix_nil.mp h) (by simp)
    | cons y ys =>
      obtain ⟨rfl, hp⟩ := List.cons_prefix_cons.mp h
      cases ys with
      | nil =>
        obtain rfl : xs = [] := List.prefix_nil.mp hp
        exact List.prefix_refl _
      | cons y ys =>
        cases xs with
        | nil =>
          rw [List.intercalate_singleton, List.intercalate_cons_cons, List.append_assoc]
          exact List.prefix_append x _
        | cons x' xs =>
          rw [List.intercalate_cons_cons, List.intercalate_cons_cons]
          exact (List.prefix_append_right_inj _).mpr (ih hp)

theorem prefix_joinDots {ls : List String} (h : ls <+: keys) :
    (joinDots ls).toList <+: (joinDots keys).toList := by
  rw [toList_joinDots, toList_joinDots]
  exact prefix_intercalate ['.'] (h.map String.toList)

theorem segmentsOf_ne_nil (text : String) : segmentsOf text ≠ [] := by
  rw [segmentsOf, splitDots_eq_splitOn]
  simp [List.splitOn_ne_nil]

/-- Names come before those that extend them. -/
theorem not_lt_of_segments {text text' : String} (h : segmentsOf text <+: segmentsOf text') :
    ¬ text' < text := by
  have hp := prefix_joinDots h
  rw [joinDots_segmentsOf, joinDots_segmentsOf] at hp
  exact hp.le

theorem utf8ByteSize_ne_zero {text : String} (h : ∀ s ∈ segmentsOf text, IsSegment s) :
    text.utf8ByteSize ≠ 0 := by
  intro h0
  rw [String.utf8ByteSize_eq_zero_iff.mp h0] at h
  exact (h "" (by decide)).1 rfl

namespace PropertyName

theorem segments_ne_nil (name : PropertyName) : name.segments ≠ [] := segmentsOf_ne_nil name.text

theorem text_of_ofText {text : String} {name : PropertyName} (h : ofText text = .ok name) :
    name.text = text := by
  rw [ofText] at h
  split at h
  · cases h
  · split at h
    · split at h
      · cases h
        rfl
      · cases h
    · cases h

theorem ofText_eq_ok_iff {text : String} {name : PropertyName} :
    ofText text = .ok name ↔ name.text = text := by
  constructor
  · exact text_of_ofText
  · rintro rfl
    have hpos := utf8ByteSize_ne_zero name.segments_valid
    rw [ofText, if_neg hpos, dif_pos name.length_le, dif_pos name.segments_valid]

theorem ofText_joinDots (hne : keys ≠ []) (hk : ∀ k ∈ keys, IsSegment k)
    (hl : (joinDots keys).utf8ByteSize ≤ 255) :
    ∃ name, ofText (joinDots keys) = .ok name ∧ name.segments = keys := by
  have hs := segmentsOf_joinDots hne fun k h => (hk k h).2.1
  have hseg : ∀ s ∈ segmentsOf (joinDots keys), IsSegment s := by rwa [hs]
  exact ⟨⟨joinDots keys, hl, hseg⟩, ofText_eq_ok_iff.mpr rfl, hs⟩

theorem ofText_of_length {text : String} (h : 255 < text.utf8ByteSize) :
    ofText text = .error .nameLength := by
  have hpos : text.utf8ByteSize ≠ 0 := by omega
  rw [ofText, if_neg hpos, dif_neg (Nat.not_le.mpr h)]

end PropertyName
end PropertyGraph
