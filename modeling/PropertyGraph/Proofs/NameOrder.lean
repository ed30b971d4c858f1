import PropertyGraph.Proofs.TextOrder
import PropertyGraph.Proofs.Views

/-! Names are the texts of short paths, one name for each path, and a name comes before all that go
on from it. -/
namespace PropertyGraph

variable {text : String} {keys ls : List String} {p q name : PropertyName}

theorem utf8ByteSize_le_of_prefix {s t : String} (h : s.toList <+: t.toList) :
    s.utf8ByteSize ≤ t.utf8ByteSize := by
  obtain ⟨cs, hcs⟩ := h
  have ht : t = s ++ .ofList cs := by
    apply String.toList_inj.mp
    rw [String.toList_append, String.toList_ofList, hcs]
  rw [ht, String.utf8ByteSize_append]
  exact Nat.le_add_right _ _

theorem utf8ByteSize_joinDots_le (h : ls <+: keys) :
    (joinDots ls).utf8ByteSize ≤ (joinDots keys).utf8ByteSize :=
  utf8ByteSize_le_of_prefix (prefix_joinDots h)

namespace PropertyName

/-- Keys that can be segments, joined by dots. -/
structure Spells (text : String) (keys : List String) : Prop where
  ne_nil : keys ≠ []
  segments : ∀ k ∈ keys, IsSegment k
  joined : joinDots keys = text

/-- A text spells one path at most. -/
theorem Spells.segmentsOf_eq (h : Spells text keys) : segmentsOf text = keys := by
  have hk : ∀ k ∈ keys, '.' ∉ k.toList := fun k hk => (h.segments k hk).2.1
  rw [← h.joined, segmentsOf_joinDots h.ne_nil hk]

theorem spells (name : PropertyName) : Spells name.text name.segments :=
  ⟨name.segments_ne_nil, name.segments_valid, joinDots_segmentsOf name.text⟩

theorem utf8ByteSize_pos (name : PropertyName) : 1 ≤ name.text.utf8ByteSize :=
  Nat.one_le_iff_ne_zero.mpr (utf8ByteSize_ne_zero name.segments_valid)

theorem exists_ofText_iff : (∃ name, ofText text = .ok name) ↔
    (1 ≤ text.utf8ByteSize ∧ text.utf8ByteSize ≤ 255) ∧ ∃ keys, Spells text keys := by
  constructor
  · rintro ⟨name, h⟩
    obtain rfl := ofText_eq_ok_iff.mp h
    exact ⟨⟨name.utf8ByteSize_pos, name.length_le⟩, _, name.spells⟩
  · rintro ⟨⟨-, hl⟩, keys, h⟩
    rw [← h.joined] at hl ⊢
    obtain ⟨name, hn, -⟩ := ofText_joinDots h.ne_nil h.segments hl
    exact ⟨name, hn⟩

theorem segments_inj (h : p.segments = q.segments) : p = q := by
  refine ext_text ?_
  rw [← p.spells.joined, ← q.spells.joined, h]

/-- What a path goes through first is a path with a name of its own. -/
theorem exists_segments_eq (hne : ls ≠ []) (hp : ls <+: name.segments) :
    ∃ above : PropertyName, above.segments = ls := by
  have hk : ∀ k ∈ ls, IsSegment k := fun k hk => name.segments_valid k (hp.subset hk)
  have hl := utf8ByteSize_joinDots_le hp
  rw [name.spells.joined] at hl
  obtain ⟨above, -, hs⟩ := ofText_joinDots hne hk (Nat.le_trans hl name.length_le)
  exact ⟨above, hs⟩

theorem lt_of_onWay (h : OnWay p.segments q.segments) : p < q := by
  rcases LinearKey.trichotomy p q with hlt | rfl | hlt
  · exact hlt
  · exact absurd rfl h.2
  · exact absurd hlt (not_lt_of_segments h.1)

/-- A text makes a name if it is short and spells a path, which is then the path of the name. Names
are in the order of their bytes, so whoever goes through names in order comes to each before those
that go on from it. -/
theorem names_are_paths :
    (∀ text, (∃ name, ofText text = .ok name) ↔
      (1 ≤ text.utf8ByteSize ∧ text.utf8ByteSize ≤ 255) ∧ ∃ keys, Spells text keys) ∧
    (∀ text name keys, ofText text = .ok name → Spells text keys → name.segments = keys) ∧
    (∀ p q : PropertyName, p = q ↔ p.segments = q.segments) ∧
    (∀ p q : PropertyName, p < q ↔ Text.bytes p.text < Text.bytes q.text) ∧
    ∀ p q : PropertyName, OnWay p.segments q.segments → p < q ∧
      ∀ (α : Type) (m : OrderedMap PropertyName α), p ∈ m.keys → q ∈ m.keys →
        ∃ before between after, m.keys = before ++ p :: between ++ q :: after := by
  refine ⟨fun text => exists_ofText_iff, ?_, ?_, fun p q => Text.lt_iff_bytes, ?_⟩
  · intro text name keys h hs
    obtain rfl := ofText_eq_ok_iff.mp h
    exact hs.segmentsOf_eq
  · intro p q
    exact ⟨fun h => congrArg segments h, segments_inj⟩
  · intro p q h
    have hlt := lt_of_onWay h
    exact ⟨hlt, fun α m hp hq => Ascending.exists_keys_eq hp hq hlt⟩

def sampleSize : PropertyName := ⟨"größe", by decide, by decide⟩

def sampleHeight : PropertyName := ⟨"größe.höhe", by decide, by decide⟩

/-- Its path is not between those of the two, but its bytes are. -/
def sampleMark : PropertyName := ⟨"größe-x", by decide, by decide⟩

theorem names_are_paths_sample :
    let text := "größe.höhe"
    let m := OrderedSet.ofList [sampleHeight, sampleMark, sampleSize]
    (∃ name, ofText text = .ok name) ∧ ofText text = .ok sampleHeight ∧
      Spells text ["größe", "höhe"] ∧ sampleHeight.segments = ["größe", "höhe"] ∧
      OnWay sampleSize.segments sampleHeight.segments ∧ sampleSize < sampleHeight ∧
      sampleSize ∈ m.keys ∧ sampleHeight ∈ m.keys ∧
      ∃ before between after,
        m.keys = before ++ sampleSize :: between ++ sampleHeight :: after := by
  intro text m
  obtain ⟨hexists, hsegments, -, -, horder⟩ := names_are_paths
  have hs : Spells text ["größe", "höhe"] := ⟨by decide, by decide, by decide +kernel⟩
  have hn : ofText text = .ok sampleHeight := ofText_eq_ok_iff.mpr rfl
  have hl : OnWay sampleSize.segments sampleHeight.segments := by
    unfold OnWay
    decide +kernel
  have hp : sampleSize ∈ m.keys := by decide +kernel
  have hq : sampleHeight ∈ m.keys := by decide +kernel
  obtain ⟨hlt, hbefore⟩ := horder _ _ hl
  exact ⟨(hexists text).mpr ⟨by decide, _, hs⟩, hn, hs, hsegments text _ _ hn hs, hl, hlt, hp, hq,
    hbefore Unit m hp hq⟩

end PropertyName
end PropertyGraph
