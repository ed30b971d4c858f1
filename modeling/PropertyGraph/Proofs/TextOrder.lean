import Mathlib.Data.Char

/-! Texts are in the order of their bytes. -/
namespace PropertyGraph.Text

theorem append_lt_append_iff {α : Type} [LT α] {xs ys xs' ys' : List α}
    (h : xs.length = ys.length) :
    xs ++ xs' < ys ++ ys' ↔ xs < ys ∨ xs = ys ∧ xs' < ys' := by
  induction xs generalizing ys with
  | nil =>
    obtain rfl := List.length_eq_zero_iff.mp h.symm
    simp
  | cons x xs ih =>
    cases ys with
    | nil => cases h
    | cons y ys =>
      have hr := ih (Nat.succ.inj h)
      rw [List.cons_append, List.cons_append, List.cons_lt_cons_iff, hr, List.cons_lt_cons_iff,
        List.cons.injEq]
      grind

/-- The bytes of a text in UTF-8. -/
def bytes (s : String) : List UInt8 := s.toUTF8.data.toList

theorem bytes_eq (s : String) : bytes s = s.toList.flatMap String.utf8EncodeChar := by
  have h := s.utf8Encode_toList
  rw [List.utf8Encode] at h
  rw [bytes, String.toUTF8, ← h]
  simp

theorem toNat_val_lt (c : Char) : c.val.toNat < 0x110000 := by
  have h := c.valid
  simp only [UInt32.isValidChar, Nat.isValidChar] at h
  omega

/-- A larger character has a larger byte where the two first differ. -/
theorem encode_lt_of_lt {c d : Char} (h : c < d) (xs ys : List UInt8) :
    String.utf8EncodeChar c ++ xs < String.utf8EncodeChar d ++ ys := by
  have hlt : c.val.toNat < d.val.toNat := h
  have hd := toNat_val_lt d
  rw [String.utf8EncodeChar, String.utf8EncodeChar]
  generalize c.val.toNat = m at *
  generalize d.val.toNat = n at *
  split_ifs <;>
    simp only [List.cons_append, List.nil_append, List.cons_lt_cons_iff, UInt8.lt_iff_toNat_lt,
      ← UInt8.toNat_inj, UInt8.toNat_ofNat'] <;>
    simp (disch := omega) only [Nat.mod_eq_of_lt, Nat.add_lt_add_iff_right,
      Nat.add_right_cancel_iff] <;>
    omega

theorem flatMap_encode_lt_iff (cs ds : List Char) :
    cs.flatMap String.utf8EncodeChar < ds.flatMap String.utf8EncodeChar ↔ cs < ds := by
  induction cs generalizing ds with
  | nil =>
    cases ds with
    | nil => simp
    | cons d ds =>
      have hd : String.utf8EncodeChar d ≠ [] := by simp
      obtain ⟨b, bs, hb⟩ := List.exists_cons_of_ne_nil hd
      simp [hb]
  | cons c cs ih =>
    cases ds with
    | nil => simp
    | cons d ds =>
      rw [List.flatMap_cons, List.flatMap_cons, List.cons_lt_cons_iff]
      rcases lt_trichotomy c d with hlt | rfl | hlt
      · exact iff_of_true (encode_lt_of_lt hlt _ _) (.inl hlt)
      · rw [append_lt_append_iff rfl, ih]
        simp [List.lt_irrefl]
      · refine iff_of_false (List.lt_asymm (encode_lt_of_lt hlt _ _)) ?_
        rintro (hlt' | ⟨rfl, -⟩)
        · exact absurd hlt' (lt_asymm hlt)
        · exact absurd hlt (lt_irrefl _)

/-- The order of texts is the order of their bytes. -/
theorem lt_iff_bytes {s t : String} : s < t ↔ bytes s < bytes t := by
  rw [bytes_eq, bytes_eq, flatMap_encode_lt_iff]
  exact Iff.rfl

end PropertyGraph.Text
