import Mathlib.Algebra.Group.Nat.Defs
import PropertyGraph.Edge

/-! The key of a directed pair tells its endpoints, and it is short. -/
namespace PropertyGraph

namespace Text

theorem size_utf8Encode_le (cs : List Char) : cs.utf8Encode.size ≤ 4 * cs.length := by
  induction cs with
  | nil => exact Nat.le_refl _
  | cons c cs ih =>
    have hc := c.utf8Size_le_four
    have hs : [c].utf8Encode.size = c.utf8Size := by simp [List.utf8Encode_singleton]
    rw [List.utf8Encode_cons, ByteArray.size_append, hs, List.length_cons]
    omega

theorem utf8ByteSize_le (s : String) : s.utf8ByteSize ≤ 4 * s.toList.length := by
  have h := size_utf8Encode_le s.toList
  rwa [String.utf8Encode_toList] at h

end Text

namespace Hex

theorem digit?_digit : ∀ n < 16, digit? (digit n) = some n := by decide

@[simp] theorem length_ofBytes (bs : List UInt8) : (ofBytes bs).length = 2 * bs.length := by
  induction bs with
  | nil => rfl
  | cons b bs ih => simp_all [ofBytes, ofByte]; omega

theorem bytes?_ofBytes (bs : List UInt8) : bytes? (ofBytes bs) = some bs := by
  induction bs with
  | nil => rfl
  | cons b bs ih =>
    have hb := b.toNat_lt
    have hc : ofBytes (b :: bs) = digit (b.toNat / 16) :: digit (b.toNat % 16) :: ofBytes bs := rfl
    rw [hc, bytes?, digit?_digit _ (by omega), digit?_digit _ (by omega), ih]
    simp only [Option.bind_eq_bind, Option.bind_some, Nat.div_add_mod, UInt8.ofNat_toNat]

theorem ofBytes_append (as bs : List UInt8) : ofBytes (as ++ bs) = ofBytes as ++ ofBytes bs :=
  List.flatMap_append

end Hex

namespace NodeId

/-- The identifier with one byte everywhere. -/
def ofByte (b : UInt8) : NodeId := ⟨List.replicate 16 b, List.length_replicate⟩

/-- The hyphens stand between groups of 8, 4, 4, 4 and 12 digits. -/
theorem ofHyphenated?_groups {a b c d e : List Char} (ha : a.length = 8) (hb : b.length = 4)
    (hc : c.length = 4) (hd : d.length = 4) (he : e.length = 12) :
    ofHyphenated? (a ++ '-' :: b ++ '-' :: c ++ '-' :: d ++ '-' :: e) =
      ofDigits? (a ++ b ++ c ++ d ++ e) := by
  simp [ofHyphenated?, List.drop_append, List.getElem?_append,
    List.drop_eq_nil_of_le, *]

theorem groups_bytes (id : NodeId) :
    (id.bytes.drop 0).take 4 ++ (id.bytes.drop 4).take 2 ++ (id.bytes.drop 6).take 2
      ++ (id.bytes.drop 8).take 2 ++ (id.bytes.drop 10).take 6 = id.bytes := by
  have hl := id.length_eq
  simp only [List.drop_zero, ← List.take_add, Nat.reduceAdd]
  exact List.take_of_length_le (by omega)

theorem ofHyphenated?_text (id : NodeId) : ofHyphenated? id.text.toList = some id := by
  have hl := id.length_eq
  rw [text, String.toList_ofList]
  dsimp only
  rw [ofHyphenated?_groups (by simp [hl]) (by simp [hl]) (by simp [hl]) (by simp [hl])
    (by simp [hl])]
  rw [← Hex.ofBytes_append, ← Hex.ofBytes_append, ← Hex.ofBytes_append, ← Hex.ofBytes_append,
    id.groups_bytes, ofDigits?, Hex.bytes?_ofBytes, Option.bind_some, ofBytes?, dif_pos hl]

theorem text_inj {a b : NodeId} (h : a.text = b.text) : a = b := by
  have ha := ofHyphenated?_text a
  rw [h, ofHyphenated?_text b] at ha
  exact (Option.some.inj ha).symm

@[simp] theorem length_text (id : NodeId) : id.text.toList.length = 36 := by
  simp [text, id.length_eq]

end NodeId

/-- Identifiers are all written at the same length, so a key splits in one way only. -/
theorem pairKey_inj {src dest src' dest' : NodeId} (h : pairKey src dest = pairKey src' dest') :
    src = src' ∧ dest = dest' := by
  have ht := congrArg String.toList h
  simp only [pairKey, String.toList_append, List.append_assoc] at ht
  obtain ⟨hs, hr⟩ := List.append_inj ht (by simp)
  have hd := (List.append_inj hr rfl).2
  exact ⟨NodeId.text_inj (String.toList_inj.mp hs), NodeId.text_inj (String.toList_inj.mp hd)⟩

theorem utf8ByteSize_pairKey_lt (src dest : NodeId) : (pairKey src dest).utf8ByteSize < 2 ^ 32 := by
  have hl : (pairKey src dest).toList.length = 73 := by simp [pairKey]
  have hs := Text.utf8ByteSize_le (pairKey src dest)
  omega

end PropertyGraph
