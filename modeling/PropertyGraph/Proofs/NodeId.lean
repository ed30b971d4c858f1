import Mathlib.Data.Option.Basic
import PropertyGraph.Proofs.PairKey
import PropertyGraph.Proofs.TextOrder

/-! The texts that are read as an identifier, and the order of those that are written. -/
namespace PropertyGraph

variable {cs ds : List Char} {as bs : List UInt8} {id a b : NodeId} {c : Char} {n : Nat}

namespace Hex

theorem digit?_ascii : ∀ k < 128, ∀ n < 16,
    digit? (.ofNat k) = some n ↔ (Char.ofNat k).toLower = digit n := by decide +kernel

theorem digit_lt_digit : ∀ m < 16, ∀ n < 16, digit m < digit n ↔ m < n := by decide

theorem digit_eq_digit : ∀ m < 16, ∀ n < 16, digit m = digit n ↔ m = n := by decide

theorem toNat_digit_lt : ∀ n < 16, (digit n).toNat < 128 := by decide

theorem bounds_of_digit? (h : digit? c = some n) : n < 16 ∧ c.toNat < 128 := by
  have hz : '9'.toNat = 57 ∧ 'f'.toNat = 102 ∧ 'F'.toNat = 70 := by decide
  rw [digit?] at h
  split at h
  · next hc =>
    have h9 : c.toNat ≤ '9'.toNat := hc.2
    cases h
    have h0 : '0'.toNat = 48 := by decide
    omega
  · split at h
    · next hc =>
      have hf : c.toNat ≤ 'f'.toNat := hc.2
      cases h
      have ha : 'a'.toNat = 97 := by decide
      omega
    · split at h
      · next hc =>
        have hf : c.toNat ≤ 'F'.toNat := hc.2
        cases h
        have ha : 'A'.toNat = 65 := by decide
        omega
      · cases h

theorem toLower_of_not_ascii (h : 128 ≤ c.toNat) : c.toLower = c := by
  refine dif_neg fun hc => ?_
  have hz : c.toNat ≤ 'Z'.toNat := hc.2
  have : 'Z'.toNat = 90 := by decide
  omega

/-- A digit is read in either case. -/
theorem digit?_eq_some_iff : digit? c = some n ↔ n < 16 ∧ c.toLower = digit n := by
  by_cases hc : c.toNat < 128
  · have hiff := digit?_ascii c.toNat hc n
    rw [Char.ofNat_toNat] at hiff
    constructor
    · intro h
      have hn := (bounds_of_digit? h).1
      exact ⟨hn, (hiff hn).mp h⟩
    · rintro ⟨hn, h⟩
      exact (hiff hn).mpr h
  · constructor
    · intro h
      exact absurd (bounds_of_digit? h).2 hc
    · rintro ⟨hn, h⟩
      rw [toLower_of_not_ascii (by omega)] at h
      exact absurd (h ▸ toNat_digit_lt n hn) hc

theorem ofBytes_cons (b : UInt8) (bs : List UInt8) :
    ofBytes (b :: bs) = digit (b.toNat / 16) :: digit (b.toNat % 16) :: ofBytes bs := rfl

theorem toNat_ofDigits {hi lo : Nat} (hh : hi < 16) (hl : lo < 16) :
    (UInt8.ofNat (16 * hi + lo)).toNat = 16 * hi + lo := by
  rw [UInt8.toNat_ofNat']
  omega

/-- The digits of bytes are read in either case, and nothing else is. -/
theorem bytes?_eq_some_iff : bytes? cs = some bs ↔ cs.map Char.toLower = ofBytes bs := by
  fun_induction bytes? cs generalizing bs with
  | case1 => cases bs <;> simp [ofBytes, ofByte]
  | case2 c =>
    refine iff_of_false (by simp) fun h => ?_
    have hl := congrArg List.length h
    simp only [List.length_map, List.length_singleton, length_ofBytes] at hl
    omega
  | case3 x y cs ih =>
    simp only [Option.bind_eq_bind, Option.bind_eq_some_iff, Option.some.injEq,
      digit?_eq_some_iff, List.map_cons]
    constructor
    · rintro ⟨hi, ⟨hhi, hx⟩, lo, ⟨hlo, hy⟩, rest, hr, rfl⟩
      have hdiv : (16 * hi + lo) / 16 = hi := by omega
      have hmod : (16 * hi + lo) % 16 = lo := by omega
      rw [ofBytes_cons, toNat_ofDigits hhi hlo, hdiv, hmod, hx, hy, ih.mp hr]
    · intro h
      cases bs with
      | nil => cases h
      | cons b bs =>
        have hb := b.toNat_lt
        obtain ⟨hx, hr⟩ := List.cons.inj h
        obtain ⟨hy, hr⟩ := List.cons.inj hr
        refine ⟨_, ⟨by omega, hx⟩, _, ⟨by omega, hy⟩, bs, ih.mpr hr, ?_⟩
        rw [Nat.div_add_mod, UInt8.ofNat_toNat]

theorem map_toLower_ofBytes (bs : List UInt8) : (ofBytes bs).map Char.toLower = ofBytes bs :=
  bytes?_eq_some_iff.mp (bytes?_ofBytes bs)

/-- Digits are in the order of the bytes that they stand for. -/
theorem ofBytes_lt_iff (h : as.length = bs.length) : ofBytes as < ofBytes bs ↔ as < bs := by
  induction as generalizing bs with
  | nil =>
    obtain rfl := List.length_eq_zero_iff.mp h.symm
    exact iff_of_false (List.lt_irrefl _) (List.lt_irrefl _)
  | cons a as ih =>
    cases bs with
    | nil => cases h
    | cons b bs =>
      have ha := a.toNat_lt
      have hb := b.toNat_lt
      rw [ofBytes_cons, ofBytes_cons, List.cons_lt_cons_iff, List.cons_lt_cons_iff,
        List.cons_lt_cons_iff, ih (Nat.succ.inj h), digit_lt_digit _ (by omega) _ (by omega),
        digit_lt_digit _ (by omega) _ (by omega), digit_eq_digit _ (by omega) _ (by omega),
        digit_eq_digit _ (by omega) _ (by omega), UInt8.lt_iff_toNat_lt, ← UInt8.toNat_inj]
      by_cases hr : as < bs <;> simp only [hr, and_true, and_false, or_false] <;> omega

end Hex

/-- Digits in groups of 8, 4, 4, 4 and 12, with hyphens between them. -/
def hyphenate (ds : List Char) : List Char :=
  ds.take 8 ++ '-' :: (ds.drop 8).take 4 ++ '-' :: (ds.drop 12).take 4
    ++ '-' :: (ds.drop 16).take 4 ++ '-' :: ds.drop 20

theorem hyphenate_groups {a b c d e : List Char} (ha : a.length = 8) (hb : b.length = 4)
    (hc : c.length = 4) (hd : d.length = 4) :
    hyphenate (a ++ b ++ c ++ d ++ e) =
      a ++ '-' :: b ++ '-' :: c ++ '-' :: d ++ '-' :: e := by
  simp [hyphenate, List.drop_append, List.drop_eq_nil_of_le, *]

theorem groups_append (ds : List Char) :
    ds.take 8 ++ (ds.drop 8).take 4 ++ (ds.drop 12).take 4 ++ (ds.drop 16).take 4 ++ ds.drop 20 =
      ds := by
  simp only [← List.take_add, Nat.reduceAdd, List.take_append_drop]

theorem groups_lt_iff {a b c d e a' b' c' d' e' : List Char} (ha : a.length = a'.length)
    (hb : b.length = b'.length) (hc : c.length = c'.length) (hd : d.length = d'.length) :
    a ++ '-' :: b ++ '-' :: c ++ '-' :: d ++ '-' :: e <
      a' ++ '-' :: b' ++ '-' :: c' ++ '-' :: d' ++ '-' :: e' ↔
    a ++ b ++ c ++ d ++ e < a' ++ b' ++ c' ++ d' ++ e' := by
  simp only [List.append_assoc, List.cons_append, List.cons_lt_cons_iff,
    Text.append_lt_append_iff ha, Text.append_lt_append_iff hb, Text.append_lt_append_iff hc,
    Text.append_lt_append_iff hd, lt_irrefl, false_or, true_and]

theorem hyphenate_lt_iff (h : cs.length = ds.length) : hyphenate cs < hyphenate ds ↔ cs < ds := by
  conv => rhs; rw [← groups_append cs, ← groups_append ds]
  exact groups_lt_iff (by simp [h]) (by simp [h]) (by simp [h]) (by simp [h])

theorem drop_eq_of_getElem? {i : Nat} (h : cs[i + n]? = some c) :
    cs.drop i = (cs.drop i).take n ++ c :: cs.drop (i + n + 1) := by
  obtain ⟨hn, rfl⟩ := List.getElem?_eq_some_iff.mp h
  rw [← List.drop_eq_getElem_cons, ← List.drop_drop, List.take_append_drop]

theorem exists_groups (hl : cs.length = 36)
    (hh : [8, 13, 18, 23].all fun i => cs[i]? = some '-') :
    ∃ a b c d e : List Char, a.length = 8 ∧ b.length = 4 ∧ c.length = 4 ∧ d.length = 4 ∧
      e.length = 12 ∧ cs = a ++ '-' :: b ++ '-' :: c ++ '-' :: d ++ '-' :: e := by
  simp only [List.all_cons, List.all_nil, Bool.and_true, Bool.and_eq_true, decide_eq_true_eq] at hh
  obtain ⟨h₁, h₂, h₃, h₄⟩ := hh
  have h₁ : cs = cs.take 8 ++ '-' :: cs.drop 9 := drop_eq_of_getElem? (i := 0) h₁
  have h₂ : cs.drop 9 = (cs.drop 9).take 4 ++ '-' :: cs.drop 14 := drop_eq_of_getElem? h₂
  have h₃ : cs.drop 14 = (cs.drop 14).take 4 ++ '-' :: cs.drop 19 := drop_eq_of_getElem? h₃
  have h₄ : cs.drop 19 = (cs.drop 19).take 4 ++ '-' :: cs.drop 24 := drop_eq_of_getElem? h₄
  refine ⟨cs.take 8, (cs.drop 9).take 4, (cs.drop 14).take 4, (cs.drop 19).take 4, cs.drop 24,
    by simp [hl], by simp [hl], by simp [hl], by simp [hl], by simp [hl], ?_⟩
  simp only [List.append_assoc, List.cons_append]
  rw [← h₄, ← h₃, ← h₂, ← h₁]

namespace NodeId

/-- The digits of an identifier, each in either case. -/
def Digits (id : NodeId) (ds : List Char) : Prop := ds.map Char.toLower = Hex.ofBytes id.bytes

/-- The forms in which an identifier may be spelled. -/
inductive Spells (id : NodeId) : List Char → Prop
  | plain {ds : List Char} (digits : id.Digits ds) : Spells id ds
  | hyphenated {ds : List Char} (digits : id.Digits ds) : Spells id (hyphenate ds)
  | braced {ds : List Char} (digits : id.Digits ds) :
      Spells id ('\x7b' :: hyphenate ds ++ ['\x7d'])
  | urn {scheme ds : List Char} (named : scheme.map Char.toLower = "urn:uuid:".toList)
      (digits : id.Digits ds) : Spells id (scheme ++ hyphenate ds)

theorem Digits.length (h : id.Digits ds) : ds.length = 32 := by
  have hl := congrArg List.length h
  simpa [id.length_eq] using hl

theorem ofDigits?_eq_some_iff : ofDigits? cs = some id ↔ id.Digits cs := by
  simp only [ofDigits?, Option.bind_eq_some_iff, Hex.bytes?_eq_some_iff, ofBytes?]
  constructor
  · rintro ⟨bs, hb, h⟩
    split at h
    · cases h
      exact hb
    · cases h
  · intro h
    exact ⟨id.bytes, h, dif_pos id.length_eq⟩

theorem ofHyphenated?_eq_some_iff :
    ofHyphenated? cs = some id ↔ ∃ ds, id.Digits ds ∧ cs = hyphenate ds := by
  constructor
  · intro h
    have hcs := h
    rw [ofHyphenated?] at hcs
    split at hcs
    · next hg =>
      obtain ⟨a, b, c, d, e, ha, hb, hc, hd, he, rfl⟩ := exists_groups hg.1 hg.2
      rw [ofHyphenated?_groups ha hb hc hd he] at h
      exact ⟨_, ofDigits?_eq_some_iff.mp h, (hyphenate_groups ha hb hc hd).symm⟩
    · cases hcs
  · rintro ⟨ds, hd, rfl⟩
    have hl := hd.length
    rw [hyphenate, ofHyphenated?_groups (by simp [hl]) (by simp [hl]) (by simp [hl])
      (by simp [hl]) (by simp [hl]), groups_append]
    exact ofDigits?_eq_some_iff.mpr hd

theorem ofBraced?_eq_some_iff :
    ofBraced? cs = some id ↔ ∃ ds, id.Digits ds ∧ cs = '\x7b' :: hyphenate ds ++ ['\x7d'] := by
  constructor
  · intro h
    unfold ofBraced? at h
    split at h
    · next cs =>
      split at h
      · next hl =>
        obtain ⟨ds, hd, hds⟩ := ofHyphenated?_eq_some_iff.mp h
        obtain ⟨init, rfl⟩ := List.getLast?_eq_some_iff.mp hl
        rw [List.dropLast_concat] at hds
        exact ⟨ds, hd, hds ▸ rfl⟩
      · cases h
    · cases h
  · rintro ⟨ds, hd, rfl⟩
    rw [List.cons_append, ofBraced?, if_pos List.getLast?_concat, List.dropLast_concat]
    exact ofHyphenated?_eq_some_iff.mpr ⟨ds, hd, rfl⟩

theorem length_scheme {scheme : List Char}
    (h : scheme.map Char.toLower = "urn:uuid:".toList) : scheme.length = 9 := by
  have hl := congrArg List.length h
  rwa [List.length_map] at hl

theorem ofUrn?_eq_some_iff : ofUrn? cs = some id ↔
    ∃ scheme ds, scheme.map Char.toLower = "urn:uuid:".toList ∧ id.Digits ds ∧
      cs = scheme ++ hyphenate ds := by
  constructor
  · intro h
    rw [ofUrn?] at h
    split at h
    · next hs =>
      obtain ⟨ds, hd, hds⟩ := ofHyphenated?_eq_some_iff.mp h
      exact ⟨cs.take 9, ds, hs, hd, by rw [← hds, List.take_append_drop]⟩
    · cases h
  · rintro ⟨scheme, ds, hs, hd, rfl⟩
    have hl := length_scheme hs
    rw [ofUrn?, List.take_left' hl, List.drop_left' hl, if_pos hs]
    exact ofHyphenated?_eq_some_iff.mpr ⟨ds, hd, rfl⟩

theorem Digits.length_hyphenate (h : id.Digits ds) : (hyphenate ds).length = 36 := by
  simp [hyphenate, h.length]

theorem ofDigits?_eq_none (h : cs.length ≠ 32) : ofDigits? cs = none := by
  refine Option.eq_none_iff_forall_ne_some.mpr fun id hid => ?_
  exact h (ofDigits?_eq_some_iff.mp hid).length

theorem ofHyphenated?_eq_none (h : cs.length ≠ 36) : ofHyphenated? cs = none := by
  refine Option.eq_none_iff_forall_ne_some.mpr fun id hid => ?_
  obtain ⟨ds, hd, rfl⟩ := ofHyphenated?_eq_some_iff.mp hid
  exact h hd.length_hyphenate

theorem ofBraced?_eq_none (h : cs.length ≠ 38) : ofBraced? cs = none := by
  refine Option.eq_none_iff_forall_ne_some.mpr fun id hid => ?_
  obtain ⟨ds, hd, rfl⟩ := ofBraced?_eq_some_iff.mp hid
  simp [hd.length_hyphenate] at h

/-- Each form has a length of its own, so no text is taken for one of another form. -/
theorem ofText?_eq_some_iff {text : String} :
    ofText? text = some id ↔ id.Spells text.toList := by
  simp only [ofText?, Option.orElse_eq_some, ofDigits?_eq_some_iff, ofHyphenated?_eq_some_iff,
    ofBraced?_eq_some_iff, ofUrn?_eq_some_iff]
  generalize text.toList = cs
  constructor
  · rintro (hd | ⟨-, ⟨ds, hd, rfl⟩ | ⟨-, ⟨ds, hd, rfl⟩ | ⟨-, scheme, ds, hs, hd, rfl⟩⟩⟩)
    · exact .plain hd
    · exact .hyphenated hd
    · exact .braced hd
    · exact .urn hs hd
  · intro h
    cases h with
    | plain hd => exact .inl hd
    | @hyphenated ds hd =>
      have hl := hd.length_hyphenate
      exact .inr ⟨ofDigits?_eq_none (by omega), .inl ⟨ds, hd, rfl⟩⟩
    | @braced ds hd =>
      have hl : ('\x7b' :: hyphenate ds ++ ['\x7d']).length = 38 := by simp [hd.length_hyphenate]
      exact .inr ⟨ofDigits?_eq_none (by omega), .inr ⟨ofHyphenated?_eq_none (by omega),
        .inl ⟨ds, hd, rfl⟩⟩⟩
    | @urn scheme ds hs hd =>
      have hl : (scheme ++ hyphenate ds).length = 45 := by
        simp [length_scheme hs, hd.length_hyphenate]
      exact .inr ⟨ofDigits?_eq_none (by omega), .inr ⟨ofHyphenated?_eq_none (by omega),
        .inr ⟨ofBraced?_eq_none (by omega), scheme, ds, hs, hd, rfl⟩⟩⟩

theorem text_eq (id : NodeId) : id.text.toList = hyphenate (Hex.ofBytes id.bytes) := by
  have hl := id.length_eq
  conv => rhs; rw [← id.groups_bytes]
  simp only [Hex.ofBytes_append]
  rw [hyphenate_groups (by simp [hl]) (by simp [hl]) (by simp [hl]) (by simp [hl]), text,
    String.toList_ofList]

theorem ofText?_text (id : NodeId) : ofText? id.text = some id := by
  rw [ofText?_eq_some_iff, text_eq]
  exact .hyphenated (Hex.map_toLower_ofBytes id.bytes)

/-- Identifiers as they are written are in the order of their bytes. -/
theorem text_lt_iff : a.text.toList < b.text.toList ↔ a < b := by
  have hl : a.bytes.length = b.bytes.length := a.length_eq.trans b.length_eq.symm
  rw [text_eq, text_eq, hyphenate_lt_iff (by simp [hl])]
  exact Hex.ofBytes_lt_iff hl

end NodeId

end PropertyGraph
