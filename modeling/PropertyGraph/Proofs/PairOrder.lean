import Mathlib.Data.Prod.Basic
import PropertyGraph.Proofs.Lifecycle
import PropertyGraph.Proofs.NodeId
import PropertyGraph.Proofs.Search

/-! The keys of pairs are in the order of the pairs, however the identifiers are spelled. -/
namespace PropertyGraph

variable {src dest src' dest' : NodeId} {a b a' b' key key' : String} {s : Storage} {f : Filter}
  {p : Projection} {found : List ProjectedEdge} {e : Edge}

/-- The order of pairs by the bytes of their sources, and by those of their destinations where the
sources are the same. -/
def PairLT (src dest src' dest' : NodeId) : Prop :=
  Prod.Lex (· < ·) (· < ·) (src.bytes, dest.bytes) (src'.bytes, dest'.bytes)

theorem pairLT_iff :
    PairLT src dest src' dest' ↔ src < src' ∨ src = src' ∧ dest < dest' := by
  rw [PairLT, Prod.lex_iff]
  constructor
  · rintro (hs | ⟨hs, hd⟩)
    · exact .inl hs
    · exact .inr ⟨NodeId.ext_bytes hs, hd⟩
  · rintro (hs | ⟨rfl, hd⟩)
    · exact .inl hs
    · exact .inr ⟨rfl, hd⟩

theorem toList_pairKey (src dest : NodeId) :
    (pairKey src dest).toList = src.text.toList ++ ':' :: dest.text.toList := by
  simp [pairKey]

theorem pairKey_eq_iff :
    pairKey src dest = pairKey src' dest' ↔ src = src' ∧ dest = dest' := by
  constructor
  · exact pairKey_inj
  · rintro ⟨rfl, rfl⟩
    rfl

theorem toList_text_eq_iff : src.text.toList = src'.text.toList ↔ src = src' := by
  constructor
  · intro h
    exact NodeId.text_inj (String.toList_inj.mp h)
  · rintro rfl
    rfl

/-- The sources are all written at one length, so they are compared before the rest is. -/
theorem pairKey_lt_iff :
    pairKey src dest < pairKey src' dest' ↔ PairLT src dest src' dest' := by
  have hl : src.text.toList.length = src'.text.toList.length := by simp
  change (pairKey src dest).toList < (pairKey src' dest').toList ↔ _
  rw [toList_pairKey, toList_pairKey, Text.append_lt_append_iff hl, List.cons_lt_cons_iff,
    NodeId.text_lt_iff, NodeId.text_lt_iff, toList_text_eq_iff, pairLT_iff]
  simp

/-- The key of a pair whose endpoints are spelled out, if both are read. -/
def pairKeyOfTexts? (src dest : String) : Option String := do
  return pairKey (← NodeId.ofText? src) (← NodeId.ofText? dest)

theorem pairKeyOfTexts?_eq_some_iff : pairKeyOfTexts? a b = some key ↔
    ∃ src dest, NodeId.ofText? a = some src ∧ NodeId.ofText? b = some dest ∧
      pairKey src dest = key := by
  simp [pairKeyOfTexts?, Option.bind_eq_some_iff]

theorem pairKeyOfTexts?_pairKey_iff : pairKeyOfTexts? a b = some (pairKey src dest) ↔
    NodeId.ofText? a = some src ∧ NodeId.ofText? b = some dest := by
  rw [pairKeyOfTexts?_eq_some_iff]
  constructor
  · rintro ⟨src', dest', ha, hb, hk⟩
    obtain ⟨rfl, rfl⟩ := pairKey_inj hk
    exact ⟨ha, hb⟩
  · rintro ⟨ha, hb⟩
    exact ⟨src, dest, ha, hb, rfl⟩

theorem eq_iff_of_pairKeyOfTexts? (h : pairKeyOfTexts? a b = some key)
    (h' : pairKeyOfTexts? a' b' = some key') :
    key = key' ↔ NodeId.ofText? a = NodeId.ofText? a' ∧ NodeId.ofText? b = NodeId.ofText? b' := by
  obtain ⟨src, dest, ha, hb, rfl⟩ := pairKeyOfTexts?_eq_some_iff.mp h
  obtain ⟨src', dest', ha', hb', rfl⟩ := pairKeyOfTexts?_eq_some_iff.mp h'
  rw [pairKey_eq_iff, ha, hb, ha', hb', Option.some.injEq, Option.some.injEq]

/-- A request is pinned to the key of the pair that it spells out. -/
theorem Descriptor.uniqueIndex_of_compile {d : Descriptor} {op : Operation}
    (h : d.compile = .ok op) (ha : d.src = NodeId.ofText? a) (hb : d.dest = NodeId.ofText? b) :
    op.filter.uniqueIndex = pairKeyOfTexts? a b := by
  rw [pairKeyOfTexts?, ← ha, ← hb]
  rw [compile] at h
  split at h
  · rw [search] at h
    split at h
    · cases h
    · cases h
      cases d.src <;> cases d.dest <;> rfl
  · rw [single] at h
    split at h
    · cases h
    · cases h
    · next hs hd =>
      cases h
      rw [hs, hd]
      rfl

namespace Storage

theorem pairwise_of_pinned {R : ProjectedEdge → ProjectedEdge → Prop}
    (hk : f.uniqueIndex = some key) (h : s.find f p = .ok found) : found.Pairwise R := by
  have hone (e? : Option Edge) : (e?.toList.map p.apply).Pairwise R := by
    cases e? with
    | none => exact .nil
    | some e => exact List.pairwise_singleton R _
  obtain ⟨engine, disk⟩ := s
  obtain ⟨_, -, h⟩ := bind_eq_ok.mp h
  cases engine with
  | memory running persistent edges =>
    cases h
    rw [Edges.find, hk]
    exact hone _
  | tree running =>
    change disk.tree.find f p = .ok found at h
    rw [EdgeTree.find, hk] at h
    obtain ⟨e?, -, hf⟩ := bind_eq_ok.mp h
    cases hf
    exact hone _

theorem running_of_find (h : s.find f p = .ok found) : s.engine.running = true := by
  obtain ⟨_, hr, -⟩ := bind_eq_ok.mp h
  exact requireRunning_eq_ok.mp hr

/-- What a search finds is in the order of the pairs. -/
theorem Reachable.pairwise_found (h : s.Reachable) (hf : s.find f p = .ok found) :
    found.Pairwise fun e e' => PairLT e.src e.dest e'.src e'.dest := by
  cases hk : f.uniqueIndex with
  | some key => exact pairwise_of_pinned hk hf
  | none =>
    obtain ⟨edges₀, hs⟩ := h.sound
    obtain ⟨edges, hr⟩ := reads_of_find hk hf
    have hfound := (hr.searched (running_of_find hf) (hs.keyed_of_reads hr)).found_ascending f p
    exact (hfound found hf).imp pairKey_lt_iff.mp

theorem Reachable.pairKeyOfTexts?_iff (h : s.Reachable) (he : s.stored? key = some (.ok e)) :
    pairKeyOfTexts? a b = some key ↔
      NodeId.ofText? a = some e.src ∧ NodeId.ofText? b = some e.dest := by
  obtain ⟨edges, hs⟩ := h.sound
  rw [(hs.stored?_keyedBy he).made]
  exact pairKeyOfTexts?_pairKey_iff

end Storage

/-- The key of a pair tells the pair, and it has the pair's place in the order of their bytes.
Since an identifier is read again from what is written of it, and from nothing but its spellings,
requests that spell one pair in different ways have the one edge of that pair in common. -/
theorem pairKey_faithful :
    (∀ src dest src' dest',
      (pairKey src dest = pairKey src' dest' ↔ src = src' ∧ dest = dest') ∧
      (Text.bytes (pairKey src dest) < Text.bytes (pairKey src' dest') ↔
        PairLT src dest src' dest')) ∧
    (∀ id, NodeId.ofText? (NodeId.text id) = some id ∧
      ∀ text, NodeId.ofText? text = some id ↔ id.Spells text.toList) ∧
    (∀ a b key, pairKeyOfTexts? a b = some key →
      (∀ a' b' key', pairKeyOfTexts? a' b' = some key' →
        (key = key' ↔
          NodeId.ofText? a = NodeId.ofText? a' ∧ NodeId.ofText? b = NodeId.ofText? b')) ∧
      ∀ (d : Descriptor) op, d.compile = .ok op → d.src = NodeId.ofText? a →
        d.dest = NodeId.ofText? b → op.filter.uniqueIndex = some key) ∧
    ∀ s : Storage, s.Reachable →
      (∀ key e a b, s.stored? key = some (.ok e) →
        (pairKeyOfTexts? a b = some key ↔
          NodeId.ofText? a = some e.src ∧ NodeId.ofText? b = some e.dest)) ∧
      ∀ f p found, s.find f p = .ok found →
        found.Pairwise fun e e' => PairLT e.src e.dest e'.src e'.dest := by
  refine ⟨?_, ?_, ?_, ?_⟩
  · intro src dest src' dest'
    exact ⟨pairKey_eq_iff, Text.lt_iff_bytes.symm.trans pairKey_lt_iff⟩
  · intro id
    exact ⟨id.ofText?_text, fun text => NodeId.ofText?_eq_some_iff⟩
  · intro a b key hk
    refine ⟨fun a' b' key' => eq_iff_of_pairKeyOfTexts? hk, ?_⟩
    intro d op hc ha hb
    exact (d.uniqueIndex_of_compile hc ha hb).trans hk
  · intro s h
    exact ⟨fun key e a b he => h.pairKeyOfTexts?_iff he, fun f p found hf => h.pairwise_found hf⟩

/-- A memory engine with the edges of two pairs, the later one made first. -/
def samplePairs : Storage :=
  let b : NodeId := .ofByte 0x0b
  let key : Filter := { src := some b, dest := some b, uniqueIndex := some (pairKey b b) }
  [.start, Storage.sampleUpsert, .data (.upsert key {} { upsert := true })].foldl
    (fun s c => (s.call c).2) { engine := .memory false false ∅, disk := {} }

set_option maxRecDepth 8000 in
theorem pairKey_faithful_sample :
    let a : NodeId := .ofByte 0xaa
    let b : NodeId := .ofByte 0x0b
    let braced := "\x7bAAAAAAAA-aaaa-AAAA-aaaa-AAAAAAAAAAAA\x7d"
    let urn := "URN:uuid:aaaaaaaa-aaaa-aaaa-aaaa-aaaaaaaaaaaa"
    let plain := "AaAaAaAaAaAaAaAaAaAaAaAaAaAaAaAa"
    samplePairs.Reachable ∧ samplePairs.stored? (pairKey a a) = some (.ok (.new a a)) ∧
      pairKeyOfTexts? braced urn = some (pairKey a a) ∧
      pairKeyOfTexts? plain a.text = some (pairKey a a) ∧
      NodeId.ofText? braced = NodeId.ofText? plain ∧ NodeId.ofText? urn = NodeId.ofText? a.text ∧
      (∃ op, Descriptor.compile { src := some a, dest := some a } = .ok op ∧
        op.filter.uniqueIndex = some (pairKey a a)) ∧
      samplePairs.find {} .all = .ok [⟨b, b, none⟩, ⟨a, a, none⟩] ∧ PairLT b b a a := by
  intro a b braced urn plain
  have h₀ : Storage.Reachable ⟨.memory false false ∅, {}⟩ := .blank ⟨rfl, rfl, rfl⟩
  have h₁ := h₀.call .start (Storage.canSave_of_ne (by simp))
  have h₂ := h₁.call Storage.sampleUpsert (Storage.canSave_of_ne (by simp [Storage.sampleUpsert]))
  have h : samplePairs.Reachable := h₂.call _ (Storage.canSave_of_ne (by simp))
  have hstored : samplePairs.stored? (pairKey a a) = some (.ok (.new a a)) := by rfl
  have hf : samplePairs.find {} .all = .ok [⟨b, b, none⟩, ⟨a, a, none⟩] := by rfl
  have hb : NodeId.ofText? braced = some a := by decide +kernel
  have hu : NodeId.ofText? urn = some a := by decide +kernel
  have hp : NodeId.ofText? plain = some a := by decide +kernel
  obtain ⟨-, hread, htexts, hpairs⟩ := pairKey_faithful
  have hkey (s t) := (hpairs _ h).1 (pairKey a a) (.new a a) s t hstored
  have hk := (hkey braced urn).mpr ⟨hb, hu⟩
  have hk' := (hkey plain a.text).mpr ⟨hp, (hread a).1⟩
  obtain ⟨hsame, hpinned⟩ := htexts braced urn _ hk
  obtain ⟨hs, hd⟩ := (hsame plain a.text _ hk').mp rfl
  have hop := hpinned { src := some a, dest := some a } _ rfl hb.symm hu.symm
  refine ⟨h, hstored, hk, hk', hs, hd, ⟨_, rfl, hop⟩, hf, ?_⟩
  exact List.rel_of_pairwise_cons ((hpairs _ h).2 {} .all _ hf) (List.mem_singleton_self _)

end PropertyGraph
