import PropertyGraph.Proofs.Edge.Depth
import PropertyGraph.Proofs.PairCalls

/-! Writes to one edge whose names do not lead through each other can be made in any order. -/
namespace PropertyGraph

variable {s : Store} {p : Pair} {m : Properties} {props : Option Properties}
  {slot : Option (Option Properties)} {fault : RequestError}

namespace Store

/-- After each call of a series the edge of a pair can be read. -/
def StaysLegible (s : Store) (p : Pair) (edits : List PairEdit) : Prop :=
  ∀ before, before <+: edits →
    (runCalls call s (before.map (·.storeCall p))).2.storage.Legible p.key

theorem edge?_place (h : (s.place p (some props)).storage.Legible p.key) :
    (s.place p (some props)).storage.edge? p.key = .ok (some (p.edge props)) := by
  rw [Storage.edge?_eq_ok, stored?_place, h.reread]
  rfl

theorem call_step (hr : s.storage.requireRunning = .ok ())
    (hx : (s.place p slot).storage.edge? p.key = .ok (slot.map p.edge)) (c : PairEdit) :
    (s.place p slot).call (c.storeCall p) =
      (.done ((PairEdit.step slot c).1.mapError .request), s.place p (PairEdit.step slot c).2) := by
  rw [call_edit c ((requireRunning_place s p slot).trans hr) hx, PairEdit.step, attempt,
    PairEdit.write]
  cases c.apply slot.join with
  | error fault => rfl
  | ok props => exact congrArg _ (place_place s p slot props)

theorem edge?_step (hx : (s.place p slot).storage.edge? p.key = .ok (slot.map p.edge))
    {c : PairEdit} (h : (s.place p (PairEdit.step slot c).2).storage.Legible p.key) :
    (s.place p (PairEdit.step slot c).2).storage.edge? p.key =
      .ok ((PairEdit.step slot c).2.map p.edge) := by
  rcases PairEdit.state_of_step slot c with hs | ⟨props, hs⟩
  · rw [hs]
    exact hx
  · rw [hs] at h ⊢
    exact edge?_place h

/-- As long as the edge can be read calls do to it what the writes do to its properties. -/
theorem runCalls_edits (hr : s.storage.requireRunning = .ok ())
    (hx : (s.place p slot).storage.edge? p.key = .ok (slot.map p.edge)) {edits : List PairEdit}
    (hl : (s.place p slot).StaysLegible p edits) :
    runCalls call (s.place p slot) (edits.map (·.storeCall p)) =
      ((runCalls PairEdit.step slot edits).1.map fun answer => .done (answer.mapError .request),
        s.place p (runCalls PairEdit.step slot edits).2) := by
  induction edits generalizing slot with
  | nil => rfl
  | cons c cs ih =>
    have hc := call_step hr hx c
    have hl' : (s.place p (PairEdit.step slot c).2).StaysLegible p cs := by
      intro before hb
      have h := hl (c :: before) (List.cons_prefix_cons.mpr ⟨rfl, hb⟩)
      rw [List.map_cons, runCalls_cons, hc] at h
      exact h
    have hx' := edge?_step hx (hl' [] List.nil_prefix)
    rw [List.map_cons, runCalls_cons, hc, runCalls_cons, List.map_cons, ih hx' hl']

/-- Calls keep the edge legible if its properties, written one after another, are. -/
theorem staysLegible_of_steps (hr : s.storage.requireRunning = .ok ())
    (hx : (s.place p slot).storage.edge? p.key = .ok (slot.map p.edge)) {edits : List PairEdit}
    (h : ∀ before, before <+: edits →
      (s.place p (runCalls PairEdit.step slot before).2).storage.Legible p.key) :
    (s.place p slot).StaysLegible p edits := by
  induction edits generalizing slot with
  | nil =>
    intro before hb
    rw [List.prefix_nil.mp hb]
    exact h [] List.nil_prefix
  | cons c cs ih =>
    have hc := call_step hr hx c
    have hs : ∀ before, before <+: cs →
        (s.place p (runCalls PairEdit.step (PairEdit.step slot c).2 before).2).storage.Legible
          p.key :=
      fun before hb => h (c :: before) (List.cons_prefix_cons.mpr ⟨rfl, hb⟩)
    intro before hb
    cases before with
    | nil => exact h [] List.nil_prefix
    | cons d ds =>
      obtain ⟨rfl, hds⟩ := List.cons_prefix_cons.mp hb
      rw [List.map_cons, runCalls_cons, hc]
      exact ih (edge?_step hx (hs [] List.nil_prefix)) hs ds hds

/-- Unrelated calls on an edge that can be read are each answered as if made alone. -/
theorem runCalls_unrelated (hr : s.storage.requireRunning = .ok ())
    (hx : (s.place p slot).storage.edge? p.key = .ok (slot.map p.edge)) {edits : List PairEdit}
    (hu : edits.Pairwise PairEdit.Unrelated) (hl : (s.place p slot).StaysLegible p edits) :
    runCalls call (s.place p slot) (edits.map (·.storeCall p)) =
      (edits.map fun c => ((s.place p slot).call (c.storeCall p)).1,
        s.place p (runCalls PairEdit.step slot edits).2) := by
  have ha := answers_of_pairwise (hu.imp PairEdit.independent_step) slot
  rw [runCalls_edits hr hx hl, ha, List.map_map]
  refine congrArg (·, _) (List.map_congr_left fun c _ => ?_)
  rw [call_step hr hx]
  rfl

theorem exists_slot (h : s.storage.Reachable) (hw : s.storage.Whole p.key) {found : Option Edge}
    (hx : s.storage.edge? p.key = .ok found) :
    ∃ slot, s.place p slot = s ∧ found = slot.map p.edge := by
  obtain ⟨edges, hs⟩ := h.sound
  obtain ⟨slot, rfl⟩ := hs.exists_slot hx
  refine ⟨slot, ?_, rfl⟩
  cases slot with
  | none => rfl
  | some props =>
    have hp := hs.holds.put_stored hw (Storage.edge?_eq_ok.mp hx)
    exact congrArg (Store.mk · s.upsertOnRead) hp

/-- Calls that change nothing are answered as if each were the first. -/
theorem runCalls_of_unread {fault : StoreError}
    (hx : (do s.storage.requireRunning; s.storage.edge? p.key) = .error fault)
    (edits : List PairEdit) :
    runCalls call s (edits.map (·.storeCall p)) =
      (edits.map fun c => (s.call (c.storeCall p)).1, s) := by
  induction edits with
  | nil => rfl
  | cons c cs ih =>
    obtain ⟨fault', hc⟩ := call_of_unread c hx
    rw [List.map_cons, runCalls_cons, List.map_cons, hc, ih]

theorem staysLegible_of_memory (h : s.storage.engine.kind = .memory) (p : Pair)
    (edits : List PairEdit) : s.StaysLegible p edits :=
  fun _ _ => Storage.legible_of_memory ((kind_calls s _).trans h) p.key

theorem answer_of_step {answer : Except RequestError Unit}
    (h : StoreAnswer.done (answer.mapError .request) = .done (.ok ())) : answer = .ok () := by
  cases answer with
  | error fault => cases h
  | ok _ => rfl

/-- What a set that succeeds has written is read in the end. -/
theorem stored_of_set (hr : s.storage.requireRunning = .ok ())
    (hx : (s.place p slot).storage.edge? p.key = .ok (slot.map p.edge)) {edits : List PairEdit}
    (hu : edits.Pairwise PairEdit.Unrelated) (hl : (s.place p slot).StaysLegible p edits)
    {m : Properties} {name : String} {v : Value} (hm : .set m ∈ edits)
    (hok : ((s.place p slot).call ((PairEdit.set m).storeCall p)).1 = .done (.ok ()))
    (hv : m.get? name = some v)
    (hn : ∀ other ∈ m.keys, other ≠ name → ¬ segmentsOf name <+: segmentsOf other) :
    ∃ stored, (runCalls call (s.place p slot) (edits.map (·.storeCall p))).2.storage.stored? p.key =
        some (.ok (p.edge (some stored))) ∧ stored.at? (segmentsOf name) = some v := by
  rw [call_step hr hx] at hok
  obtain ⟨props, hfinal, hat⟩ := PairEdit.at?_runCalls_set hu hm (answer_of_step hok) hv hn
  have hread := hl edits (List.prefix_refl edits)
  rw [runCalls_unrelated hr hx hu hl, hfinal] at hread ⊢
  cases props with
  | none => cases hat
  | some stored =>
    refine ⟨stored, Storage.edge?_eq_ok.mp (edge?_place hread), ?_⟩
    rw [Properties.at?_eq (segmentsOf_ne_nil name)]
    exact hat

theorem legible_place (hs : s.storage.Serves .tree ∅)
    (h : ∀ props ∈ slot, (p.edge props).WithinLimits ∧ (p.edge props).encode.length < 2 ^ 32) :
    (s.place p slot).storage.Legible p.key := by
  cases slot with
  | none =>
    refine ⟨hs.holds.whole_empty p.key, fun read hr => ?_⟩
    rw [place, hs.stored? (fun _ => by decide) p.key] at hr
    cases hr
  | some props =>
    obtain ⟨hw, hl⟩ := h props rfl
    refine ⟨(hs.holds.whole_empty p.key).put p.key hl, fun read hr => ⟨p.edge props, ?_⟩⟩
    rw [stored?_place, Storage.reread_of_withinLimits fun _ => hw] at hr
    exact (Option.some.inj hr).symm

/-- Writes on one pair that are unrelated to each other are each answered as if made alone, in
whichever order they are made, and leave the same store. What a set wrote is there in the end unless
a longer name of the same set changes it. A tree has to be able to read its edge between the
calls. -/
theorem edits_commute (h : s.storage.Reachable) (p : Pair) {edits edits' : List PairEdit}
    (hu : edits.Pairwise PairEdit.Unrelated) (hp : edits.Perm edits')
    (hl : s.storage.engine.kind = .tree → (∃ found, s.storage.edge? p.key = .ok found) →
      s.StaysLegible p edits ∧ s.StaysLegible p edits') :
    let after (edits : List PairEdit) := runCalls call s (edits.map (·.storeCall p))
    let alone (c : PairEdit) := (s.call (c.storeCall p)).1
    (after edits).1 = edits.map alone ∧ (after edits').1 = edits'.map alone ∧
      (after edits).2 = (after edits').2 ∧
      ∀ m, .set m ∈ edits → alone (.set m) = .done (.ok ()) → ∀ name v, m.get? name = some v →
        (∀ other ∈ m.keys, other ≠ name → ¬ segmentsOf name <+: segmentsOf other) →
        ∃ stored, (after edits).2.storage.stored? p.key = some (.ok (p.edge (some stored))) ∧
          stored.at? (segmentsOf name) = some v := by
  intro after alone
  cases hx : (do s.storage.requireRunning; s.storage.edge? p.key) with
  | error fault =>
    have ha : ∀ es : List PairEdit, after es = (es.map alone, s) := runCalls_of_unread hx
    rw [ha, ha]
    refine ⟨rfl, rfl, rfl, ?_⟩
    intro m _ hok
    obtain ⟨fault', hc⟩ := call_of_unread (.set m) hx
    have hf : alone (.set m) = .done (.error fault') := congrArg Prod.fst hc
    rw [hf] at hok
    cases hok
  | ok found =>
    obtain ⟨_, hr, hx⟩ := bind_eq_ok.mp hx
    have hlegible : s.StaysLegible p edits ∧ s.StaysLegible p edits' := by
      cases hk : s.storage.engine.kind with
      | tree => exact hl hk ⟨found, hx⟩
      | memory => exact ⟨staysLegible_of_memory hk p edits, staysLegible_of_memory hk p edits'⟩
    obtain ⟨hl₁, hl₂⟩ := hlegible
    obtain ⟨slot, hs, rfl⟩ := exists_slot h (hl₁ [] List.nil_prefix).whole hx
    have hu' := (hp.pairwise_iff fun h => PairEdit.Unrelated.symm h).mp hu
    have hx' : (s.place p slot).storage.edge? p.key = .ok (slot.map p.edge) := hs.symm ▸ hx
    have hrun := runCalls_unrelated hr hx' hu (hs.symm ▸ hl₁)
    have hrun' := runCalls_unrelated hr hx' hu' (hs.symm ▸ hl₂)
    have hsame := state_of_perm hp (hu.imp PairEdit.independent_step) slot
    rw [hs] at hrun hrun'
    refine ⟨congrArg Prod.fst hrun, congrArg Prod.fst hrun', ?_, ?_⟩
    · exact (congrArg Prod.snd hrun).trans (hsame ▸ (congrArg Prod.snd hrun').symm)
    · intro m hm hok name v hv hn
      have hkept := stored_of_set hr hx' hu (hs.symm ▸ hl₁) hm (by rwa [hs]) hv hn
      rwa [hs] at hkept

/-- A write and a removal that share a map on their way. -/
def sampleEdits : List PairEdit :=
  let reason : PropertyName := ⟨"trust.reason", by decide, by decide⟩
  [.set (OrderedMap.ofList [("trust.level", .int 3)]), .remove (OrderedSet.ofList [reason])]

/-- What there may be of the edge between the calls. -/
def sampleSlots : List (Option (Option Properties)) :=
  [none, some none,
    some (some (OrderedMap.ofList [("trust", .map (OrderedMap.ofList [("level", .int 3)]))]))]

theorem eq_of_prefix_pair {c d : PairEdit} {before : List PairEdit} (h : before <+: [c, d]) :
    before = [] ∨ before = [c] ∨ before = [c, d] := by
  rcases List.prefix_cons_iff.mp h with rfl | ⟨rest, rfl, hr⟩
  · exact .inl rfl
  · rcases List.prefix_cons_iff.mp hr with rfl | ⟨rest', rfl, hn⟩
    · exact .inr (.inl rfl)
    · obtain rfl := List.prefix_nil.mp hn
      exact .inr (.inr rfl)

theorem slot_sampleEdits {before : List PairEdit}
    (h : before <+: sampleEdits ∨ before <+: sampleEdits.reverse) :
    (runCalls PairEdit.step none before).2 ∈ sampleSlots := by
  rcases h with h | h
  · rcases eq_of_prefix_pair h with rfl | rfl | rfl
    · exact List.mem_of_getElem? (i := 0) rfl
    · exact List.mem_of_getElem? (i := 2) rfl
    · exact List.mem_of_getElem? (i := 2) rfl
  · rcases eq_of_prefix_pair h with rfl | rfl | rfl
    · exact List.mem_of_getElem? (i := 0) rfl
    · exact List.mem_of_getElem? (i := 1) rfl
    · exact List.mem_of_getElem? (i := 2) rfl

set_option maxRecDepth 8000 in
theorem short_sampleSlots : ∀ slot ∈ sampleSlots, ∀ props ∈ slot,
    (Pair.edge ⟨.ofByte 0xaa, .ofByte 0xbb⟩ props).WithinLimits ∧
      (Pair.edge ⟨.ofByte 0xaa, .ofByte 0xbb⟩ props).encode.length < 2 ^ 32 := by
  decide

theorem edits_commute_sample :
    let p : Pair := ⟨.ofByte 0xaa, .ofByte 0xbb⟩
    let s : Store := { storage := ⟨.tree true, {}⟩ }
    s.storage.Reachable ∧ sampleEdits.Pairwise PairEdit.Unrelated ∧
      s.StaysLegible p sampleEdits ∧ s.StaysLegible p sampleEdits.reverse ∧
      (runCalls call s (sampleEdits.map (·.storeCall p))).2 =
        (runCalls call s (sampleEdits.reverse.map (·.storeCall p))).2 ∧
      ∃ stored, (runCalls call s (sampleEdits.map (·.storeCall p))).2.storage.stored? p.key =
          some (.ok (p.edge (some stored))) ∧
        stored.at? ["trust", "level"] = some (.int 3) := by
  intro p s
  have hu : sampleEdits.Pairwise PairEdit.Unrelated := by decide
  have hr : s.storage.Reachable := .blank ⟨rfl, rfl, rfl⟩
  have hall : ∀ s : Store, s.storage.Reachable → s.storage.Serves .tree ∅ →
      s.StaysLegible p sampleEdits ∧ s.StaysLegible p sampleEdits.reverse ∧
      (runCalls call s (sampleEdits.map (·.storeCall p))).2 =
        (runCalls call s (sampleEdits.reverse.map (·.storeCall p))).2 ∧
      ∃ stored, (runCalls call s (sampleEdits.map (·.storeCall p))).2.storage.stored? p.key =
          some (.ok (p.edge (some stored))) ∧
        stored.at? ["trust", "level"] = some (.int 3) := by
    intro s h hs
    obtain ⟨hr, hx⟩ := blank_edge hs p
    have hl : (s.place p none).StaysLegible p sampleEdits :=
      staysLegible_of_steps hr hx fun before hb =>
        legible_place hs (short_sampleSlots _ (slot_sampleEdits (.inl hb)))
    have hl' : (s.place p none).StaysLegible p sampleEdits.reverse :=
      staysLegible_of_steps hr hx fun before hb =>
        legible_place hs (short_sampleSlots _ (slot_sampleEdits (.inr hb)))
    obtain ⟨-, -, hsame, hkept⟩ := edits_commute h p hu (List.reverse_perm sampleEdits).symm
      fun _ _ => ⟨hl, hl'⟩
    have hm : PairEdit.set (OrderedMap.ofList [("trust.level", .int 3)]) ∈ sampleEdits :=
      List.mem_cons_self
    have hok : (s.call (PairEdit.storeCall p
        (.set (OrderedMap.ofList [("trust.level", .int 3)])))).1 = .done (.ok ()) :=
      congrArg Prod.fst (call_first hs rfl)
    exact ⟨hl, hl', hsame, hkept _ hm hok "trust.level" (.int 3) rfl (by decide)⟩
  exact ⟨hr, hu, hall s hr ⟨rfl, rfl, rfl⟩⟩

theorem edge?_place_tree (hs : s.storage.Serves .tree ∅) :
    (s.place p (some props)).storage.edge? p.key =
      (Edge.decode (p.edge props).encode).map some := by
  have hp := s.stored?_place p props
  rw [Storage.reread, (Storage.Serves.tree_iff.mp hs).1] at hp
  dsimp only at hp
  cases hd : Edge.decode (p.edge props).encode with
  | ok e => exact Storage.edge?_eq_ok.mpr (hp.trans (congrArg some hd))
  | error fault => exact Storage.edge?_eq_error.mpr (hp.trans (congrArg some hd))

/-- What cannot be read is not written a second time. -/
theorem second_refused (hs : s.storage.Serves .tree ∅) {c d : PairEdit} {fault : StoreError}
    (hc : c.apply none = .ok props) (hd : Edge.decode (p.edge props).encode = .error fault) :
    ∃ fault', (runCalls call s [c.storeCall p, d.storeCall p]).1 =
      [.done (.ok ()), .done (.error fault')] := by
  have hr : (s.place p (some props)).storage.requireRunning = .ok () :=
    (requireRunning_place s p _).trans (if_pos hs.running)
  have hx : (s.place p (some props)).storage.edge? p.key = .error fault := by
    rw [edge?_place_tree hs, hd]
    rfl
  obtain ⟨fault', hf⟩ := call_of_unread d (bind_eq_error.mpr (.inr ⟨(), hr, hx⟩))
  refine ⟨fault', ?_⟩
  rw [runCalls_cons, call_first hs hc, runCalls_cons, hf]
  rfl

theorem second_written (hs : s.storage.Serves .tree ∅) {c d : PairEdit}
    {props' : Option Properties} (hc : c.apply none = .ok props)
    (hd : Edge.decode (p.edge props).encode = .ok (p.edge props))
    (ha : d.apply props = .ok props') :
    (runCalls call s [c.storeCall p, d.storeCall p]).1 = [.done (.ok ()), .done (.ok ())] := by
  have hr : (s.place p (some props)).storage.requireRunning = .ok () :=
    (requireRunning_place s p _).trans (if_pos hs.running)
  have hx : (s.place p (some props)).storage.edge? p.key = .ok ((some props).map p.edge) := by
    rw [edge?_place_tree hs, hd]
    rfl
  have hd' := call_edit d hr hx
  rw [Option.join_some, ha] at hd'
  rw [runCalls_cons, call_first hs hc, runCalls_cons, hd']
  rfl

/-- A value that can be written and not read keeps the next write out, so it has to be the last
one. -/
theorem deep_interferes (hs : s.storage.Serves .tree ∅) (p : Pair) {n : Nat}
    (hn : MessagePack.maxDepth < n + 2) :
    let deep : PairEdit := .set (OrderedMap.ofList [("deep", .boxed n)])
    let note : PairEdit := .set (OrderedMap.ofList [("note", .null)])
    deep.Unrelated note ∧
      (∃ fault, (runCalls call s [deep.storeCall p, note.storeCall p]).1 =
        [.done (.ok ()), .done (.error fault)]) ∧
      (runCalls call s [note.storeCall p, deep.storeCall p]).1 =
        [.done (.ok ()), .done (.ok ())] := by
  intro deep note
  have hdeep : ∀ props, deep.apply props =
      .ok (some ((props.getD ∅).insert "deep" (.boxed n))) :=
    PairEdit.apply_single rfl rfl (Value.checkKeys_boxed n)
  have hnote : ∀ props, note.apply props = .ok (some ((props.getD ∅).insert "note" .null)) :=
    PairEdit.apply_single rfl rfl rfl
  have hread : (p.edge (some (OrderedMap.ofList [("note", .null)]))).WithinLimits := by
    have hf : (p.edge (some (OrderedMap.ofList [("note", .null)]))).toMessagePack.Fits 2 := by
      refine Edge.fits_toMessagePack (Edge.fits_pairKey p.src p.dest 1) fun m hm => ?_
      cases hm
      exact ⟨by decide, by decide⟩
    exact ⟨hf.longest_lt, Nat.le_trans hf.nesting_le (by decide)⟩
  refine ⟨?_, second_refused hs (hdeep none) (Edge.decode_deep p hn),
    second_written hs (hnote none) (Edge.decode_encode hread) (hdeep _)⟩
  intro ks hk ls hl
  have hk' : ks ∈ ["deep"].map segmentsOf := hk
  have hl' : ls ∈ ["note"].map segmentsOf := hl
  rw [List.map_singleton, List.mem_singleton] at hk' hl'
  rw [hk', hl']
  decide

/-- A set may change what it wrote itself. A value nested deeper than a tree reads keeps later
writes out. -/
theorem edits_interfere :
    let p : Pair := ⟨.ofByte 0xaa, .ofByte 0xbb⟩
    let s : Store := { storage := ⟨.memory true false ∅, {}⟩ }
    let m : Properties :=
      OrderedMap.ofList [("a", .map (OrderedMap.ofList [("b", .int 1)])), ("a.b", .int 2)]
    let t : Store := { storage := ⟨.tree true, {}⟩ }
    let deep : PairEdit := .set (OrderedMap.ofList [("deep", .boxed MessagePack.maxDepth)])
    let note : PairEdit := .set (OrderedMap.ofList [("note", .null)])
    s.storage.Reachable ∧
      (runCalls call s [(PairEdit.set m).storeCall p]).1 = [.done (.ok ())] ∧
      (∃ stored, (runCalls call s [(PairEdit.set m).storeCall p]).2.storage.stored? p.key =
          some (.ok (p.edge (some stored))) ∧
        m.get? "a" = some (.map (OrderedMap.ofList [("b", .int 1)])) ∧
        stored.at? ["a"] = some (.map (OrderedMap.ofList [("b", .int 2)]))) ∧
      t.storage.Reachable ∧ deep.Unrelated note ∧
        (∃ fault, (runCalls call t [deep.storeCall p, note.storeCall p]).1 =
          [.done (.ok ()), .done (.error fault)]) ∧
        (runCalls call t [note.storeCall p, deep.storeCall p]).1 =
          [.done (.ok ()), .done (.ok ())] := by
  intro p s m t deep note
  have hself : ∀ (p : Pair) (s : Store), s.storage.Serves .memory ∅ →
      (runCalls call s [(PairEdit.set m).storeCall p]).1 = [.done (.ok ())] ∧
      (runCalls call s [(PairEdit.set m).storeCall p]).2.storage.stored? p.key =
        some (.ok (p.edge (some (OrderedMap.ofList
          [("a", .map (OrderedMap.ofList [("b", .int 2)]))])))) := by
    intro p s hs
    have hc := call_first (p := p) (c := .set m) hs rfl
    rw [runCalls_cons, hc]
    refine ⟨rfl, Storage.edge?_eq_ok.mp (edge?_place (Storage.legible_of_memory ?_ p.key))⟩
    exact (Storage.kind_put _ _ _).trans hs.kind_eq
  obtain ⟨ha, hm⟩ := hself p s ⟨rfl, rfl, rfl⟩
  exact ⟨.blank ⟨rfl, rfl, rfl⟩, ha, ⟨_, hm, rfl, rfl⟩, .blank ⟨rfl, rfl, rfl⟩,
    deep_interferes (s := t) ⟨rfl, rfl, rfl⟩ p (by decide)⟩

end Store
end PropertyGraph
