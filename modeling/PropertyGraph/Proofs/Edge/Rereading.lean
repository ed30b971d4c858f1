import PropertyGraph.Proofs.Edge.RoundTrip
import PropertyGraph.Proofs.MessagePack.Bounds
import PropertyGraph.Proofs.Run

/-! An edge that has been read, from whatever bytes, can be written and is read again. -/
namespace PropertyGraph

variable {depth : Nat} {bs : List UInt8} {m : MessagePack} {v : Value} {e : Edge}

namespace MessagePack

theorem fits_leaf (hl : m.longest = 0) (hn : m.nesting = 0) : m.Fits depth :=
  ⟨hl ▸ by decide, hn ▸ Nat.zero_le depth⟩

/-- A text has no other bytes than those that it was read from. -/
theorem ofText_of_decodeText? {s : String} (h : decodeText? bs = some s) : ofText s = str bs := by
  rw [decodeText?, String.fromUTF8?] at h
  split at h
  · cases h
    rfl
  · cases h

theorem fits_ofText {s : String} (hb : bs.length < 2 ^ 32) (h : decodeText? bs = some s) :
    (ofText s).Fits depth := by
  rw [ofText_of_decodeText? h]
  exact ⟨hb, Nat.zero_le depth⟩

theorem fits_of_text? {s : String} (hm : m.Fits depth) (h : m.text? = some s) :
    (ofText s).Fits depth := by
  cases m with
  | str bs => exact fits_ofText hm.longest_lt h
  | bin bs => exact fits_ofText hm.longest_lt h
  | nil | bool _ | uint _ | sint _ | float _ | ext _ _ | arr _ | map _ => cases h

end MessagePack

namespace Value

theorem toMessagePackItems_eq (vs : List Value) :
    toMessagePackItems vs = vs.map toMessagePack := by
  induction vs with
  | nil => rfl
  | cons v vs ih => rw [toMessagePackItems, ih, List.map_cons]

theorem toMessagePackEntries_eq {lo : Option String} (fields : Ascending String Value lo) :
    toMessagePackEntries fields =
      fields.toList.map fun e => (.ofText e.1, e.2.toMessagePack) := by
  induction fields with
  | nil => rfl
  | cons k v above rest ih => rw [toMessagePackEntries, ih, Ascending.toList_cons, List.map_cons]

/-- An entry that can be written. -/
def EntryFits (depth : Nat) (e : String × Value) : Prop :=
  (MessagePack.ofText e.1).Fits depth ∧ e.2.toMessagePack.Fits depth

theorem fits_arr_iff {items : List Value} : (arr items).toMessagePack.Fits (depth + 1) ↔
    items.length < 2 ^ 32 ∧ ∀ v ∈ items, v.toMessagePack.Fits depth := by
  rw [toMessagePack, MessagePack.fits_arr_iff, toMessagePackItems_eq, List.length_map,
    List.forall_mem_map]

theorem fits_map_iff {fields : Properties} : (map fields).toMessagePack.Fits (depth + 1) ↔
    fields.toList.length < 2 ^ 32 ∧ ∀ e ∈ fields.toList, EntryFits depth e := by
  rw [toMessagePack, MessagePack.fits_map_iff, toMessagePackEntries_eq, List.length_map,
    List.forall_mem_map]
  rfl

theorem entryFits_insert {acc : Properties} {k : String}
    (ha : ∀ e ∈ acc.toList, EntryFits depth e) (hk : EntryFits depth (k, v)) :
    ∀ e ∈ (OrderedMap.insert acc k v).toList, EntryFits depth e := by
  rintro ⟨j, w⟩ he
  rw [Ascending.mem_toList_iff, OrderedMap.get?_insert] at he
  split at he
  · next hj =>
    cases he
    exact hj ▸ hk
  · exact ha (j, w) ((Ascending.mem_toList_iff acc j w).mpr he)

theorem fits_int (i : Int64) (depth : Nat) : (int i).toMessagePack.Fits depth := by
  rw [toMessagePack]
  split <;> exact MessagePack.fits_leaf rfl rfl

mutual

/-- A value takes no more room than what it was read from. -/
theorem fits_of_ofMessagePack? (m : MessagePack) {v : Value} (h : ofMessagePack? m = some v)
    {depth : Nat} (hm : m.Fits depth) : v.toMessagePack.Fits depth := by
  cases m with
  | nil | bool _ | float _ =>
    cases h
    exact MessagePack.fits_leaf rfl rfl
  | sint i =>
    cases h
    exact fits_int i depth
  | uint n =>
    cases h
    split
    · exact fits_int _ depth
    · exact MessagePack.fits_leaf rfl rfl
  | str bs =>
    obtain ⟨s, hs, rfl⟩ := Option.map_eq_some_iff.mp h
    exact MessagePack.fits_ofText hm.longest_lt hs
  | bin bs =>
    obtain ⟨s, hs, rfl⟩ := Option.map_eq_some_iff.mp h
    exact MessagePack.fits_ofText hm.longest_lt hs
  | ext kind bs => cases h
  | arr items =>
    obtain ⟨vs, hvs, rfl⟩ := Option.map_eq_some_iff.mp h
    obtain ⟨inner, rfl⟩ := MessagePack.fits_succ_of_nested hm (Nat.succ_pos _)
    obtain ⟨hl, hi⟩ := MessagePack.fits_arr_iff.mp hm
    obtain ⟨hlen, hf⟩ := fits_of_ofMessagePackItems? items hvs hi
    exact fits_arr_iff.mpr ⟨hlen ▸ hl, hf⟩
  | map entries =>
    obtain ⟨fields, hfs, rfl⟩ := Option.map_eq_some_iff.mp h
    obtain ⟨inner, rfl⟩ := MessagePack.fits_succ_of_nested hm (Nat.succ_pos _)
    obtain ⟨hl, hi⟩ := MessagePack.fits_map_iff.mp hm
    obtain ⟨hlen, hf⟩ := fits_of_ofMessagePackEntries? entries hfs (fun _ h => by cases h) hi
    have hn : (Ascending.toList (∅ : Properties)).length = 0 := rfl
    exact fits_map_iff.mpr ⟨by omega, hf⟩

theorem fits_of_ofMessagePackItems? (items : List MessagePack) {vs : List Value}
    (h : ofMessagePackItems? items = some vs) {depth : Nat} (hi : ∀ m ∈ items, m.Fits depth) :
    items.length = vs.length ∧ ∀ v ∈ vs, v.toMessagePack.Fits depth := by
  cases items with
  | nil =>
    cases h
    exact ⟨rfl, fun _ h => by cases h⟩
  | cons m ms =>
    obtain ⟨v, hv, h⟩ := Option.bind_eq_some_iff.mp h
    obtain ⟨vs', hvs, h⟩ := Option.bind_eq_some_iff.mp h
    cases h
    obtain ⟨hm, hms⟩ := List.forall_mem_cons.mp hi
    obtain ⟨hl, hf⟩ := fits_of_ofMessagePackItems? ms hvs hms
    exact ⟨congrArg (· + 1) hl, List.forall_mem_cons.mpr ⟨fits_of_ofMessagePack? m hv hm, hf⟩⟩

/-- Of entries with one key the last one stays, so there may be fewer. -/
theorem fits_of_ofMessagePackEntries? (entries : List (MessagePack × MessagePack))
    {acc fields : Properties} (h : ofMessagePackEntries? acc entries = some fields) {depth : Nat}
    (ha : ∀ e ∈ acc.toList, EntryFits depth e)
    (hi : ∀ e ∈ entries, e.1.Fits depth ∧ e.2.Fits depth) :
    fields.toList.length ≤ acc.toList.length + entries.length ∧
      ∀ e ∈ fields.toList, EntryFits depth e := by
  cases entries with
  | nil =>
    cases h
    exact ⟨Nat.le_refl _, ha⟩
  | cons e es =>
    obtain ⟨k, v⟩ := e
    obtain ⟨key, hk, h⟩ := Option.bind_eq_some_iff.mp h
    obtain ⟨value, hv, h⟩ := Option.bind_eq_some_iff.mp h
    obtain ⟨⟨hkf, hvf⟩, hes⟩ := List.forall_mem_cons.mp hi
    have hn := entryFits_insert ha
      ⟨MessagePack.fits_of_text? hkf hk, fits_of_ofMessagePack? v hv hvf⟩
    have hl := OrderedMap.length_insert_le acc key value
    obtain ⟨hlen, hf⟩ := fits_of_ofMessagePackEntries? es h hn hes
    refine ⟨?_, hf⟩
    rw [List.length_cons]
    omega

end

end Value

namespace Edge

theorem fits_pairKey (src dest : NodeId) (depth : Nat) :
    (MessagePack.ofText (pairKey src dest)).Fits depth := by
  refine ⟨?_, Nat.zero_le depth⟩
  have hl := utf8ByteSize_pairKey_lt src dest
  simpa [MessagePack.ofText, MessagePack.longest] using hl

/-- The names of the fields and the identifiers are short. -/
theorem fits_toMessagePack (hk : (MessagePack.ofText e.uniqueIndex).Fits depth)
    (hp : ∀ m ∈ e.props, (Value.map m).toMessagePack.Fits depth) :
    e.toMessagePack.Fits (depth + 1) := by
  have hn : ∀ f : Field, (MessagePack.ofText f.name).Fits depth := by
    intro f
    refine ⟨?_, Nat.zero_le depth⟩
    cases f <;> decide
  have hid : ∀ id : NodeId, (MessagePack.bin id.bytes).Fits depth := by
    intro id
    refine ⟨?_, Nat.zero_le depth⟩
    rw [MessagePack.longest, id.length_eq]
    decide
  have hs : ∀ entry ∈ [(MessagePack.ofText Field.src.name, MessagePack.bin e.src.bytes),
      (.ofText Field.dest.name, .bin e.dest.bytes),
      (.ofText Field.uniqueIndex.name, .ofText e.uniqueIndex)],
      entry.1.Fits depth ∧ entry.2.Fits depth := by
    simp [hn, hid, hk]
  obtain ⟨src, dest, key, props⟩ := e
  cases props with
  | none => exact MessagePack.fits_map_iff.mpr ⟨(by decide : 3 < 2 ^ 32), hs⟩
  | some m =>
    refine MessagePack.fits_map_iff.mpr ⟨(by decide : 4 < 2 ^ 32), ?_⟩
    rw [List.forall_mem_append]
    refine ⟨hs, fun entry he => ?_⟩
    obtain rfl := List.mem_singleton.mp he
    exact ⟨hn .props, hp m rfl⟩

theorem fits_of_ofFields? {src dest key : MessagePack} {props : Option MessagePack}
    (h : ofFields? src dest key props = some e) (hk : key.Fits depth)
    (hp : ∀ m ∈ props, m.Fits depth) : e.toMessagePack.Fits (depth + 1) := by
  obtain ⟨src', -, h⟩ := Option.bind_eq_some_iff.mp h
  obtain ⟨dest', -, h⟩ := Option.bind_eq_some_iff.mp h
  obtain ⟨key', hkey, h⟩ := Option.bind_eq_some_iff.mp h
  obtain ⟨props', hprops, h⟩ := Option.bind_eq_some_iff.mp h
  cases h
  refine fits_toMessagePack (MessagePack.fits_of_text? hk hkey) fun m hm => ?_
  obtain rfl : props' = some m := hm
  cases props with
  | none => cases hprops
  | some given =>
    rw [Option.getD_some] at hprops
    cases given with
    | map entries =>
      obtain ⟨fields, hf, he⟩ := Option.map_eq_some_iff.mp hprops
      cases he
      exact Value.fits_of_ofMessagePack? (.map entries) (congrArg (Option.map _) hf) (hp _ rfl)
    | nil | bool _ | uint _ | sint _ | float _ | str _ | bin _ | ext _ _ | arr _ => cases hprops

theorem mem_of_mapM_ofKey? {entries : List (MessagePack × MessagePack)}
    {fields : List (Option Field × MessagePack)}
    (h : entries.mapM (fun e => (Field.ofKey? e.1).map (·, e.2)) = some fields) :
    ∀ x ∈ fields, ∃ k, (k, x.2) ∈ entries := by
  induction entries generalizing fields with
  | nil =>
    cases h
    exact fun x hx => absurd hx List.not_mem_nil
  | cons e es ih =>
    rw [List.mapM_cons] at h
    obtain ⟨field, hf, h⟩ := Option.bind_eq_some_iff.mp h
    obtain ⟨rest, hr, h⟩ := Option.bind_eq_some_iff.mp h
    obtain ⟨f, -, rfl⟩ := Option.map_eq_some_iff.mp hf
    cases h
    refine List.forall_mem_cons.mpr ⟨⟨e.1, List.mem_cons_self⟩, fun x hx => ?_⟩
    obtain ⟨k, hk⟩ := ih hr x hx
    exact ⟨k, List.mem_cons_of_mem e hk⟩

theorem fits_of_ofMessagePack? (h : ofMessagePack? m = some e) (hm : m.Fits depth) :
    e.toMessagePack.Fits depth := by
  rw [ofMessagePack?.eq_def] at h
  split at h
  · obtain ⟨inner, rfl⟩ := MessagePack.fits_succ_of_nested hm (Nat.succ_pos _)
    obtain ⟨-, hi⟩ := MessagePack.fits_arr_iff.mp hm
    exact fits_of_ofFields? h (hi _ (by simp)) fun m hm => by cases hm
  · obtain ⟨inner, rfl⟩ := MessagePack.fits_succ_of_nested hm (Nat.succ_pos _)
    obtain ⟨-, hi⟩ := MessagePack.fits_arr_iff.mp hm
    refine fits_of_ofFields? h (hi _ (by simp)) fun m hm => ?_
    cases hm
    exact hi _ (by simp)
  · next entries =>
    obtain ⟨inner, rfl⟩ := MessagePack.fits_succ_of_nested hm (Nat.succ_pos _)
    obtain ⟨-, hi⟩ := MessagePack.fits_map_iff.mp hm
    obtain ⟨fields, hf, h⟩ := Option.bind_eq_some_iff.mp h
    have hg : ∀ (f : Field) (ms : List MessagePack),
        (fields.filter (·.1 = some f)).map (·.2) = ms → ∀ m ∈ ms, m.Fits inner := by
      rintro f ms rfl m hm
      obtain ⟨x, hx, rfl⟩ := List.mem_map.mp hm
      obtain ⟨k, hk⟩ := mem_of_mapM_ofKey? hf x (List.mem_filter.mp hx).1
      exact (hi _ hk).2
    dsimp only at h
    split at h
    · next hk _ => exact fits_of_ofFields? h (hg _ _ hk _ (by simp)) fun m hm => by cases hm
    · next hk hp =>
      refine fits_of_ofFields? h (hg _ _ hk _ (by simp)) fun m hm => ?_
      cases hm
      exact hg _ _ hp _ (by simp)
    · cases h
  · cases h

/-- Whatever an edge was read from, it can be announced by the format and is read again. -/
theorem withinLimits_of_decode (h : decode bs = .ok e) : e.WithinLimits := by
  rw [decode] at h
  split at h
  · next he =>
    cases h
    obtain ⟨⟨m, rest⟩, hm, he⟩ := Option.bind_eq_some_iff.mp he
    obtain ⟨hl, hn⟩ := fits_of_ofMessagePack? he (MessagePack.fits_of_readWithin hm)
    exact ⟨hl, hn⟩
  · cases h

end Edge
end PropertyGraph
