import PropertyGraph.Edge.Bytes
import PropertyGraph.Proofs.MessagePack.RoundTrip
import PropertyGraph.Proofs.OrderedMap
import PropertyGraph.Proofs.PairKey

/-! Edges are read from their own bytes as they were written. -/
namespace PropertyGraph

namespace MessagePack

theorem decodeText?_toUTF8 (s : String) : decodeText? s.toUTF8.data.toList = some s := by
  have hs : (⟨s.toUTF8.data.toList.toArray⟩ : ByteArray) = s.toByteArray := by simp
  rw [decodeText?, hs, String.fromUTF8?, dif_pos s.isValidUTF8]
  rfl

@[simp] theorem text?_ofText (s : String) : (ofText s).text? = some s := decodeText?_toUTF8 s

end MessagePack

namespace Value

theorem ofMessagePack?_int (i : Int64) : ofMessagePack? (toMessagePack (int i)) = some (int i) := by
  rw [toMessagePack]
  split
  · next h =>
    have hu := Int64.toInt_lt i
    have hs : UInt64.size = 2 ^ 64 := rfl
    have hn := UInt64.toNat_ofNat_of_lt' (by omega : i.toInt.toNat < UInt64.size)
    rw [ofMessagePack?, hn, if_pos (by omega), Int.toNat_of_nonneg h, Int64.ofInt_toInt]
  · rfl

mutual

theorem ofMessagePack?_toMessagePack (v : Value) : ofMessagePack? v.toMessagePack = some v := by
  cases v with
  | null => rfl
  | bool b => rfl
  | int i => exact ofMessagePack?_int i
  | float x => rfl
  | str s => rw [toMessagePack, MessagePack.ofText, ofMessagePack?,
      MessagePack.decodeText?_toUTF8, Option.map_some]
  | arr items => simp [toMessagePack, ofMessagePack?, ofMessagePackItems?_toMessagePackItems items]
  | map fields =>
    have hf := ofMessagePackEntries?_toMessagePackEntries fields ∅
    have hl := OrderedMap.ofList_toList fields
    rw [toMessagePack, ofMessagePack?, hf]
    exact congrArg (some ∘ map) hl

theorem ofMessagePackItems?_toMessagePackItems (vs : List Value) :
    ofMessagePackItems? (toMessagePackItems vs) = some vs := by
  cases vs with
  | nil => rfl
  | cons v vs =>
    simp [toMessagePackItems, ofMessagePackItems?, ofMessagePack?_toMessagePack v,
      ofMessagePackItems?_toMessagePackItems vs]

/-- Entries are read into what is there already, one after another. -/
theorem ofMessagePackEntries?_toMessagePackEntries {lo : Option String}
    (fields : Ascending String Value lo) (acc : Properties) :
    ofMessagePackEntries? acc (toMessagePackEntries fields) =
      some (fields.toList.foldl (fun m e => OrderedMap.insert m e.1 e.2) acc) := by
  cases fields with
  | nil => rfl
  | cons k v above rest =>
    simp [toMessagePackEntries, ofMessagePackEntries?, ofMessagePack?_toMessagePack v,
      ofMessagePackEntries?_toMessagePackEntries rest]

end

end Value

namespace Edge

theorem ofKey?_name (f : Field) : Field.ofKey? (.ofText f.name) = some (some f) := by
  rw [MessagePack.ofText, Field.ofKey?, MessagePack.decodeText?_toUTF8]
  cases f <;> rfl

theorem nodeId?_bytes (id : NodeId) : nodeId? (.bin id.bytes) = some id := by
  simp [nodeId?, MessagePack.binary?, NodeId.ofBytes?, id.length_eq]

theorem props?_toMessagePack (m : Properties) :
    props? (Value.map m).toMessagePack = some (some m) := by
  rw [Value.toMessagePack, props?, Value.ofMessagePackEntries?_toMessagePackEntries]
  exact congrArg (some ∘ some) (OrderedMap.ofList_toList m)

theorem ofMessagePack?_toMessagePack (e : Edge) : ofMessagePack? e.toMessagePack = some e := by
  obtain ⟨src, dest, key, props⟩ := e
  cases props with
  | none =>
    simp [toMessagePack, ofMessagePack?, ofKey?_name, ofFields?, nodeId?_bytes]
    simp [props?]
  | some m =>
    simp [toMessagePack, ofMessagePack?, ofKey?_name, ofFields?, nodeId?_bytes,
      props?_toMessagePack]

/-- What an edge holds can be announced by the format and is not nested too deep for a reader. -/
def WithinLimits (e : Edge) : Prop := e.toMessagePack.WithinLimits

instance (e : Edge) : Decidable e.WithinLimits :=
  inferInstanceAs (Decidable e.toMessagePack.WithinLimits)

theorem decode_encode_of_longest {e : Edge} (h : e.toMessagePack.longest < 2 ^ 32) :
    decode e.encode = if e.toMessagePack.nesting ≤ MessagePack.maxDepth then .ok e
      else .error (.deserialization none) := by
  have hr := MessagePack.read?_bytes e.toMessagePack h
  by_cases hd : e.toMessagePack.nesting ≤ MessagePack.maxDepth
  · simp [decode, encode, hr, hd, ofMessagePack?_toMessagePack]
  · simp [decode, encode, hr, hd]

theorem decode_encode {e : Edge} (h : e.WithinLimits) : decode e.encode = .ok e := by
  rw [decode_encode_of_longest h.longest_lt, if_pos h.nesting_le]

/-- Edges nested too deep to be read again still have bytes of their own. -/
theorem encode_inj {e e' : Edge} (h : e.toMessagePack.longest < 2 ^ 32)
    (h' : e'.toMessagePack.longest < 2 ^ 32) (he : e.encode = e'.encode) : e = e' := by
  have hm := MessagePack.readWithin_bytes e.toMessagePack h
    (max e.toMessagePack.nesting e'.toMessagePack.nesting) []
  have hm' := MessagePack.readWithin_bytes e'.toMessagePack h'
    (max e.toMessagePack.nesting e'.toMessagePack.nesting) []
  rw [if_pos (Nat.le_max_left _ _)] at hm
  rw [if_pos (Nat.le_max_right _ _)] at hm'
  rw [encode, encode] at he
  rw [he, hm'] at hm
  have ht : e'.toMessagePack = e.toMessagePack := congrArg Prod.fst (Option.some.inj hm)
  have hr := ofMessagePack?_toMessagePack e
  rw [← ht, ofMessagePack?_toMessagePack] at hr
  exact (Option.some.inj hr).symm

/-- An edge within the limits is read again from its bytes as it was, and no other edge has these
bytes. -/
theorem encode_lossless (e : Edge) (h : e.WithinLimits) :
    decode e.encode = .ok e ∧
      ∀ e' : Edge, e'.toMessagePack.longest < 2 ^ 32 → e'.encode = e.encode → e' = e :=
  ⟨decode_encode h, fun _ h' he => encode_inj h' h.longest_lt he⟩

/-- Integers on both sides of a change of width, floats that equal no number or are not equal to
another zero, and collections without content. -/
def sampleProps : Properties := OrderedMap.ofList [
  ("ints", .arr [.int (-33), .int (-32), .int 127, .int 128, .int (-129), .int 65536,
    .int Int64.minValue, .int Int64.maxValue]),
  ("floats", .arr [.float ⟨0x8000000000000000⟩, .float ⟨0x7ff8000000000001⟩]),
  ("é", .map (OrderedMap.ofList [("none", .null), ("", .map ∅)]))]

def sampleEdge (props : Option Properties) : Edge :=
  { Edge.new (.ofByte 0) (.ofByte 255) with props }

set_option maxRecDepth 4000 in
theorem encode_lossless_sample :
    (sampleEdge (some sampleProps)).WithinLimits ∧
    decode (sampleEdge (some sampleProps)).encode = .ok (sampleEdge (some sampleProps)) ∧
    (sampleEdge none).encode ≠ (sampleEdge (some sampleProps)).encode := by
  have h : (sampleEdge (some sampleProps)).WithinLimits := by decide
  obtain ⟨hd, hi⟩ := encode_lossless (sampleEdge (some sampleProps)) h
  exact ⟨h, hd, fun he => absurd (hi (sampleEdge none) (by decide) he) (by decide)⟩

end Edge
end PropertyGraph
