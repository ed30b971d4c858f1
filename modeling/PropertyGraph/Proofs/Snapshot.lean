import PropertyGraph.Proofs.Edge.RoundTrip
import PropertyGraph.Snapshot

/-! A snapshot that can be read brings back the edges it was written from. -/
namespace PropertyGraph

variable {edges edges' : Edges} {file : SnapshotFile}

namespace Edges

theorem mapM_ofMessagePack? (entries : List (String × Edge)) :
    (entries.map fun (k, e) => (MessagePack.ofText k, e.toMessagePack)).mapM
      (fun (k, m) => do some ((← k.text?), (← Edge.ofMessagePack? m))) = some entries := by
  induction entries with
  | nil => rfl
  | cons entry entries ih =>
    rw [List.map_cons, List.mapM_cons, ih]
    simp [Edge.ofMessagePack?_toMessagePack]

theorem ofMessagePack?_toMessagePack (edges : Edges) :
    ofMessagePack? edges.toMessagePack = some edges := by
  have hm := mapM_ofMessagePack? edges.toList
  rw [toMessagePack, ofMessagePack?, hm]
  exact congrArg some (OrderedMap.ofList_toList edges)

/-- A whole collection is nested one deeper than the deepest of its edges. -/
theorem decode_encode (h : edges.toMessagePack.longest < 2 ^ 32) :
    decode edges.encode = if edges.toMessagePack.nesting ≤ MessagePack.maxDepth then .ok edges
      else .error (.deserialization none) := by
  have hr := MessagePack.read?_bytes edges.toMessagePack h
  by_cases hd : edges.toMessagePack.nesting ≤ MessagePack.maxDepth
  · simp [decode, encode, hr, hd, ofMessagePack?_toMessagePack]
  · simp [decode, encode, hr, hd]

end Edges

namespace SnapshotFile

/-- What comes back from a snapshot is never anything else than what was saved last. -/
theorem load_save (hw : file.writable = true) (h : edges.toMessagePack.longest < 2 ^ 32)
    (hl : (file.save edges).2.load = .ok edges') : edges' = edges := by
  rw [save, if_pos hw, load] at hl
  dsimp only at hl
  rw [Edges.decode_encode h] at hl
  split at hl
  · split at hl <;> simp_all
  · cases hl

@[simp] theorem writable_save (file : SnapshotFile) (edges : Edges) :
    (file.save edges).2.writable = file.writable := by
  rw [save]
  split <;> rfl

@[simp] theorem readable_save (file : SnapshotFile) (edges : Edges) :
    (file.save edges).2.readable = file.readable := by
  rw [save]
  split <;> rfl

theorem save_eq_ok (hw : file.writable = true) (edges : Edges) :
    (file.save edges).1 = .ok () := by
  rw [save, if_pos hw]

/-- What a file held before makes no difference once it is written. -/
theorem load_save_eq_ok (hw : file.writable = true) (hr : file.readable = true)
    (h : edges.toMessagePack.WithinLimits) : (file.save edges).2.load = .ok edges := by
  have hd := Edges.decode_encode h.longest_lt
  rw [if_pos h.nesting_le] at hd
  rw [save, if_pos hw, load, if_pos hr]
  exact hd

end SnapshotFile
end PropertyGraph
