import PropertyGraph.Proofs.Edge.Rereading
import PropertyGraph.Proofs.Reference
import PropertyGraph.Update

/-! Properties that are nested deeper than a reader follows, so that an edge with them has bytes and
is not read from them. -/
namespace PropertyGraph

variable {n : Nat}

namespace Value

/-- A value in so many arrays one inside the other. -/
def boxed : Nat → Value
  | 0 => null
  | n + 1 => arr [boxed n]

theorem checkKeys_boxed (n : Nat) : (boxed n).checkKeys = .ok () := by
  induction n with
  | zero => rfl
  | succ n ih =>
    rw [boxed, checkKeys, checkItems, ih]
    rfl

theorem fits_boxed (n : Nat) : (boxed n).toMessagePack.Fits n := by
  induction n with
  | zero => exact MessagePack.fits_leaf rfl rfl
  | succ n ih => exact fits_arr_iff.mpr ⟨(by decide : 1 < 2 ^ 32), by simpa using ih⟩

theorem le_of_fits_boxed {depth : Nat} (h : (boxed n).toMessagePack.Fits depth) : n ≤ depth := by
  induction n generalizing depth with
  | zero => exact Nat.zero_le depth
  | succ n ih =>
    obtain ⟨inner, rfl⟩ := MessagePack.fits_succ_of_nested h (Nat.succ_pos _)
    exact Nat.succ_le_succ (ih ((fits_arr_iff.mp h).2 _ (List.mem_singleton_self _)))

end Value

/-- One property, in so many arrays. -/
def Properties.deep (n : Nat) : Properties := OrderedMap.ofList [("deep", .boxed n)]

theorem Properties.fits_deep (n : Nat) :
    (Value.map (deep n)).toMessagePack.Fits (n + 1) := by
  refine Value.fits_map_iff.mpr ⟨(by decide : 1 < 2 ^ 32), ?_⟩
  intro e he
  obtain rfl : e = ("deep", .boxed n) := List.mem_singleton.mp he
  exact ⟨⟨(by decide : (MessagePack.ofText "deep").longest < 2 ^ 32), Nat.zero_le n⟩,
    Value.fits_boxed n⟩

/-- The edge and the map of its properties count as well. -/
theorem Edge.decode_deep (p : Pair) (hn : MessagePack.maxDepth < n + 2) :
    decode (p.edge (some (.deep n))).encode = .error (.deserialization none) := by
  let e := p.edge (some (.deep n))
  have hf : e.toMessagePack.Fits (n + 2) := by
    refine fits_toMessagePack (fits_pairKey p.src p.dest (n + 1)) fun m hm => ?_
    cases hm
    exact Properties.fits_deep n
  rw [decode_encode_of_longest hf.longest_lt, if_neg]
  intro hl
  have hd : e.toMessagePack.Fits (1022 + 1) := ⟨hf.longest_lt, hl⟩
  have hp := ((MessagePack.fits_map_iff.mp hd).2 _
    (List.mem_append_right _ (List.mem_singleton_self _))).2
  have hv := ((Value.fits_map_iff.mp hp).2 ("deep", .boxed n) (List.mem_singleton_self _)).2
  have hle := Value.le_of_fits_boxed hv
  have hm : MessagePack.maxDepth = 1023 := rfl
  omega

namespace Update

def deepName : PropertyName := ⟨"deep", by decide, by decide⟩

/-- The update that writes it. -/
def deep (n : Nat) : Update := { assign := OrderedMap.ofList [(deepName, .boxed n)] }

theorem apply_deep (p : Pair) (n : Nat) :
    (deep n).apply (p.edge none) = (.ok (), p.edge (some (.deep n))) := by
  have hs : deepName.segments = ["deep"] := by decide
  have hw : (∅ : Properties).write deepName (.boxed n) = .ok (.deep n) := by
    rw [Properties.write, hs]
    rfl
  have ha : assignAll ∅ [(deepName, .boxed n)] = (.ok (), .deep n) := by
    rw [assignAll, hw]
    rfl
  have he : (deep n).assign.isEmpty = false := rfl
  have hl : (deep n).assign.toList = [(deepName, .boxed n)] := rfl
  have hp : (p.edge none).props.getD ∅ = ∅ := rfl
  rw [apply, assigned, he, hl, hp, ha]
  rfl

end Update
end PropertyGraph
