import PropertyGraph.Projection
import PropertyGraph.Proofs.OrderedMap
import PropertyGraph.Proofs.PropertyName
import PropertyGraph.Proofs.Run

/-! Values at paths: what is written at one is read there, and keys stay segments. -/
namespace PropertyGraph

variable {m m' : Properties} {v w : Value} {k : String} {keys : List String}
  {name : PropertyName}

namespace Value

/-- Every key inside could be a segment, also below arrays. -/
def WellKeyed (v : Value) : Prop := v.checkKeys = .ok ()

theorem checkFields_eq_ok {lo : Option String} (fields : Ascending String Value lo) :
    checkFields fields = .ok () ↔ ∀ e ∈ fields.toList, IsSegment e.1 ∧ e.2.WellKeyed := by
  induction fields with
  | nil => simp [checkFields]
  | cons k v above rest ih =>
    rw [checkFields, Ascending.toList_cons, List.forall_mem_cons, ← ih]
    by_cases hk : IsSegment k
    · rw [if_neg (not_not_intro hk)]
      refine bind_eq_ok.trans ⟨?_, ?_⟩
      · rintro ⟨_, hv, hr⟩
        exact ⟨⟨hk, hv⟩, hr⟩
      · rintro ⟨⟨-, hv⟩, hr⟩
        exact ⟨(), hv, hr⟩
    · rw [if_pos hk]
      simp [hk, throw, throwThe, MonadExceptOf.throw, bind, Except.bind]

end Value

namespace Properties

def WellKeyed (m : Properties) : Prop := Value.WellKeyed (.map m)

theorem wellKeyed_iff :
    m.WellKeyed ↔ ∀ k v, m.get? k = some v → IsSegment k ∧ v.WellKeyed := by
  rw [WellKeyed, Value.WellKeyed, Value.checkKeys, Value.checkFields_eq_ok]
  simp only [Prod.forall, Ascending.mem_toList_iff]

theorem wellKeyed_empty : WellKeyed ∅ := rfl

theorem WellKeyed.insert (h : m.WellKeyed) (hk : IsSegment k) (hv : v.WellKeyed) :
    WellKeyed (OrderedMap.insert m k v) := by
  rw [wellKeyed_iff] at h ⊢
  intro j w hw
  rw [OrderedMap.get?_insert] at hw
  split at hw
  · next hj =>
    cases hw
    exact hj ▸ ⟨hk, hv⟩
  · exact h j w hw

theorem WellKeyed.erase (h : m.WellKeyed) (k : String) :
    WellKeyed (Ascending.erase m k) := by
  rw [wellKeyed_iff] at h ⊢
  intro j w hw
  rw [Ascending.get?_erase] at hw
  split at hw
  · cases hw
  · exact h j w hw

end Properties

/-- Paths lead through keys that are segments, to values whose keys are segments again. -/
theorem Value.WellKeyed.at? (h : v.WellKeyed) (hw : v.at? keys = some w) :
    (∀ k ∈ keys, IsSegment k) ∧ w.WellKeyed := by
  induction keys generalizing v with
  | nil =>
    cases hw
    exact ⟨by simp, h⟩
  | cons k ks ih =>
    cases v with
    | map fields =>
      obtain ⟨u, hu, hw⟩ := Option.bind_eq_some_iff.mp hw
      obtain ⟨hk, hv⟩ := Properties.wellKeyed_iff.mp h k u hu
      obtain ⟨hks, hw⟩ := ih hv hw
      exact ⟨List.forall_mem_cons.mpr ⟨hk, hks⟩, hw⟩
    | null | bool _ | int _ | float _ | str _ | arr _ => cases hw

namespace Properties

/-- Past its first key a path is a path through a value. -/
theorem at?_eq (hne : keys ≠ []) : m.at? keys = (Value.map m).at? keys := by
  cases keys with
  | nil => exact absurd rfl hne
  | cons k ks => rfl

theorem WellKeyed.setAt? (h : m.WellKeyed) (hv : v.WellKeyed) (hk : ∀ k ∈ keys, IsSegment k)
    (hs : m.setAt? v keys = some m') : m'.WellKeyed := by
  fun_induction Properties.setAt? m v keys generalizing m' with
  | case1 m => cases hs
  | case2 m k =>
    cases hs
    exact h.insert (hk k List.mem_cons_self) hv
  | case3 m k k' ks inner hg ih =>
    obtain ⟨inner', hi, rfl⟩ := Option.map_eq_some_iff.mp hs
    obtain ⟨hk, hks⟩ := List.forall_mem_cons.mp hk
    have hinner : WellKeyed inner := by
      cases hm : m.get? k with
      | none =>
        rw [hm] at hg
        cases hg
        exact wellKeyed_empty
      | some u =>
        rw [hm] at hg
        cases hg
        exact (wellKeyed_iff.mp h k _ hm).2
    exact h.insert hk (ih hinner hks hi)
  | case4 m k k' ks hn => cases hs

theorem WellKeyed.unsetAt? (h : m.WellKeyed) (hu : m.unsetAt? keys = some m') :
    m'.WellKeyed := by
  fun_induction Properties.unsetAt? m keys generalizing m' with
  | case1 m => cases hu
  | case2 m k hc =>
    cases hu
    exact h.erase k
  | case3 m k hc => cases hu
  | case4 m k k' ks inner hg ih =>
    obtain ⟨inner', hi, rfl⟩ := Option.map_eq_some_iff.mp hu
    obtain ⟨hk, hv⟩ := wellKeyed_iff.mp h k _ hg
    exact h.insert hk (ih hv hi)
  | case5 m k k' ks hn => cases hu

theorem WellKeyed.write (h : m.WellKeyed) (hv : v.WellKeyed) (hw : m.write name v = .ok m') :
    m'.WellKeyed := by
  rw [Properties.write] at hw
  split at hw
  · next m'' hs =>
    cases hw
    exact h.setAt? hv name.segments_valid hs
  · cases hw

theorem WellKeyed.unset (h : m.WellKeyed) (name : PropertyName) : (m.unset name).WellKeyed := by
  rw [Properties.unset]
  cases hu : m.unsetAt? name.segments with
  | none => exact h
  | some m' => exact h.unsetAt? hu

theorem at?_setAt? (hs : m.setAt? v keys = some m') : m'.at? keys = some v := by
  fun_induction Properties.setAt? m v keys generalizing m' with
  | case1 m => cases hs
  | case2 m k =>
    cases hs
    rw [at?, OrderedMap.get?_insert, if_pos rfl]
    rfl
  | case3 m k k' ks inner hg ih =>
    obtain ⟨inner', hi, rfl⟩ := Option.map_eq_some_iff.mp hs
    rw [at?, OrderedMap.get?_insert, if_pos rfl]
    exact ih hi
  | case4 m k k' ks hn => cases hs

/-- Where there is nothing yet every path can be made. -/
theorem exists_setAt?_empty (v : Value) (hne : keys ≠ []) :
    ∃ m', Properties.setAt? ∅ v keys = some m' := by
  induction keys with
  | nil => exact absurd rfl hne
  | cons k ks ih =>
    cases ks with
    | nil => exact ⟨_, rfl⟩
    | cons k' ks =>
      obtain ⟨inner, hi⟩ := ih (by simp)
      exact ⟨_, congrArg (Option.map _) hi⟩

theorem at?_unsetAt? (hu : m.unsetAt? keys = some m') : m'.at? keys = none := by
  fun_induction Properties.unsetAt? m keys generalizing m' with
  | case1 m => cases hu
  | case2 m k hc =>
    cases hu
    rw [at?, Ascending.get?_erase, if_pos rfl]
    rfl
  | case3 m k hc => cases hu
  | case4 m k k' ks inner hg ih =>
    obtain ⟨inner', hi, rfl⟩ := Option.map_eq_some_iff.mp hu
    rw [at?, OrderedMap.get?_insert, if_pos rfl]
    exact ih hi
  | case5 m k k' ks hn => cases hu

/-- Only where nothing is, there is nothing to take away. -/
theorem at?_of_unsetAt? (hu : m.unsetAt? keys = none) : m.at? keys = none := by
  fun_induction Properties.unsetAt? m keys with
  | case1 m => rfl
  | case2 m k hc => cases hu
  | case3 m k hc =>
    rw [Ascending.contains, Option.not_isSome_iff_eq_none] at hc
    rw [at?, hc]
    rfl
  | case4 m k k' ks inner hg ih =>
    rw [at?, hg]
    exact ih (Option.map_eq_none_iff.mp hu)
  | case5 m k k' ks hn =>
    rw [at?]
    cases hm : m.get? k with
    | none => rfl
    | some u =>
      cases u with
      | map inner => exact absurd hm (hn inner)
      | null | bool _ | int _ | float _ | str _ | arr _ => rfl

@[simp] theorem read_unset (m : Properties) (name : PropertyName) :
    (m.unset name).read name = none := by
  rw [unset, read]
  cases hu : m.unsetAt? name.segments with
  | none => exact at?_of_unsetAt? hu
  | some m' => exact at?_unsetAt? hu

/-- A name by which reads, removals and conditions come to a value. -/
structure Reaches (m : Properties) (name : PropertyName) (v : Value) : Prop where
  read_eq : m.read name = some v
  restrict_eq : (m.restrict (OrderedSet.ofList [name])).read name = some v
  unset_eq : (m.unset name).read name = none

theorem reaches_of_read (hv : m.read name = some v) : m.Reaches name v := by
  obtain ⟨selected, hs⟩ := exists_setAt?_empty v name.segments_ne_nil
  have hr : m.restrict (OrderedSet.ofList [name]) = selected := by
    have hk : (OrderedSet.ofList [name]).keys = [name] := rfl
    rw [restrict, hk, List.foldl_cons, List.foldl_nil]
    simp only [hv, hs, Option.getD_some]
  refine ⟨hv, ?_, read_unset m name⟩
  rw [hr]
  exact at?_setAt? hs

end Properties
end PropertyGraph
