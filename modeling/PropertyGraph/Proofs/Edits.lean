import PropertyGraph.Proofs.Paths
import PropertyGraph.Proofs.Reordering

/-! Assigning and clearing as one kind of edit, and edits at paths that lead apart. -/
namespace PropertyGraph

variable {m : Properties} {v : Value} {x y node node' : Option Value} {k l : String}
  {ks ls : List String} {fault fault' : RequestError}

/-- Neither path leads through the end of the other one. -/
def Apart (ks ls : List String) : Prop := ¬ ks <+: ls ∧ ¬ ls <+: ks

instance : Decidable (Apart ks ls) := inferInstanceAs (Decidable (_ ∧ _))

theorem Apart.symm (h : Apart ks ls) : Apart ls ks := ⟨h.2, h.1⟩

theorem Apart.of_cons (h : Apart (k :: ks) (k :: ls)) : Apart ks ls :=
  ⟨fun hp => h.1 (List.cons_prefix_cons.mpr ⟨rfl, hp⟩),
    fun hp => h.2 (List.cons_prefix_cons.mpr ⟨rfl, hp⟩)⟩

theorem not_apart_nil_left : ¬ Apart [] ls := fun h => h.1 List.nil_prefix

theorem not_apart_nil_right : ¬ Apart ks [] := fun h => h.2 List.nil_prefix

namespace Properties

/-- What is to stand under a key, or nothing. -/
def put (m : Properties) (k : String) : Option Value → Properties
  | some v => m.insert k v
  | none => Ascending.erase m k

theorem get?_put (m : Properties) (k : String) (x : Option Value) (j : String) :
    (m.put k x).get? j = if j = k then x else m.get? j := by
  cases x with
  | none => exact Ascending.get?_erase m k j
  | some v => exact OrderedMap.get?_insert m k v j

@[simp] theorem get?_put_self (m : Properties) (k : String) (x : Option Value) :
    (m.put k x).get? k = x := by
  rw [get?_put, if_pos rfl]

theorem get?_put_of_ne (h : k ≠ l) (m : Properties) (x : Option Value) :
    (m.put k x).get? l = m.get? l := by
  rw [get?_put, if_neg h.symm]

theorem put_get? (m : Properties) (k : String) : m.put k (m.get? k) = m := by
  apply Ascending.ext_get?
  intro j
  rw [get?_put]
  by_cases hj : j = k
  · rw [if_pos hj, hj]
  · rw [if_neg hj]

theorem put_put (m : Properties) (k : String) (x y : Option Value) :
    (m.put k x).put k y = m.put k y := by
  apply Ascending.ext_get?
  intro j
  rw [get?_put, get?_put, get?_put]
  by_cases hj : j = k
  · rw [if_pos hj, if_pos hj]
  · rw [if_neg hj, if_neg hj, if_neg hj]

theorem put_comm (h : k ≠ l) (m : Properties) (x y : Option Value) :
    (m.put k x).put l y = (m.put l y).put k x := by
  apply Ascending.ext_get?
  intro j
  rw [get?_put, get?_put, get?_put, get?_put]
  by_cases hj : j = k
  · subst hj
    rw [if_neg h, if_pos rfl, if_pos rfl]
  · rw [if_neg hj, if_neg hj]

end Properties

namespace Value

/-- The map that an edit below a node works on. A missing one is made, but not to take something out
of it. -/
def opened (x node : Option Value) : Option Properties :=
  match node with
  | some (.map fields) => some fields
  | none => if x.isSome then some ∅ else none
  | some _ => none

/-- What is at a node after an edit of what is below it. Nothing is taken out of other values, and
nothing can be put into them. -/
def edit (fault : RequestError) (x : Option Value) :
    List String → Option Value → Except RequestError (Option Value)
  | [], _ => .ok x
  | k :: ks, node =>
    match opened x node with
    | some fields => (edit fault x ks (fields.get? k)).map fun r => some (.map (fields.put k r))
    | none => if x.isSome then .error fault else .ok node

theorem edit_of_opened {fields : Properties} (h : opened x node = some fields) :
    edit fault x (k :: ks) node =
      (edit fault x ks (fields.get? k)).map fun r => some (.map (fields.put k r)) := by
  rw [edit, h]

/-- Where there is nothing, nothing can be taken away. -/
theorem edit_none_none (fault : RequestError) (ks : List String) :
    edit fault none ks none = .ok none := by
  cases ks <;> rfl

theorem opened_map (x : Option Value) (fields : Properties) :
    opened x (some (.map fields)) = some fields := rfl

/-- Two edits that are both let in work on the same map. -/
theorem opened_unique {fields fields' : Properties} (h : opened x node = some fields)
    (h' : opened y node = some fields') : fields' = fields := by
  cases node with
  | none =>
    rw [opened] at h h'
    split at h
    · split at h'
      · cases h
        cases h'
        rfl
      · cases h'
    · cases h
  | some u =>
    cases u with
    | map inner =>
      cases h
      cases h'
      rfl
    | null | bool _ | int _ | float _ | str _ | arr _ => cases h

/-- Only the one that takes something away may be kept out where the other is let in. -/
theorem missing_of_opened {fields : Properties} (h : opened x node = some fields)
    (h' : opened y node = none) : node = none ∧ y = none ∧ fields = ∅ := by
  cases node with
  | none =>
    rw [opened] at h h'
    split at h
    · split at h'
      · cases h'
      · next hy =>
        cases h
        exact ⟨rfl, Option.not_isSome_iff_eq_none.mp hy, rfl⟩
    · cases h
  | some u =>
    cases u with
    | map inner => cases h'
    | null | bool _ | int _ | float _ | str _ | arr _ => cases h

theorem edit_of_closed (h : opened x node = none) :
    edit fault x (k :: ks) node = if x.isSome then .error fault else .ok node := by
  rw [edit, h]

theorem edit_ok_of_closed {r : Option Value} (h : opened x node = none)
    (hf : edit fault x (k :: ks) node = .ok r) : r = node := by
  rw [edit_of_closed h] at hf
  split at hf
  · cases hf
  · cases hf
    rfl

section Steps
variable {a b : Option Value} {e : RequestError}

/-- Below one key the edits may meet again; `h` is what is known of them there. -/
theorem edit_error_of_ok (h : k = l → Commuting (edit fault x ks) (edit fault' y ls))
    (hf : edit fault x (k :: ks) node = .error e) (hg : edit fault' y (l :: ls) node = .ok b) :
    edit fault x (k :: ks) b = .error e := by
  cases hy : opened y node with
  | none => exact edit_ok_of_closed hy hg ▸ hf
  | some fields =>
    cases hx : opened x node with
    | none =>
      obtain ⟨rfl, rfl, -⟩ := missing_of_opened hy hx
      cases hf
    | some fields' =>
      obtain rfl := opened_unique hx hy
      rw [edit_of_opened hx] at hf
      rw [edit_of_opened hy] at hg
      obtain ⟨t, ht, rfl⟩ := map_eq_ok.mp hg
      rw [edit_of_opened (opened_map x _), map_eq_error]
      rw [map_eq_error] at hf
      by_cases hkl : k = l
      · subst hkl
        rw [Properties.get?_put_self]
        exact (h rfl).left hf ht
      · rw [Properties.get?_put_of_ne (Ne.symm hkl)]
        exact hf

theorem edit_both_of_opened {fields : Properties}
    (h : k = l → Commuting (edit fault x ks) (edit fault' y ls)) (hx : opened x node = some fields)
    (hf : edit fault x (k :: ks) node = .ok a) (hg : edit fault' y (l :: ls) node = .ok b) :
    ∃ w, edit fault' y (l :: ls) a = .ok w ∧ edit fault x (k :: ks) b = .ok w := by
  have hm := hf
  rw [edit_of_opened hx] at hm
  obtain ⟨r, hr, rfl⟩ := map_eq_ok.mp hm
  cases hy : opened y node with
  | none =>
    obtain ⟨rfl, rfl, rfl⟩ := missing_of_opened hx hy
    cases hg
    refine ⟨_, ?_, hf⟩
    have hl : edit fault' none ls ((Properties.put ∅ k r).get? l) =
        .ok ((Properties.put ∅ k r).get? l) := by
      by_cases hkl : k = l
      · subst hkl
        rw [Properties.get?_put_self]
        have hr' : edit fault x ks none = .ok r := hr
        obtain ⟨w, hw, hw'⟩ := (h rfl).both hr' (edit_none_none fault' ls)
        rw [hr'] at hw'
        cases hw'
        exact hw
      · rw [Properties.get?_put_of_ne hkl]
        exact edit_none_none fault' ls
    rw [edit_of_opened (opened_map none _), hl]
    exact congrArg (fun m => Except.ok (some (Value.map m))) (Properties.put_get? _ l)
  | some fields' =>
    obtain rfl := opened_unique hx hy
    rw [edit_of_opened hy] at hg
    obtain ⟨t, ht, rfl⟩ := map_eq_ok.mp hg
    rw [edit_of_opened (opened_map y _), edit_of_opened (opened_map x _)]
    by_cases hkl : k = l
    · subst hkl
      rw [Properties.get?_put_self, Properties.get?_put_self]
      obtain ⟨w, hw, hw'⟩ := (h rfl).both hr ht
      rw [hw, hw']
      refine ⟨_, rfl, ?_⟩
      exact congrArg (fun m => Except.ok (some (Value.map m)))
        ((Properties.put_put _ k t w).trans (Properties.put_put _ k r w).symm)
    · rw [Properties.get?_put_of_ne hkl, Properties.get?_put_of_ne (Ne.symm hkl), ht, hr]
      refine ⟨_, rfl, ?_⟩
      exact congrArg (fun m => Except.ok (some (Value.map m)))
        (Properties.put_comm (Ne.symm hkl) _ t r)

end Steps

/-- Edits at paths that lead apart may share maps on the way. -/
theorem commuting_edit (h : Apart ks ls) (fault fault' : RequestError) (x y : Option Value) :
    Commuting (edit fault x ks) (edit fault' y ls) := by
  induction ks generalizing ls with
  | nil => exact absurd h not_apart_nil_left
  | cons k ks ih =>
    cases ls with
    | nil => exact absurd h not_apart_nil_right
    | cons l ls =>
      have hsub : k = l → Commuting (edit fault x ks) (edit fault' y ls) := by
        rintro rfl
        exact ih h.of_cons
      have hsub' : l = k → Commuting (edit fault' y ls) (edit fault x ks) :=
        fun hl => (hsub hl.symm).symm
      refine ⟨?_, edit_error_of_ok hsub, edit_error_of_ok hsub'⟩
      intro node a b hf hg
      cases hx : opened x node with
      | some fields => exact edit_both_of_opened hsub hx hf hg
      | none =>
        cases hy : opened y node with
        | some fields =>
          obtain ⟨w, hw, hw'⟩ := edit_both_of_opened hsub' hy hg hf
          exact ⟨w, hw', hw⟩
        | none =>
          rw [edit_ok_of_closed hx hf, edit_ok_of_closed hy hg]
          exact ⟨node, edit_ok_of_closed hy hg ▸ hg, edit_ok_of_closed hx hf ▸ hf⟩

theorem at?_of_opened {fields : Properties} (h : opened x node = some fields) (l : String)
    (ls : List String) : node.bind (·.at? (l :: ls)) = (fields.get? l).bind (·.at? ls) := by
  cases node with
  | none =>
    rw [opened] at h
    split at h
    · cases h
      rfl
    · cases h
  | some u =>
    cases u with
    | map inner =>
      cases h
      rfl
    | null | bool _ | int _ | float _ | str _ | arr _ => cases h

theorem at?_edit {r : Option Value} (h : edit fault x ks node = .ok r) :
    r.bind (·.at? ks) = x := by
  induction ks generalizing node r with
  | nil =>
    cases h
    cases x <;> rfl
  | cons k ks ih =>
    cases hx : opened x node with
    | some fields =>
      rw [edit_of_opened hx] at h
      obtain ⟨t, ht, rfl⟩ := map_eq_ok.mp h
      have hk := at?_of_opened (opened_map x (fields.put k t)) k ks
      rw [hk, Properties.get?_put_self, ih ht]
    | none =>
      rw [edit_of_closed hx] at h
      split at h
      · cases h
      · next hn =>
        cases h
        rw [Option.not_isSome_iff_eq_none] at hn
        subst hn
        cases node with
        | none => rfl
        | some u =>
          cases u with
          | map inner => cases hx
          | null | bool _ | int _ | float _ | str _ | arr _ => rfl

/-- What is read apart from an edit is read as before. -/
theorem at?_edit_of_apart {r : Option Value} (ha : Apart ks ls)
    (h : edit fault x ks node = .ok r) : r.bind (·.at? ls) = node.bind (·.at? ls) := by
  induction ks generalizing ls node r with
  | nil => exact absurd ha not_apart_nil_left
  | cons k ks ih =>
    cases ls with
    | nil => exact absurd ha not_apart_nil_right
    | cons l ls =>
      cases hx : opened x node with
      | none => rw [edit_ok_of_closed hx h]
      | some fields =>
        rw [edit_of_opened hx] at h
        obtain ⟨t, ht, rfl⟩ := map_eq_ok.mp h
        rw [at?_of_opened hx, at?_of_opened (opened_map x (fields.put k t))]
        by_cases hkl : k = l
        · subst hkl
          rw [Properties.get?_put_self, ih ha.of_cons ht]
        · rw [Properties.get?_put_of_ne hkl]

/-- What is missing is made as a map when something is to be put below it. -/
theorem edit_missing (fault : RequestError) (v : Value) (k : String) (ks : List String) :
    edit fault (some v) (k :: ks) none = edit fault (some v) (k :: ks) (some (.map ∅)) := rfl

theorem edit_eq_setAt? (hne : ks ≠ []) : edit fault (some v) ks (some (.map m)) =
    (m.setAt? v ks).elim (.error fault) fun m' => .ok (some (.map m')) := by
  fun_induction Properties.setAt? m v ks with
  | case1 m => exact absurd rfl hne
  | case2 m k => rfl
  | case3 m k k' ks inner hg ih =>
    have hi : edit fault (some v) (k' :: ks) (m.get? k) =
        edit fault (some v) (k' :: ks) (some (.map inner)) := by
      cases hm : m.get? k with
      | none =>
        rw [hm] at hg
        cases hg
        rfl
      | some u =>
        rw [hm] at hg
        cases hg
        rfl
    rw [edit_of_opened (opened_map _ m), hi, ih (by simp)]
    cases Properties.setAt? inner v (k' :: ks) <;> rfl
  | case4 m k k' ks hn =>
    rw [edit_of_opened (opened_map _ m)]
    cases hm : m.get? k with
    | none =>
      rw [hm] at hn
      exact absurd rfl (hn ∅)
    | some u =>
      rw [hm] at hn
      cases u with
      | map inner => exact absurd rfl (hn inner)
      | null | bool _ | int _ | float _ | str _ | arr _ => rfl

/-- An edit below a key that leaves what is there leaves the map. -/
theorem edit_of_same (h : edit fault x ks (m.get? k) = .ok (m.get? k)) :
    edit fault x (k :: ks) (some (.map m)) = .ok (some (.map m)) := by
  rw [edit_of_opened (opened_map x m), h]
  exact congrArg (fun m => Except.ok (some (Value.map m))) (m.put_get? k)

theorem edit_eq_unsetAt? (hne : ks ≠ []) : edit fault none ks (some (.map m)) =
    .ok (some (.map ((m.unsetAt? ks).getD m))) := by
  fun_induction Properties.unsetAt? m ks with
  | case1 m => exact absurd rfl hne
  | case2 m k hc => rfl
  | case3 m k hc =>
    rw [Ascending.contains, Option.not_isSome_iff_eq_none] at hc
    exact edit_of_same (by rw [hc]; rfl)
  | case4 m k k' ks inner hg ih =>
    have hi := ih (by simp)
    cases hu : Properties.unsetAt? inner (k' :: ks) with
    | none =>
      rw [hu] at hi
      exact edit_of_same (by rw [hg, hi]; rfl)
    | some inner' =>
      rw [hu] at hi
      rw [edit_of_opened (opened_map _ m), hg, hi]
      rfl
  | case5 m k k' ks hn =>
    refine edit_of_same ?_
    cases hm : m.get? k with
    | none => rfl
    | some u =>
      cases u with
      | map inner => exact absurd hm (hn inner)
      | null | bool _ | int _ | float _ | str _ | arr _ => rfl

end Value
end PropertyGraph
