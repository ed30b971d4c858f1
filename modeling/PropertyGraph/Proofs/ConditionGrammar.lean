import Mathlib.Data.List.Forall2
import PropertyGraph.Condition
import PropertyGraph.Proofs.Assignment
import PropertyGraph.Proofs.OrderedMap
import PropertyGraph.Proofs.Run

/-! The documents that are read as conditions, and the fault that is told of any other. -/
namespace PropertyGraph

variable {keyword key plain reason : String} {operand j : Json} {op : Operator} {c c' : Condition}
  {members : Ascending String Json none} {ops : List Operator} {fault : RequestError}
  {conditions conditions' : Conditions}

section FirstKey

variable {ε κ α β : Type} [LT κ] [LinearKey κ]

/-- The first key that fails decides. -/
theorem Ascending.mapM_eq_error [DecidableEq κ] {m : OrderedMap κ α} {f : κ × α → Except ε β}
    {e : ε} : m.toList.mapM f = .error e ↔
      ∃ k v, m.get? k = some v ∧ f (k, v) = .error e ∧
        ∀ k' v', m.get? k' = some v' → k' < k → ∃ b, f (k', v') = .ok b := by
  rw [PropertyGraph.mapM_eq_error]
  constructor
  · rintro ⟨before, ⟨k, v⟩, after, hs, hb, hf⟩
    have hm := m.pairwise_toList
    rw [hs] at hm
    refine ⟨k, v, (m.mem_toList_iff k v).mp (by simp [hs]), hf, ?_⟩
    intro k' v' hg hlt
    refine hb (k', v') ((mem_before_iff hm).mpr ⟨?_, hlt⟩)
    rw [← hs]
    exact (m.mem_toList_iff k' v').mpr hg
  · rintro ⟨k, v, hg, hf, hb⟩
    obtain ⟨before, after, hs⟩ := List.append_of_mem ((m.mem_toList_iff k v).mpr hg)
    have hm := m.pairwise_toList
    rw [hs] at hm
    refine ⟨before, (k, v), after, hs, ?_, hf⟩
    rintro ⟨k', v'⟩ hy
    obtain ⟨hy, hlt⟩ := (mem_before_iff hm).mp hy
    rw [← hs] at hy
    exact hb k' v' ((m.mem_toList_iff k' v').mp hy) hlt

theorem Ascending.find?_keys_eq_some {m : OrderedMap κ α} {p : κ → Bool} {k : κ} :
    m.keys.find? p = some k ↔
      k ∈ m.keys ∧ p k = true ∧ ∀ k' ∈ m.keys, k' < k → p k' = false := by
  have hm := m.pairwise_keys
  rw [List.find?_eq_some_iff_append]
  constructor
  · rintro ⟨hp, before, after, hs, hb⟩
    rw [hs] at hm ⊢
    refine ⟨by simp, hp, ?_⟩
    intro k' hk hlt
    simpa using hb k' ((mem_before_iff (g := id) hm).mpr ⟨hk, hlt⟩)
  · rintro ⟨hk, hp, hb⟩
    obtain ⟨before, after, hs⟩ := List.append_of_mem hk
    refine ⟨hp, before, after, hs, ?_⟩
    intro k' hk'
    rw [hs] at hm hb
    obtain ⟨hk', hlt⟩ := (mem_before_iff (g := id) hm).mp hk'
    simp [hb k' hk' hlt]

/-- A step for each element, and an answer for each step. -/
theorem mapM_eq_ok_iff_forall₂ {f : α → Except ε β} {xs : List α} {ys : List β} :
    xs.mapM f = .ok ys ↔ List.Forall₂ (fun x y => f x = .ok y) xs ys := by
  rw [mapM_eq_ok, ← List.forall₂_eq_eq_eq, List.forall₂_map_left_iff, List.forall₂_map_right_iff]

end FirstKey

theorem Value.ofJsonItems_eq_map (js : List Json) : ofJsonItems js = js.map ofJson := by
  induction js with
  | nil => rfl
  | cons j js ih => rw [ofJsonItems, ih, List.map_cons]

namespace Operator

def keywords : List String :=
  ["$eq", "$ne", "$gt", "$gte", "$lt", "$lte", "$in", "$nin", "$exists"]

/-- The operator that a keyword stands for with its operand. -/
inductive Parses : String → Json → Operator → Prop
  | eq (operand : Json) : Parses "$eq" operand (.eq (.ofJson operand))
  | ne (operand : Json) : Parses "$ne" operand (.ne (.ofJson operand))
  | gt (bound : Json) : Parses "$gt" bound (.gt (.ofJson bound))
  | gte (bound : Json) : Parses "$gte" bound (.gte (.ofJson bound))
  | lt (bound : Json) : Parses "$lt" bound (.lt (.ofJson bound))
  | lte (bound : Json) : Parses "$lte" bound (.lte (.ofJson bound))
  | isIn (items : List Json) : Parses "$in" (.arr items) (.isIn (items.map .ofJson))
  | notIn (items : List Json) : Parses "$nin" (.arr items) (.notIn (items.map .ofJson))
  | present (flag : Bool) : Parses "$exists" (.bool flag) (.present flag)

/-- A keyword with an operand of the kind that it asks for. -/
structure Admits (keyword : String) (operand : Json) : Prop where
  known : keyword ∈ keywords
  list : keyword = "$in" ∨ keyword = "$nin" → ∃ items, operand = .arr items
  flag : keyword = "$exists" → ∃ b, operand = .bool b

/-- Why a key with its operand stands for no operator. -/
inductive Offends : String → Json → String → Prop
  | list {keyword : String} {operand : Json} (named : keyword = "$in" ∨ keyword = "$nin")
      (other : ∀ items, operand ≠ .arr items) :
      Offends keyword operand s!"{keyword} expects an array"
  | flag {operand : Json} (other : ∀ b, operand ≠ .bool b) :
      Offends "$exists" operand "$exists expects a boolean"
  | unknown {keyword : String} (operand : Json) (other : keyword ∉ keywords) :
      Offends keyword operand s!"unknown operator {keyword}"

theorem ofJson_of_parses (h : Parses keyword operand op) : ofJson keyword operand = .ok op := by
  cases h with
  | isIn items =>
    rw [← Value.ofJsonItems_eq_map]
    rfl
  | notIn items =>
    rw [← Value.ofJsonItems_eq_map]
    rfl
  | _ => rfl

theorem ofJson_of_offends (h : Offends keyword operand reason) :
    ofJson keyword operand = .error (.condition reason) := by
  cases h with
  | list named other =>
    rcases named with rfl | rfl
    · cases operand with
      | arr items => exact absurd rfl (other items)
      | _ => rfl
    · cases operand with
      | arr items => exact absurd rfl (other items)
      | _ => rfl
  | flag other =>
    cases operand with
    | bool b => exact absurd rfl (other b)
    | _ => rfl
  | unknown _ other =>
    dsimp only [ofJson]
    split
    case h_10 => rfl
    all_goals exact absurd (by decide) other

theorem exists_parses (h : Admits keyword operand) : ∃ op, Parses keyword operand op := by
  obtain ⟨known, list, flag⟩ := h
  simp only [keywords, List.mem_cons, List.not_mem_nil, or_false] at known
  rcases known with rfl | rfl | rfl | rfl | rfl | rfl | rfl | rfl | rfl
  · exact ⟨_, .eq operand⟩
  · exact ⟨_, .ne operand⟩
  · exact ⟨_, .gt operand⟩
  · exact ⟨_, .gte operand⟩
  · exact ⟨_, .lt operand⟩
  · exact ⟨_, .lte operand⟩
  · obtain ⟨items, rfl⟩ := list (.inl rfl)
    exact ⟨_, .isIn items⟩
  · obtain ⟨items, rfl⟩ := list (.inr rfl)
    exact ⟨_, .notIn items⟩
  · obtain ⟨b, rfl⟩ := flag rfl
    exact ⟨_, .present b⟩

theorem Parses.admits (h : Parses keyword operand op) : Admits keyword operand := by
  cases h <;> constructor <;> simp [keywords]

theorem exists_offends (h : ¬ Admits keyword operand) :
    ∃ reason, Offends keyword operand reason := by
  by_cases known : keyword ∈ keywords
  · by_cases list : keyword = "$in" ∨ keyword = "$nin" → ∃ items, operand = .arr items
    · have flag : ¬ (keyword = "$exists" → ∃ b, operand = .bool b) := fun flag =>
        h ⟨known, list, flag⟩
      obtain ⟨rfl, hb⟩ := Classical.not_imp.mp flag
      exact ⟨_, .flag fun b he => hb ⟨b, he⟩⟩
    · obtain ⟨named, hl⟩ := Classical.not_imp.mp list
      exact ⟨_, .list named fun items hi => hl ⟨items, hi⟩⟩
  · exact ⟨_, .unknown operand known⟩

theorem parses_or_offends (keyword : String) (operand : Json) :
    (∃ op, Parses keyword operand op) ∨ ∃ reason, Offends keyword operand reason := by
  by_cases ha : Admits keyword operand
  · exact .inl (exists_parses ha)
  · exact .inr (exists_offends ha)

theorem ofJson_eq_ok_iff : ofJson keyword operand = .ok op ↔ Parses keyword operand op := by
  refine ⟨fun h => ?_, ofJson_of_parses⟩
  rcases parses_or_offends keyword operand with ⟨op', hp⟩ | ⟨reason, ho⟩
  · cases h.symm.trans (ofJson_of_parses hp)
    exact hp
  · cases h.symm.trans (ofJson_of_offends ho)

theorem ofJson_eq_error_iff : ofJson keyword operand = .error fault ↔
    ∃ reason, Offends keyword operand reason ∧ fault = .condition reason := by
  constructor
  · intro h
    rcases parses_or_offends keyword operand with ⟨op, hp⟩ | ⟨reason, ho⟩
    · cases h.symm.trans (ofJson_of_parses hp)
    · cases h.symm.trans (ofJson_of_offends ho)
      exact ⟨reason, ho, rfl⟩
  · rintro ⟨reason, ho, rfl⟩
    exact ofJson_of_offends ho

theorem admits_iff : Admits keyword operand ↔ ∃ op, ofJson keyword operand = .ok op := by
  simp only [ofJson_eq_ok_iff]
  exact ⟨exists_parses, fun ⟨_, hp⟩ => hp.admits⟩

theorem isKeyword_of_mem : ∀ keyword ∈ keywords, IsKeyword keyword := by decide

end Operator

/-- An object that is not taken literally. -/
def Json.HasKeyword : Json → Prop
  | .obj members => ∃ key ∈ members.keys, IsKeyword key
  | _ => False

namespace Condition

/-- The condition that a document stands for: an operator for each key, in the order of the keys,
or else the document itself. -/
inductive Parses : Json → Condition → Prop
  | literal {j : Json} (plain : ¬ j.HasKeyword) : Parses j (.value (.ofJson j))
  | operators {members : Ascending String Json none} {ops : List Operator}
      (keyword : (Json.obj members).HasKeyword)
      (each : List.Forall₂ (fun entry op => Operator.Parses entry.1 entry.2 op)
        members.toList ops) : Parses (.obj members) (.ops ops)

/-- Why a document stands for no condition. A key that is no keyword is told before any fault of
an operator. -/
inductive Offends : Json → String → Prop
  | mixed {members : Ascending String Json none} {plain : String}
      (keyword : (Json.obj members).HasKeyword) (mem : plain ∈ members.keys)
      (other : ¬ IsKeyword plain) (first : ∀ key ∈ members.keys, key < plain → IsKeyword key) :
      Offends (.obj members) s!"cannot mix operators with the field {plain}"
  | operator {members : Ascending String Json none} {key : String} {operand : Json}
      {reason : String} (keywords : ∀ key ∈ members.keys, IsKeyword key)
      (entry : members.get? key = some operand) (offends : Operator.Offends key operand reason)
      (first : ∀ key' operand', members.get? key' = some operand' → key' < key →
        Operator.Admits key' operand') : Offends (.obj members) reason

theorem ofJson_of_literal (h : ¬ j.HasKeyword) : ofJson j = .ok (.value (.ofJson j)) := by
  cases j with
  | obj members =>
    rw [ofJson, if_neg]
    simpa [Json.HasKeyword] using h
  | _ => rfl

theorem ofJson_of_mixed (hk : (Json.obj members).HasKeyword)
    (hp : members.keys.find? (¬ IsKeyword ·) = some plain) :
    ofJson (.obj members) =
      .error (.condition s!"cannot mix operators with the field {plain}") := by
  rw [ofJson, if_pos, hp]
  simpa [Json.HasKeyword] using hk

theorem ofJson_of_keywords (hk : (Json.obj members).HasKeyword)
    (hp : members.keys.find? (¬ IsKeyword ·) = none) : ofJson (.obj members) =
      (members.toList.mapM fun e => Operator.ofJson e.1 e.2).map .ops := by
  rw [ofJson, if_pos, hp]
  · rfl
  · simpa [Json.HasKeyword] using hk

theorem find?_plain_eq_some : members.keys.find? (¬ IsKeyword ·) = some plain ↔
    plain ∈ members.keys ∧ ¬ IsKeyword plain ∧
      ∀ key ∈ members.keys, key < plain → IsKeyword key := by
  rw [Ascending.find?_keys_eq_some]
  simp

theorem find?_plain_eq_none :
    members.keys.find? (¬ IsKeyword ·) = none ↔ ∀ key ∈ members.keys, IsKeyword key := by
  simp

theorem admits_of_each
    (h : List.Forall₂ (fun entry op => Operator.Parses entry.1 entry.2 op) members.toList ops)
    (hg : members.get? key = some operand) : Operator.Admits key operand := by
  have ha := ((List.forall₂_and_left _ _).mp (h.imp fun e op he => ⟨he.admits, he⟩)).1
  exact ha _ ((members.mem_toList_iff key operand).mpr hg)

theorem isKeyword_of_admits
    (h : ∀ key operand, members.get? key = some operand → Operator.Admits key operand) :
    ∀ key ∈ members.keys, IsKeyword key := by
  intro key hk
  obtain ⟨operand, hg⟩ := Ascending.mem_keys_iff.mp hk
  exact Operator.isKeyword_of_mem key (h key operand hg).known

theorem ofJson_eq_ok_iff : ofJson j = .ok c ↔ Parses j c := by
  constructor
  · intro h
    by_cases hk : j.HasKeyword
    · cases j with
      | obj members =>
        cases hp : members.keys.find? (¬ IsKeyword ·) with
        | some plain => cases h.symm.trans (ofJson_of_mixed hk hp)
        | none =>
          rw [ofJson_of_keywords hk hp] at h
          obtain ⟨ops, hops, rfl⟩ := map_eq_ok.mp h
          have each := mapM_eq_ok_iff_forall₂.mp hops
          exact .operators hk (each.imp fun e op => Operator.ofJson_eq_ok_iff.mp)
      | _ => cases hk
    · cases h.symm.trans (ofJson_of_literal hk)
      exact .literal hk
  · intro h
    cases h with
    | literal hk => exact ofJson_of_literal hk
    | operators hk each =>
      have hp := find?_plain_eq_none.mpr (isKeyword_of_admits fun _ _ => admits_of_each each)
      rw [ofJson_of_keywords hk hp, mapM_eq_ok_iff_forall₂.mpr
        (each.imp fun e op => Operator.ofJson_eq_ok_iff.mpr)]
      rfl

theorem ofJson_eq_error_iff : ofJson j = .error fault ↔
    ∃ reason, Offends j reason ∧ fault = .condition reason := by
  constructor
  · intro h
    by_cases hk : j.HasKeyword
    · cases j with
      | obj members =>
        cases hp : members.keys.find? (¬ IsKeyword ·) with
        | some plain =>
          cases h.symm.trans (ofJson_of_mixed hk hp)
          obtain ⟨mem, other, first⟩ := find?_plain_eq_some.mp hp
          exact ⟨_, .mixed hk mem other first, rfl⟩
        | none =>
          rw [ofJson_of_keywords hk hp, map_eq_error] at h
          obtain ⟨key, operand, hg, hf, first⟩ := Ascending.mapM_eq_error.mp h
          obtain ⟨reason, ho, rfl⟩ := Operator.ofJson_eq_error_iff.mp hf
          refine ⟨reason, .operator (find?_plain_eq_none.mp hp) hg ho ?_, rfl⟩
          intro key' operand' hg' hlt
          exact Operator.admits_iff.mpr (first key' operand' hg' hlt)
      | _ => cases hk
    · cases h.symm.trans (ofJson_of_literal hk)
  · rintro ⟨reason, ho, rfl⟩
    cases ho with
    | mixed hk mem other first =>
      exact ofJson_of_mixed hk (find?_plain_eq_some.mpr ⟨mem, other, first⟩)
    | @operator members key operand reason hkeys hg ho first =>
      have mem := Ascending.mem_keys_iff.mpr ⟨operand, hg⟩
      have hk : (Json.obj members).HasKeyword := ⟨key, mem, hkeys key mem⟩
      rw [ofJson_of_keywords hk (find?_plain_eq_none.mpr hkeys), map_eq_error]
      refine Ascending.mapM_eq_error.mpr ⟨key, operand, hg, Operator.ofJson_of_offends ho, ?_⟩
      intro key' operand' hg' hlt
      exact Operator.admits_iff.mp (first key' operand' hg' hlt)

/-- A document is read unless it is an object with a keyword and some key that is none, or one
whose operand is of the wrong kind. -/
theorem exists_ofJson_iff : (∃ c, ofJson j = .ok c) ↔ ¬ j.HasKeyword ∨
    ∃ members, j = .obj members ∧
      ∀ key operand, members.get? key = some operand → Operator.Admits key operand := by
  constructor
  · rintro ⟨c, h⟩
    cases ofJson_eq_ok_iff.mp h with
    | literal hk => exact .inl hk
    | operators _ each => exact .inr ⟨_, rfl, fun _ _ => admits_of_each each⟩
  · intro h
    cases hj : ofJson j with
    | ok c => exact ⟨c, rfl⟩
    | error fault =>
      obtain ⟨reason, ho, -⟩ := ofJson_eq_error_iff.mp hj
      rcases h with hk | ⟨members, rfl, ha⟩
      · cases hj.symm.trans (ofJson_of_literal hk)
      · cases ho with
        | mixed _ mem other _ => exact absurd (isKeyword_of_admits ha _ mem) other
        | operator _ hg ho _ =>
          obtain ⟨op, hop⟩ := Operator.admits_iff.mp (ha _ _ hg)
          cases hop.symm.trans (Operator.ofJson_of_offends ho)

end Condition

namespace Conditions

/-- A name and the condition under it; the name is looked at first. -/
def entry (e : String × Json) : Except RequestError (PropertyName × Condition) := do
  let name ← PropertyName.ofText e.1
  let condition ← Condition.ofJson e.2
  return (name, condition)

/-- Each member under its own name, and nothing else. -/
structure Parses (members : Ascending String Json none) (conditions : Conditions) : Prop where
  each : ∀ key j, members.get? key = some j →
    ∃ name c, PropertyName.ofText key = .ok name ∧ conditions.get? name = some c
  own : ∀ name c, conditions.get? name = some c →
    ∃ j, members.get? name.text = some j ∧ Condition.Parses j c

/-- A member with a name and a condition. -/
structure Admits (key : String) (j : Json) : Prop where
  named : ∃ name, PropertyName.ofText key = .ok name
  parsed : ∃ c, Condition.Parses j c

/-- The fault of a member: that of its name if it has one, else that of its condition. -/
inductive MemberFault (key : String) (j : Json) : RequestError → Prop
  | name {fault : RequestError} (unnamed : PropertyName.ofText key = .error fault) :
      MemberFault key j fault
  | condition {name : PropertyName} {reason : String} (named : PropertyName.ofText key = .ok name)
      (offends : Condition.Offends j reason) : MemberFault key j (.condition reason)

/-- The fault of a document: that of its first faulty member. -/
inductive Faults : Json → RequestError → Prop
  | shape {j : Json} (other : ∀ members, j ≠ .obj members) :
      Faults j (.condition "find conditions must be an object")
  | member {members : Ascending String Json none} {key : String} {j : Json} {fault : RequestError}
      (entry : members.get? key = some j) (faulty : MemberFault key j fault)
      (first : ∀ key' j', members.get? key' = some j' → key' < key → Admits key' j') :
      Faults (.obj members) fault

theorem entry_eq_ok_iff {e : String × Json} {name : PropertyName} :
    entry e = .ok (name, c) ↔ PropertyName.ofText e.1 = .ok name ∧ Condition.Parses e.2 c := by
  rw [← Condition.ofJson_eq_ok_iff]
  constructor
  · intro h
    obtain ⟨name', hn, h⟩ := bind_eq_ok.mp h
    obtain ⟨c', hc, h⟩ := bind_eq_ok.mp h
    cases h
    exact ⟨hn, hc⟩
  · rintro ⟨hn, hc⟩
    exact bind_eq_ok.mpr ⟨name, hn, bind_eq_ok.mpr ⟨c, hc, rfl⟩⟩

theorem entry_eq_error_iff : entry (key, j) = .error fault ↔ MemberFault key j fault := by
  constructor
  · intro h
    rcases bind_eq_error.mp h with h | ⟨name, hn, h⟩
    · exact .name h
    · rcases bind_eq_error.mp h with h | ⟨_, -, h⟩
      · obtain ⟨reason, ho, rfl⟩ := Condition.ofJson_eq_error_iff.mp h
        exact .condition hn ho
      · cases h
  · intro h
    cases h with
    | name h => exact bind_eq_error.mpr (.inl h)
    | condition hn ho =>
      have hc := Condition.ofJson_eq_error_iff.mpr ⟨_, ho, rfl⟩
      exact bind_eq_error.mpr (.inr ⟨_, hn, bind_eq_error.mpr (.inl hc)⟩)

theorem admits_iff : Admits key j ↔ ∃ found, entry (key, j) = .ok found := by
  constructor
  · rintro ⟨⟨name, hn⟩, c, hc⟩
    exact ⟨(name, c), entry_eq_ok_iff.mpr ⟨hn, hc⟩⟩
  · rintro ⟨⟨name, c⟩, h⟩
    obtain ⟨hn, hc⟩ := entry_eq_ok_iff.mp h
    exact ⟨⟨name, hn⟩, c, hc⟩

theorem ofJson_obj (members : Ascending String Json none) :
    ofJson (.obj members) = (members.toList.mapM entry).map .ofList := rfl

theorem toList_ofList_of_entries {found : List (PropertyName × Condition)}
    (h : members.toList.mapM entry = .ok found) : (OrderedMap.ofList found).toList = found := by
  have ht : members.toList.map (·.1) = found.map (·.1.text) := by
    rw [← List.forall₂_eq_eq_eq, List.forall₂_map_left_iff, List.forall₂_map_right_iff]
    refine (mapM_eq_ok_iff_forall₂.mp h).imp fun e w he => ?_
    exact (PropertyName.text_of_ofText (entry_eq_ok_iff.mp he).1).symm
  have hk : (members.toList.map (·.1)).Pairwise (· < ·) := members.pairwise_keys
  rw [ht, List.pairwise_map] at hk
  exact OrderedMap.toList_ofList hk

theorem parses_of_ofJson (h : ofJson (.obj members) = .ok conditions) :
    Parses members conditions := by
  rw [ofJson_obj] at h
  obtain ⟨found, hf, rfl⟩ := map_eq_ok.mp h
  have hm := mapM_eq_ok.mp hf
  have hg (name c) : (OrderedMap.ofList found).get? name = some c ↔ (name, c) ∈ found := by
    rw [← Ascending.mem_toList_iff, toList_ofList_of_entries hf]
  constructor
  · intro key j hj
    have he := List.mem_map_of_mem (f := entry) ((members.mem_toList_iff key j).mpr hj)
    rw [hm] at he
    obtain ⟨⟨name, c⟩, hw, he⟩ := List.mem_map.mp he
    exact ⟨name, c, (entry_eq_ok_iff.mp he.symm).1, (hg name c).mpr hw⟩
  · intro name c hc
    have hw := List.mem_map_of_mem (f := Except.ok (ε := RequestError)) ((hg name c).mp hc)
    rw [← hm] at hw
    obtain ⟨⟨key, j⟩, he, hw⟩ := List.mem_map.mp hw
    obtain ⟨hn, hp⟩ := entry_eq_ok_iff.mp hw
    rw [PropertyName.text_of_ofText hn]
    exact ⟨j, (members.mem_toList_iff key j).mp he, hp⟩

theorem Parses.get?_of (h : Parses members conditions) (h' : Parses members conditions')
    {name : PropertyName} (hc : conditions.get? name = some c) :
    conditions'.get? name = some c := by
  obtain ⟨j, hj, hp⟩ := h.own name c hc
  obtain ⟨name', c', hn, hc'⟩ := h'.each _ j hj
  obtain rfl : name' = name := PropertyName.ext_text (PropertyName.text_of_ofText hn)
  obtain ⟨j', hj', hp'⟩ := h'.own _ _ hc'
  cases hj.symm.trans hj'
  have hsame := (Condition.ofJson_eq_ok_iff.mpr hp).symm.trans (Condition.ofJson_eq_ok_iff.mpr hp')
  cases hsame
  exact hc'

theorem Parses.unique (h : Parses members conditions) (h' : Parses members conditions') :
    conditions = conditions' := by
  apply Ascending.ext_get?
  intro name
  ext c
  exact ⟨h.get?_of h', h'.get?_of h⟩

theorem Parses.admits (h : Parses members conditions) (hj : members.get? key = some j) :
    Admits key j := by
  obtain ⟨name, c, hn, hc⟩ := h.each key j hj
  obtain ⟨j', hj', hp⟩ := h.own name c hc
  rw [PropertyName.text_of_ofText hn, hj] at hj'
  cases hj'
  exact ⟨⟨name, hn⟩, c, hp⟩

theorem ofJson_eq_error_iff : ofJson j = .error fault ↔ Faults j fault := by
  constructor
  · intro h
    cases j with
    | obj members =>
      rw [ofJson_obj, map_eq_error] at h
      obtain ⟨key, j, hj, hf, first⟩ := Ascending.mapM_eq_error.mp h
      refine .member hj (entry_eq_error_iff.mp hf) ?_
      intro key' j' hj' hlt
      exact admits_iff.mpr (first key' j' hj' hlt)
    | _ =>
      cases h
      exact .shape nofun
  · intro h
    cases h with
    | shape other =>
      cases j with
      | obj members => exact absurd rfl (other members)
      | _ => rfl
    | @member members key j fault hj hf first =>
      rw [ofJson_obj, map_eq_error]
      refine Ascending.mapM_eq_error.mpr ⟨key, j, hj, entry_eq_error_iff.mpr hf, ?_⟩
      intro key' j' hj' hlt
      exact admits_iff.mp (first key' j' hj' hlt)

theorem exists_ofJson_iff : (∃ conditions, ofJson j = .ok conditions) ↔
    ∃ members, j = .obj members ∧ ∀ key j, members.get? key = some j → Admits key j := by
  constructor
  · rintro ⟨conditions, h⟩
    cases j with
    | obj members => exact ⟨members, rfl, fun key j => (parses_of_ofJson h).admits⟩
    | _ => cases h
  · rintro ⟨members, rfl, ha⟩
    cases hx : ofJson (.obj members) with
    | ok conditions => exact ⟨conditions, rfl⟩
    | error fault =>
      cases ofJson_eq_error_iff.mp hx with
      | shape other => exact absurd rfl (other members)
      | member hj hf _ =>
        obtain ⟨found, hok⟩ := admits_iff.mp (ha _ _ hj)
        cases hok.symm.trans (entry_eq_error_iff.mpr hf)

theorem ofJson_eq_ok_iff :
    ofJson j = .ok conditions ↔ ∃ members, j = .obj members ∧ Parses members conditions := by
  constructor
  · intro h
    cases j with
    | obj members => exact ⟨members, rfl, parses_of_ofJson h⟩
    | _ => cases h
  · rintro ⟨members, rfl, hp⟩
    obtain ⟨conditions', h⟩ :=
      exists_ofJson_iff.mpr ⟨members, rfl, fun key j => hp.admits⟩
    rw [hp.unique (parses_of_ofJson h)]
    exact h

/-- The documents that are read as a condition or as the conditions of a search, what each stands
for, and the fault that is told of any other. -/
theorem parses_exactly :
    (∀ j c, Condition.ofJson j = .ok c ↔ Condition.Parses j c) ∧
    (∀ j, (∃ c, Condition.ofJson j = .ok c) ↔ ¬ j.HasKeyword ∨ ∃ members, j = .obj members ∧
      ∀ key operand, members.get? key = some operand → Operator.Admits key operand) ∧
    (∀ j fault, Condition.ofJson j = .error fault ↔
      ∃ reason, Condition.Offends j reason ∧ fault = .condition reason) ∧
    (∀ j conditions, ofJson j = .ok conditions ↔
      ∃ members, j = .obj members ∧ Parses members conditions) ∧
    (∀ j, (∃ conditions, ofJson j = .ok conditions) ↔
      ∃ members, j = .obj members ∧ ∀ key j, members.get? key = some j → Admits key j) ∧
    ∀ j fault, ofJson j = .error fault ↔ Faults j fault := by
  refine ⟨?_, ?_, ?_, ?_, ?_, ?_⟩
  · intro j c
    exact Condition.ofJson_eq_ok_iff
  · intro j
    exact Condition.exists_ofJson_iff
  · intro j fault
    exact Condition.ofJson_eq_error_iff
  · intro j conditions
    exact ofJson_eq_ok_iff
  · intro j
    exact exists_ofJson_iff
  · intro j fault
    exact ofJson_eq_error_iff

/-- Of a key that is no keyword and a flag that is none only the key is told. -/
example : Condition.ofJson (.obj (OrderedMap.ofList [("$exists", .null), ("x", .null)])) =
    .error (.condition "cannot mix operators with the field x") := by rfl

end Conditions

end PropertyGraph
