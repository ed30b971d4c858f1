import PropertyGraph.Proofs.Conflict
import PropertyGraph.Proofs.Restriction

/-! Properties that are missing and properties that are null: only one operator tells them apart. -/
namespace PropertyGraph

variable {op : Operator} {c : Condition} {f : Filter} {e : Edge} {m m' inner : Properties}
  {name q : PropertyName}

namespace Operator

theorem equals_null : equals (some .null) = equals none := by
  funext expected
  cases expected <;> rfl

theorem ordered_null (accept : Ordering → Bool) :
    ordered accept (some .null) = ordered accept none := by
  funext bound
  cases bound <;> rfl

theorem holds_null (h : ∀ flag, op ≠ .present flag) : op.holds (some .null) = op.holds none := by
  cases op with
  | eq operand | ne operand | isIn candidates | notIn candidates => simp only [holds, equals_null]
  | gt bound | gte bound | lt bound | lte bound => simp only [holds, ordered_null]
  | present flag => exact absurd rfl (h flag)

end Operator

namespace Condition

def AsksPresence : Condition → Prop
  | value _ => False
  | ops operators => ∃ flag, .present flag ∈ operators

instance (c : Condition) : Decidable c.AsksPresence :=
  match c with
  | value _ => .isFalse id
  | ops operators => inferInstanceAs (Decidable (∃ flag, .present flag ∈ operators))

theorem holds_null (h : ¬ c.AsksPresence) : c.holds (some .null) = c.holds none := by
  cases c with
  | value expected => exact congrFun Operator.equals_null expected
  | ops operators =>
    rw [holds, holds, Bool.eq_iff_iff, List.all_eq_true, List.all_eq_true]
    refine forall₂_congr fun op hop => ?_
    rw [Operator.holds_null]
    rintro flag rfl
    exact h ⟨flag, hop⟩

end Condition

namespace Properties
open Value

/-- Above a map there are only maps. -/
theorem view_of_parent (h : (Value.map m).at? name.segments.dropLast = some (.map inner))
    {ls : List String} (hl : OnWay ls name.segments) :
    view (root (some m)) ls = some (.map ∅) := by
  obtain ⟨js, hjs⟩ := PropertyName.onWay_iff.mp hl
  rw [← hjs, at?_append] at h
  obtain ⟨u, hu, hj⟩ := Option.bind_eq_some_iff.mp h
  refine view_eq_map.mpr ?_
  cases js with
  | nil =>
    cases hj
    exact ⟨inner, hu⟩
  | cons k js =>
    obtain ⟨fields, rfl⟩ := map_of_at? hj
    exact ⟨fields, hu⟩

/-- A value can be written where its parent is a map. -/
theorem exists_write_of_parent (h : (Value.map m).at? name.segments.dropLast = some (.map inner))
    (v : Value) : ∃ m', m.write name v = .ok m' :=
  exists_write (fun _ hl => .inr (view_of_parent h hl)) v

theorem read_of_write {v : Value} (hw : m.write name v = .ok m') : m'.read name = some v := by
  rw [read_eq]
  exact at?_edit (edit_of_write hw)

/-- Where nothing is there is nothing below. -/
theorem at?_of_missing (hr : m.read name = none) (js : List String) :
    (root (some m)).bind (·.at? (name.segments ++ js)) = none := by
  rw [read_eq] at hr
  refine (at?_append (.map m) _ js).trans ?_
  exact congrArg (Option.bind · (·.at? js)) hr

/-- Where nothing was, a null is seen at its own place and nowhere else but on the way to it. -/
theorem read_write_null (hr : m.read name = none) (hw : m.write name .null = .ok m')
    (hq : ¬ OnWay q.segments name.segments) :
    m'.read q = m.read q ∨ m.read q = none ∧ m'.read q = some .null := by
  have h := edit_of_write hw
  by_cases hp : name.segments <+: q.segments
  · obtain ⟨js, hjs⟩ := hp
    have hbefore : m.read q = none := by
      rw [read_eq, ← hjs]
      exact at?_of_missing hr js
    have hafter : m'.read q = Value.null.at? js := by
      rw [read_eq, ← hjs]
      exact at?_edit_append h js
    cases js with
    | nil => exact .inr ⟨hbefore, hafter⟩
    | cons k js => exact .inl (hafter.trans hbefore.symm)
  · have ha := (onWay_or_apart hp).resolve_left hq
    left
    rw [read_eq, read_eq]
    exact at?_edit_of_apart ha h

end Properties

namespace Filter

theorem accepts_write_null (hf : ∀ cond ∈ f.props, ¬ cond.2.AsksPresence) (he : e.props = some m)
    (hr : m.read name = none) (hw : m.write name .null = .ok m')
    (hq : ∀ cond ∈ f.props, ¬ OnWay cond.1.segments name.segments) :
    f.accepts { e with props := some m' } = f.accepts e := by
  have hprops : f.props.all (fun cond => cond.2.holds (m'.read cond.1)) =
      f.props.all fun cond => cond.2.holds (m.read cond.1) := by
    rw [Bool.eq_iff_iff, List.all_eq_true, List.all_eq_true]
    refine forall₂_congr fun cond hc => ?_
    rcases Properties.read_write_null hr hw (hq cond hc) with hsame | ⟨hnone, hnull⟩
    · rw [hsame]
    · rw [hnone, hnull, Condition.holds_null (hf cond hc)]
  have hread : ∀ q, e.property? q = m.read q := by
    intro q
    rw [Edge.property?, he]
    rfl
  simp only [accepts, hread]
  exact congrArg _ hprops

/-- Without an operator that asks for presence a missing property is as good as null, in a condition
and in a filter that asks for none of the maps above it. -/
theorem null_unseen :
    (∀ c : Condition, ¬ c.AsksPresence → c.holds none = c.holds (some .null)) ∧
    ∀ f : Filter, (∀ cond ∈ f.props, ¬ cond.2.AsksPresence) →
      ∀ (e : Edge) m (name : PropertyName) inner, e.props = some m → m.read name = none →
        (Value.map m).at? name.segments.dropLast = some (.map inner) →
        (∀ cond ∈ f.props, ¬ OnWay cond.1.segments name.segments) →
        ∃ m', m.write name .null = .ok m' ∧ m'.read name = some .null ∧
          f.accepts { e with props := some m' } = f.accepts e := by
  refine ⟨fun c hc => (Condition.holds_null hc).symm, ?_⟩
  intro f hf e m name inner he hr hparent hq
  obtain ⟨m', hw⟩ := Properties.exists_write_of_parent hparent .null
  exact ⟨m', hw, Properties.read_of_write hw, accepts_write_null hf he hr hw hq⟩

def sampleRoof : PropertyName := ⟨"car.roof", by decide, by decide⟩

/-- Conditions on what is missing, on what is below it and on what stands beside it. -/
def sampleRoofs : Filter :=
  { src := some (.ofByte 0xac)
    props := [(sampleRoof, .ops [.isIn [.int 1, .null], .ne (.bool true)]),
      (⟨"car.roof.rack", by decide, by decide⟩, .value .null),
      (⟨"car.seat", by decide, by decide⟩, .ops [.gte (.float ⟨0x4010000000000000⟩)])] }

set_option maxRecDepth 8000 in
theorem null_unseen_sample :
    let c : Condition := .ops [.notIn [.null], .lt (.null)]
    let car : Properties := OrderedMap.ofList [("seat", .int 5)]
    let m : Properties := OrderedMap.ofList [("car", .map car)]
    let e : Edge := { Edge.new (.ofByte 0xac) (.ofByte 0xac) with props := some m }
    ¬ c.AsksPresence ∧ c.holds none = c.holds (some .null) ∧
      (∀ cond ∈ sampleRoofs.props, ¬ cond.2.AsksPresence) ∧ e.props = some m ∧
      m.read sampleRoof = none ∧
      (Value.map m).at? sampleRoof.segments.dropLast = some (.map car) ∧
      (∀ cond ∈ sampleRoofs.props, ¬ OnWay cond.1.segments sampleRoof.segments) ∧
      sampleRoofs.accepts e = true ∧
      ∃ m', m.write sampleRoof .null = .ok m' ∧ m'.read sampleRoof = some .null ∧
        sampleRoofs.accepts { e with props := some m' } = sampleRoofs.accepts e := by
  intro c car m e
  obtain ⟨hholds, hset⟩ := null_unseen
  have hc : ¬ c.AsksPresence := by decide
  have hf : ∀ cond ∈ sampleRoofs.props, ¬ cond.2.AsksPresence := by decide
  have hr : m.read sampleRoof = none := by decide +kernel
  have hp : (Value.map m).at? sampleRoof.segments.dropLast = some (.map car) := by decide +kernel
  have hq : ∀ cond ∈ sampleRoofs.props, ¬ OnWay cond.1.segments sampleRoof.segments := by
    unfold OnWay
    decide +kernel
  have ha : sampleRoofs.accepts e = true := by decide +kernel
  exact ⟨hc, hholds c hc, hf, rfl, hr, hp, hq, ha, hset _ hf e m sampleRoof car rfl hr hp hq⟩

end Filter

end PropertyGraph
