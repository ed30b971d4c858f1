import PropertyGraph.Proofs.Binary64
import PropertyGraph.Proofs.OrderedMap
import PropertyGraph.Value

/-! Values and their JSON form: what comes back when one is turned into the other. -/
namespace PropertyGraph

variable {v : Value} {j : Json}

namespace Json

/-- A document and all that is in it, at any depth. -/
inductive Within (part : Json) : Json → Prop
  | self : Within part part
  | item {items : List Json} {j : Json} (h : j ∈ items) (hp : Within part j) :
      Within part (.arr items)
  | member {members : Ascending String Json none} {k : String} {j : Json}
      (h : members.get? k = some j) (hp : Within part j) : Within part (.obj members)

/-- No integer in a document is beyond 64 signed bits. -/
def Narrow (j : Json) : Prop := ∀ n above, ¬ Within (.num (.large n above)) j

theorem narrow_num_iff {n : Json.Number} :
    Narrow (.num n) ↔ ∀ value above, n ≠ .large value above := by
  constructor
  · rintro h value above rfl
    exact h value above .self
  · intro h value above hw
    cases hw
    exact h value above rfl

theorem narrow_arr_iff {items : List Json} : Narrow (.arr items) ↔ ∀ j ∈ items, Narrow j := by
  constructor
  · intro h j hj n above hw
    exact h n above (.item hj hw)
  · intro h n above hw
    cases hw with
    | item hj hw => exact h _ hj n above hw

theorem narrow_obj_iff {members : Ascending String Json none} :
    Narrow (.obj members) ↔ ∀ e ∈ members.toList, Narrow e.2 := by
  constructor
  · rintro h ⟨k, j⟩ he n above hw
    exact h n above (.member ((members.mem_toList_iff k j).mp he) hw)
  · intro h n above hw
    cases hw with
    | member hk hw => exact h _ ((members.mem_toList_iff _ _).mpr hk) n above hw

end Json

namespace Value

/-- A value itself and all that is in it, at any depth. -/
inductive Within (part : Value) : Value → Prop
  | self : Within part part
  | item {items : List Value} {v : Value} (h : v ∈ items) (hp : Within part v) :
      Within part (.arr items)
  | field {fields : Properties} {k : String} {v : Value} (h : fields.get? k = some v)
      (hp : Within part v) : Within part (.map fields)

/-- No float in a value is infinite or NaN. -/
def AllFinite (v : Value) : Prop := ∀ x, Within (.float x) v → x.IsFinite

theorem allFinite_arr_iff {items : List Value} :
    AllFinite (.arr items) ↔ ∀ v ∈ items, AllFinite v := by
  constructor
  · intro h v hv x hw
    exact h x (.item hv hw)
  · intro h x hw
    cases hw with
    | item hv hw => exact h _ hv x hw

theorem allFinite_map_iff {fields : Properties} :
    AllFinite (.map fields) ↔ ∀ e ∈ fields.toList, AllFinite e.2 := by
  constructor
  · rintro h ⟨k, v⟩ he x hw
    exact h x (.field ((fields.mem_toList_iff k v).mp he) hw)
  · intro h x hw
    cases hw with
    | field hk hw => exact h _ ((fields.mem_toList_iff _ _).mpr hk) x hw

section ThereAndBack

theorem toJson_float {x : Binary64} (hx : x.IsFinite) : toJson (float x) = .num (.float x hx) :=
  dif_pos hx

mutual

theorem ofJson_toJson (v : Value) (h : v.AllFinite) : ofJson v.toJson = v := by
  cases v with
  | float x => rw [toJson_float (h x .self), ofJson, ofNumber]
  | arr items =>
    rw [toJson, ofJson, ofJsonItems_toJsonItems items (allFinite_arr_iff.mp h)]
  | map fields =>
    rw [toJson, ofJson, ofJsonFields_toJsonFields fields (allFinite_map_iff.mp h)]
  | null | bool _ | int _ | str _ => rfl

theorem ofJsonItems_toJsonItems (vs : List Value) (h : ∀ v ∈ vs, v.AllFinite) :
    ofJsonItems (toJsonItems vs) = vs := by
  cases vs with
  | nil => rfl
  | cons v vs =>
    obtain ⟨hv, hvs⟩ := List.forall_mem_cons.mp h
    rw [toJsonItems, ofJsonItems, ofJson_toJson v hv, ofJsonItems_toJsonItems vs hvs]

theorem ofJsonFields_toJsonFields {lo : Option String} (fields : Ascending String Value lo)
    (h : ∀ e ∈ fields.toList, e.2.AllFinite) : ofJsonFields (toJsonFields fields) = fields := by
  cases fields with
  | nil => rfl
  | cons k v above rest =>
    obtain ⟨hv, hrest⟩ := List.forall_mem_cons.mp h
    rw [toJsonFields, ofJsonFields, ofJson_toJson v hv, ofJsonFields_toJsonFields rest hrest]

end

mutual

theorem toJson_ofJson (j : Json) (h : j.Narrow) : (ofJson j).toJson = j := by
  cases j with
  | num n =>
    cases n with
    | int i => rfl
    | large n above => exact absurd rfl (Json.narrow_num_iff.mp h n above)
    | float x hx => exact toJson_float hx
  | arr items => rw [ofJson, toJson, toJsonItems_ofJsonItems items (Json.narrow_arr_iff.mp h)]
  | obj members =>
    rw [ofJson, toJson, toJsonFields_ofJsonFields members (Json.narrow_obj_iff.mp h)]
  | null | bool _ | str _ => rfl

theorem toJsonItems_ofJsonItems (js : List Json) (h : ∀ j ∈ js, j.Narrow) :
    toJsonItems (ofJsonItems js) = js := by
  cases js with
  | nil => rfl
  | cons j js =>
    obtain ⟨hj, hjs⟩ := List.forall_mem_cons.mp h
    rw [ofJsonItems, toJsonItems, toJson_ofJson j hj, toJsonItems_ofJsonItems js hjs]

theorem toJsonFields_ofJsonFields {lo : Option String} (members : Ascending String Json lo)
    (h : ∀ e ∈ members.toList, e.2.Narrow) : toJsonFields (ofJsonFields members) = members := by
  cases members with
  | nil => rfl
  | cons k j above rest =>
    obtain ⟨hj, hrest⟩ := List.forall_mem_cons.mp h
    rw [ofJsonFields, toJsonFields, toJson_ofJson j hj, toJsonFields_ofJsonFields rest hrest]

end

theorem isFinite_ofNumber {n : Json.Number} {x : Binary64} (h : ofNumber n = float x) :
    x.IsFinite := by
  cases n with
  | int i => cases h
  | large n above =>
    cases h
    have hn := n.toNat_lt
    exact Binary64.isFinite_ofInt (by omega)
  | float y hy =>
    cases h
    exact hy

mutual

/-- What documents hold is finite, also where an integer had to become a float. -/
theorem allFinite_ofJson (j : Json) : (ofJson j).AllFinite := by
  cases j with
  | num n =>
    intro x hw
    generalize hv : ofJson (.num n) = v at hw
    cases hw with
    | self => exact isFinite_ofNumber hv
    | item hi _ => cases n <;> cases hv
    | field hk _ => cases n <;> cases hv
  | arr items => exact allFinite_arr_iff.mpr (allFinite_ofJsonItems items)
  | obj members => exact allFinite_map_iff.mpr (allFinite_ofJsonFields members)
  | null | bool _ | str _ => exact fun x hw => by cases hw

theorem allFinite_ofJsonItems (js : List Json) : ∀ v ∈ ofJsonItems js, v.AllFinite := by
  cases js with
  | nil => exact nofun
  | cons j js =>
    exact List.forall_mem_cons.mpr ⟨allFinite_ofJson j, allFinite_ofJsonItems js⟩

theorem allFinite_ofJsonFields {lo : Option String} (members : Ascending String Json lo) :
    ∀ e ∈ (ofJsonFields members).toList, e.2.AllFinite := by
  cases members with
  | nil => exact nofun
  | cons k j above rest =>
    exact List.forall_mem_cons.mpr ⟨allFinite_ofJson j, allFinite_ofJsonFields rest⟩

end

end ThereAndBack

/-- A value without infinities and NaN comes back from its JSON form, and a document without
integers beyond 64 signed bits from its value. Of any document the value comes back. -/
theorem json_round_trips :
    (∀ v : Value, v.AllFinite → ofJson v.toJson = v) ∧
    (∀ j : Json, j.Narrow → (ofJson j).toJson = j) ∧
    ∀ j : Json, ofJson (ofJson j).toJson = ofJson j := by
  refine ⟨ofJson_toJson, toJson_ofJson, ?_⟩
  intro j
  exact ofJson_toJson (ofJson j) (allFinite_ofJson j)

/-- A negative integer, a float without fraction, and minus zero inside a map. -/
def sampleDocument : Json :=
  .arr [.num (.int (-3)), .num (.float ⟨0x3ff0000000000000⟩ (by decide)),
    .obj (.cons "zero" (.num (.float ⟨0x8000000000000000⟩ (by decide))) trivial .nil)]

theorem json_round_trips_sample :
    let v : Value := arr [int (-3), float ⟨0x3ff0000000000000⟩,
      map (.cons "zero" (float ⟨0x8000000000000000⟩) trivial .nil)]
    let large : Json := .num (.large 0x8000000000000000 (by decide))
    ofJson sampleDocument = v ∧ v.AllFinite ∧ ofJson v.toJson = v ∧ sampleDocument.Narrow ∧
      v.toJson = sampleDocument ∧ ofJson large = float ⟨0x43e0000000000000⟩ ∧
      ofJson (ofJson large).toJson = ofJson large := by
  intro v large
  obtain ⟨hvalue, hdocument, hagain⟩ := json_round_trips
  have hv : v.AllFinite := allFinite_ofJson sampleDocument
  have hd : sampleDocument.Narrow := by
    simp only [sampleDocument, Json.narrow_arr_iff, List.forall_mem_cons]
    refine ⟨?_, ?_, ?_, nofun⟩
    · exact Json.narrow_num_iff.mpr nofun
    · exact Json.narrow_num_iff.mpr nofun
    · refine Json.narrow_obj_iff.mpr ?_
      exact List.forall_mem_singleton.mpr (Json.narrow_num_iff.mpr nofun)
  exact ⟨rfl, hv, hvalue v hv, hd, hdocument _ hd, by rfl, hagain large⟩

end Value

end PropertyGraph
