import PropertyGraph.Proofs.Absence
import PropertyGraph.Proofs.Clearing
import PropertyGraph.Proofs.NameOrder
import PropertyGraph.Properties.InPlace

/-! Walks along a path: when they fail, and that those that fail leave nothing behind. -/
namespace PropertyGraph

variable {m m' inner : Properties} {name : PropertyName} {v : Value} {k : String}
  {keys ls : List String} {fault : RequestError}

namespace Ascending

theorem erase_of_get?_eq_none {κ α : Type} [LT κ] [LinearKey κ] [DecidableEq κ] {lo : Option κ}
    {m : Ascending κ α lo} {k : κ} (h : m.get? k = none) : m.erase k = m := by
  apply ext_get?
  intro j
  rw [get?_erase]
  split
  · next hj => rw [hj, h]
  · rfl

end Ascending

namespace Properties
open Value

theorem fill_of_some {u : Value} (h : m.get? k = some u) : m.fill k = m := by
  rw [fill, Ascending.contains, h]
  rfl

theorem fill_of_none (h : m.get? k = none) : m.fill k = OrderedMap.insert m k (.map ∅) := by
  rw [fill, Ascending.contains, h]
  rfl

/-- What has been made on the way is empty, so no walk fails behind it. -/
theorem setAlong_eq (m : Properties) (name : PropertyName) (v : Value) (hne : keys ≠ []) :
    m.setAlong name v keys = match m.setAt? v keys with
      | some m' => (.ok (), m')
      | none => (.error (.pathConflict name.text), m) := by
  induction keys generalizing m with
  | nil => exact absurd rfl hne
  | cons k ks ih =>
    cases ks with
    | nil => rfl
    | cons k' ks =>
      have hn : k' :: ks ≠ [] := by simp
      rw [setAlong, setAt?]
      cases hk : m.get? k with
      | none =>
        -- From here on the walk goes through maps of its own making.
        obtain ⟨made, hs⟩ := exists_setAt?_empty v hn
        simp only [fill_of_none hk, OrderedMap.get?_insert, if_true, ih ∅ hn, hs,
          OrderedMap.insert_insert, Option.getD_none, Option.map_some]
      | some u =>
        simp only [fill_of_some hk, hk, Option.getD_some]
        cases u with
        | map inner =>
          simp only [ih inner hn]
          cases setAt? inner v (k' :: ks) with
          | some inner' => rfl
          | none => simp only [OrderedMap.insert_get? hk, Option.map_none]
        | null | bool _ | int _ | float _ | str _ | arr _ => rfl

theorem removeAlong_eq (m : Properties) (keys : List String) :
    m.removeAlong keys = ((m.at? keys).isSome, (m.unsetAt? keys).getD m) := by
  induction keys generalizing m with
  | nil => rfl
  | cons k ks ih =>
    cases ks with
    | nil =>
      rw [removeAlong, unsetAt?, at?, Ascending.contains]
      cases hk : m.get? k with
      | none => simp [Ascending.erase_of_get?_eq_none hk]
      | some u => rfl
    | cons k' ks =>
      rw [removeAlong, unsetAt?, at?]
      cases hk : m.get? k with
      | none => rfl
      | some u =>
        cases u with
        | map inner =>
          simp only [ih inner, Option.bind_some]
          cases unsetAt? inner (k' :: ks) with
          | some inner' => rfl
          | none => simp only [OrderedMap.insert_get? hk, Option.getD_none]; rfl
        | null | bool _ | int _ | float _ | str _ | arr _ => rfl

/-- A walk that fails has changed nothing, so a write that has no result but the fault tells all. -/
theorem set_eq (m : Properties) (name : PropertyName) (v : Value) :
    m.set name v = match m.write name v with
      | .ok m' => (.ok (), m')
      | .error fault => (.error fault, m) := by
  rw [set, write, setAlong_eq m name v name.segments_ne_nil]
  cases m.setAt? v name.segments <;> rfl

theorem set_eq_ok_iff : m.set name v = (.ok (), m') ↔ m.write name v = .ok m' := by
  rw [set_eq]
  cases m.write name v <;> simp

theorem set_eq_error_iff :
    m.set name v = (.error fault, m') ↔ m.write name v = .error fault ∧ m' = m := by
  rw [set_eq]
  cases m.write name v <;> simp [eq_comm]

/-- Assignments may as well be made in place, also where one of them is refused. -/
theorem assignAll_cons (m : Properties) (name : PropertyName) (v : Value)
    (rest : List (PropertyName × Value)) :
    Update.assignAll m ((name, v) :: rest) = match m.set name v with
      | (.ok (), m') => Update.assignAll m' rest
      | (.error fault, m') => (.error fault, m') := by
  rw [Update.assignAll, set_eq]
  cases m.write name v <;> rfl

theorem remove_eq (m : Properties) (name : PropertyName) :
    m.remove name = ((m.read name).isSome, m.unset name) := removeAlong_eq m name.segments

/-- A name above this one is that of a value that is no map. -/
def Blocked (m : Properties) (name : PropertyName) : Prop :=
  ∃ above : PropertyName, OnWay above.segments name.segments ∧
    ∃ w, m.read above = some w ∧ ∀ inner, w ≠ .map inner

theorem blocked_iff :
    m.Blocked name ↔ ∃ ls, OnWay ls name.segments ∧ ¬ Passable (root (some m)) ls := by
  constructor
  · rintro ⟨above, hl, w, hw, hc⟩
    rw [read_eq] at hw
    exact ⟨above.segments, hl, not_passable_iff.mpr ⟨w, hw, hc⟩⟩
  · rintro ⟨ls, hl, hn⟩
    have hne : ls ≠ [] := by
      rintro rfl
      exact hn (.inr rfl)
    obtain ⟨w, hw, hc⟩ := not_passable_iff.mp hn
    obtain ⟨above, hs⟩ := PropertyName.exists_segments_eq hne hl.1
    rw [← hs] at hl hw
    exact ⟨above, hl, w, (read_eq m above).trans hw, hc⟩

theorem write_eq_error_iff :
    m.write name v = .error fault ↔ m.Blocked name ∧ fault = .pathConflict name.text := by
  have he : edit (.pathConflict name.text) (some v) name.segments (root (some m)) =
      (m.write name v).map fun m' => root (some m') := editRoot_write m name v
  rw [blocked_iff, ← edit_some_eq_error_iff (v := v), he, map_eq_error]

theorem view_of_missing (hr : m.read name = none) (hp : name.segments <+: ls) :
    view (root (some m)) ls = none := by
  obtain ⟨js, rfl⟩ := hp
  exact view_eq_none.mpr (at?_of_missing hr js)

theorem unset_of_missing (hr : m.read name = none) : m.unset name = m := by
  refine eq_of_views fun ls => ?_
  rw [view_unset]
  split
  · next hp => exact (view_of_missing hr hp).symm
  · rfl

theorem write_of_read (hv : m.read name = some v) : m.write name v = .ok m := by
  obtain ⟨m', hw⟩ := exists_write (fun ls hl => .inr (view_of_onWay hv hl)) v
  have he := edit_of_write hw
  have hm : m' = m := by
    refine eq_of_views fun ls => ?_
    by_cases hp : name.segments <+: ls ∨ ls <+: name.segments
    · exact view_of_copied hv he hp
    · exact view_congr (at?_edit_of_apart (not_or.mp hp) he)
  rw [hw, hm]

/-- A value that was put where there was nothing is all that has to be taken away again. -/
theorem unset_of_write (hr : m.read name = none)
    (hp : (Value.map m).at? name.segments.dropLast = some (.map inner))
    (hw : m.write name v = .ok m') : m'.unset name = m := by
  have he := edit_of_write hw
  refine eq_of_views fun ls => ?_
  rw [view_unset]
  split
  · next hb => exact (view_of_missing hr hb).symm
  · next hb =>
    rcases onWay_or_apart hb with hl | ha
    · rw [map_of_edit he hl, view_of_parent hp hl]
    · exact view_congr (at?_edit_of_apart ha he)

/-- A value is set unless another one that is no map stands above its place, and where it is not set
nothing is changed. What was set is read and can be removed, and what is missing cannot. To set what
is there, or to remove what was put into a map, leaves all as it was. -/
theorem walks_clean (m : Properties) (name : PropertyName) (v : Value) :
    (∀ fault m', m.set name v = (.error fault, m') ↔
      (m.Blocked name ∧ fault = .pathConflict name.text) ∧ m' = m) ∧
    (∀ m', m.set name v = (.ok (), m') → m'.read name = some v ∧
      ∃ m'', m'.remove name = (true, m'') ∧ m''.read name = none) ∧
    ((m.remove name).1 = true ↔ ∃ w, m.read name = some w) ∧
    ((m.remove name).1 = false → (m.remove name).2 = m) ∧
    (m.read name = some v → m.set name v = (.ok (), m)) ∧
    ∀ inner, m.read name = none →
      (Value.map m).at? name.segments.dropLast = some (.map inner) →
      ∃ m', m.set name v = (.ok (), m') ∧ m'.remove name = (true, m) := by
  refine ⟨?_, ?_, ?_, ?_, ?_, ?_⟩
  · intro fault m'
    rw [set_eq_error_iff, write_eq_error_iff]
  · intro m' h
    have hr := read_of_write (set_eq_ok_iff.mp h)
    refine ⟨hr, m'.unset name, ?_, read_unset m' name⟩
    rw [remove_eq, hr]
    rfl
  · rw [remove_eq]
    exact Option.isSome_iff_exists
  · intro h
    rw [remove_eq] at h ⊢
    have hr : m.read name = none := by simpa using h
    exact unset_of_missing hr
  · intro hv
    exact set_eq_ok_iff.mpr (write_of_read hv)
  · intro inner hr hp
    obtain ⟨m', hw⟩ := exists_write_of_parent hp v
    refine ⟨m', set_eq_ok_iff.mpr hw, ?_⟩
    rw [remove_eq, read_of_write hw, unset_of_write hr hp hw]
    rfl

def sampleGear : PropertyName := ⟨"bike.gear", by decide, by decide⟩

def sampleBell : PropertyName := ⟨"bike.bell", by decide, by decide⟩

/-- Its way leads through a text. -/
def sampleHue : PropertyName := ⟨"paint.hue", by decide, by decide⟩

def sampleBike : Properties :=
  OrderedMap.ofList [("bike", .map (OrderedMap.ofList [("gear", .int 7)])), ("paint", .str "red")]

theorem walks_clean_sample :
    let m := sampleBike
    m.Blocked sampleHue ∧
      m.set sampleHue (.int 5) = (.error (.pathConflict "paint.hue"), m) ∧
      (m.remove sampleHue).1 = false ∧ (m.remove sampleHue).2 = m ∧
      m.read sampleGear = some (.int 7) ∧ m.set sampleGear (.int 7) = (.ok (), m) ∧
      m.read sampleBell = none ∧
      (∃ bike, (Value.map m).at? sampleBell.segments.dropLast = some (.map bike)) ∧
      ∃ m', m.set sampleBell (.bool true) = (.ok (), m') ∧ m'.remove sampleBell = (true, m) ∧
        m'.read sampleBell = some (.bool true) := by
  intro m
  have hb : m.Blocked sampleHue := by
    refine ⟨⟨"paint", by decide, by decide⟩, ?_, .str "red", by decide +kernel, nofun⟩
    unfold OnWay
    decide +kernel
  obtain ⟨hrefused, -, -, hkept, -, -⟩ := walks_clean m sampleHue (.int 5)
  have hn : (m.remove sampleHue).1 = false := by decide +kernel
  obtain ⟨-, -, -, -, hsame, -⟩ := walks_clean m sampleGear (.int 7)
  have hg : m.read sampleGear = some (.int 7) := by decide +kernel
  obtain ⟨-, hread, -, -, -, hback⟩ := walks_clean m sampleBell (.bool true)
  have hr : m.read sampleBell = none := by decide +kernel
  have hp : (Value.map m).at? sampleBell.segments.dropLast =
      some (.map (OrderedMap.ofList [("gear", .int 7)])) := by decide +kernel
  obtain ⟨m', hset, hremove⟩ := hback _ hr hp
  exact ⟨hb, (hrefused _ m).mpr ⟨⟨hb, rfl⟩, rfl⟩, hn, hkept hn, hg, hsame hg, hr, ⟨_, hp⟩, m',
    hset, hremove, (hread m' hset).1⟩

/-- Maps that had to be made on the way to a value are not taken away with it. -/
example :
    set ∅ sampleGear (.int 7) =
        (.ok (), OrderedMap.ofList [("bike", .map (OrderedMap.ofList [("gear", .int 7)]))]) ∧
      remove (set ∅ sampleGear (.int 7)).2 sampleGear =
        (true, OrderedMap.ofList [("bike", .map ∅)]) := by
  decide +kernel

end Properties
end PropertyGraph
