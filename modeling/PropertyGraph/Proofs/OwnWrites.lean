import PropertyGraph.Proofs.Place

/-! The edge that an upsert tells of is the one that is read afterwards. -/
namespace PropertyGraph

variable {s : Storage} {edges : Edges} {e : Edge} {key : String} {f : Filter} {u : Update}
  {options : UpsertOptions} {p : Pair} {props : Option Properties} {shown : ProjectedEdge}

theorem UpsertOptions.answer_eq_some {next : Option Edge} :
    options.answer next = some shown ↔
      ∃ e, next = some e ∧ options.returnDocument = true ∧ options.projection.apply e = shown := by
  cases next <;> simp [answer]

/-- An upsert that changes nothing hands the edge back, whether or not it might make one. -/
theorem Pair.resolve_empty (p : Pair) (props : Option Properties) (options : UpsertOptions) :
    resolveUpsert (some (p.edge props)) p.filter {} options = .ok (some (p.edge props)) := by
  rw [resolveUpsert, Filter.target, if_pos (p.accepts_edge props)]
  rfl

namespace Storage

/-- What is shown of the edge of a pair, by a search for the pair and by an upsert that changes
nothing and may but need not make the edge. -/
structure ReadsBack (s : Storage) (p : Pair) (P : Projection) (shown : ProjectedEdge) : Prop where
  find : s.find p.filter P = .ok [shown]
  upsert : ∀ create : Bool,
    s.upsert p.filter {} { upsert := create, projection := P, returnDocument := true } =
      (.ok (some shown), s)

theorem edge?_put (h : s.reread e = .ok e) : (s.put key e).edge? key = .ok (some e) := by
  rw [edge?_eq_ok, stored?_put, if_pos rfl, h]
  rfl

theorem readsBack_put (hr : s.requireRunning = .ok ())
    (he : s.reread (p.edge props) = .ok (p.edge props)) (P : Projection) :
    (s.put p.key (p.edge props)).ReadsBack p P (P.apply (p.edge props)) := by
  have hr' : (s.put p.key (p.edge props)).requireRunning = .ok () :=
    (requireRunning_put s p.key (p.edge props)).trans hr
  have hx : (s.put p.key (p.edge props)).edge? p.key = .ok (some (p.edge props)) := edge?_put he
  constructor
  · have hf := find_eq (f := p.filter) rfl (s.put p.key (p.edge props)) P
    rw [hf, hr', hx]
    simp only [bind, Except.bind, Option.filter, p.accepts_edge, if_true]
    rfl
  · intro create
    have hu := upsert_eq (f := p.filter) rfl (s.put p.key (p.edge props)) {}
      { upsert := create, projection := P, returnDocument := true }
    simp only [hr', hx, bind, Except.bind, p.resolve_empty] at hu
    rw [hu]
    exact congrArg (Prod.mk _) (put_put s p.key (p.edge props) (p.edge props))

/-- What is told of an upsert is what is shown of the edge that it puts under the key of its
filter. -/
theorem upsert_eq_some (h : s.Reachable) (hr : s.engine.running = true)
    (ha : (s.upsert f u options).1 = .ok (some shown)) :
    ∃ (p : Pair) (props : Option Properties), f.uniqueIndex = some p.key ∧
      (s.upsert f u options).2 = s.put p.key (p.edge props) ∧
      shown = options.projection.apply (p.edge props) := by
  cases hk : f.uniqueIndex with
  | none =>
    have hf : s.Refuses f u options _ := .keyless hk
    rw [(upsert_eq_error hr).mpr hf] at ha
    cases ha
  | some key =>
    obtain ⟨edges, hs⟩ := h.sound
    have hu := upsert_eq hk s u options
    obtain ⟨next, hn, hnext⟩ := map_eq_ok.mp ((congrArg Prod.fst hu).symm.trans ha)
    obtain ⟨e, rfl, -, hshown⟩ := UpsertOptions.answer_eq_some.mp hnext
    obtain ⟨_, -, hx⟩ := bind_eq_ok.mp hn
    obtain ⟨existing, hx, he⟩ := bind_eq_ok.mp hx
    have hstored : ∀ e, existing = some e → e.KeyedBy key := by
      rintro e rfl
      exact hs.stored?_keyedBy (edge?_eq_ok.mp hx)
    have hkey := resolveUpsert_keyedBy hk hstored he
    obtain rfl : key = Pair.key ⟨e.src, e.dest⟩ := hkey.made
    refine ⟨⟨e.src, e.dest⟩, e.props, rfl, ?_, ?_⟩
    · rw [← hkey.eq_edge, hu, hn]
      rfl
    · rw [← hkey.eq_edge, hshown]

/-- The edge that an upsert tells of stands under the key of the filter, with the endpoints told,
and a search for it shows the same, as does an upsert that changes nothing. Only bytes beyond the
limits of their format might not be read again. -/
theorem own_writes_read (h : s.Reachable) (hr : s.engine.running = true)
    (ha : (s.upsert f u options).1 = .ok (some shown)) :
    ∃ (p : Pair) (props : Option Properties) (edges : Edges),
      f.uniqueIndex = some p.key ∧ shown.src = p.src ∧ shown.dest = p.dest ∧
      shown = options.projection.apply (p.edge props) ∧
      (s.upsert f u options).2.Holds edges ∧ edges.get? p.key = some (p.edge props) ∧
      ((s.upsert f u options).2.ReadsBack p options.projection shown ∨
        (s.engine.kind = .tree ∧ ¬ (p.edge props).WithinLimits)) := by
  obtain ⟨p, props, hk, hs', hshown⟩ := upsert_eq_some h hr ha
  obtain ⟨edges, hs⟩ := h.sound
  rw [hs']
  refine ⟨p, props, edges.insert p.key (p.edge props), hk, ?_, ?_, hshown,
    hs.holds.put p.key _, ?_, ?_⟩
  · rw [hshown]
    rfl
  · rw [hshown]
    rfl
  · rw [OrderedMap.get?_insert, if_pos rfl]
  · by_cases hl : s.engine.kind = .tree → (p.edge props).WithinLimits
    · rw [hshown]
      exact .inl (readsBack_put (if_pos hr) (reread_of_withinLimits hl) options.projection)
    · exact .inr (Classical.not_imp.mp hl)

/-- A value that is set and cleared at once, which leaves an empty map behind. -/
def sampleTrace : Update :=
  let name : PropertyName := ⟨"seen.once", by decide, by decide⟩
  { assign := OrderedMap.ofList [(name, .int 1)], clear := .paths (OrderedSet.ofList [name]) }

set_option maxRecDepth 8000 in
/-- On a tree, where the edge is read from its bytes. -/
theorem own_writes_read_sample :
    let s : Storage := { engine := .tree true, disk := {} }
    let a : NodeId := .ofByte 0xaa
    let p : Pair := ⟨a, a⟩
    let shown : ProjectedEdge :=
      ⟨a, a, some (OrderedMap.ofList [("seen", .map ∅)])⟩
    let options : UpsertOptions := { upsert := true, projection := .all, returnDocument := true }
    s.Reachable ∧ s.engine.running = true ∧
      (s.upsert p.filter sampleTrace options).1 = .ok (some shown) ∧
      (s.upsert p.filter sampleTrace options).2.ReadsBack p .all shown := by
  intro s a p shown options
  have h : s.Reachable := .blank ⟨rfl, rfl, rfl⟩
  have ha : (s.upsert p.filter sampleTrace options).1 = .ok (some shown) := by rfl
  obtain ⟨q, props, edges, hk, -, -, hshown, -, -, hb⟩ := own_writes_read h rfl ha
  obtain rfl : p = q := Pair.key_inj (Option.some.inj hk)
  obtain rfl : shown.props = props := congrArg ProjectedEdge.props hshown
  refine ⟨h, rfl, ha, hb.resolve_right ?_⟩
  rintro ⟨-, hl⟩
  exact hl (by decide)

/-- A tree tells of an edge that it cannot read, and then neither finds it nor hands it back. -/
theorem own_write_unread {slot : Option (Option Properties)} {n : Nat}
    (hr : s.engine.running = true) (ht : s.engine.kind = .tree)
    (hx : s.edge? p.key = .ok (slot.map p.edge)) (hj : slot.join = none)
    (hn : MessagePack.maxDepth < n + 2) (P : Projection) :
    let options : UpsertOptions := { upsert := true, projection := P, returnDocument := true }
    let t := (s.upsert p.filter (.deep n) options).2
    (s.upsert p.filter (.deep n) options).1 = .ok (some (P.apply (p.edge (some (.deep n))))) ∧
      t.find p.filter P = .error (.deserialization none) ∧
      t.upsert p.filter {} options = (.error (.deserialization none), t) := by
  intro options t
  have hu : s.upsert p.filter (.deep n) options = (.ok (some (P.apply (p.edge (some (.deep n))))),
      s.put p.key (p.edge (some (.deep n)))) := upsert_deep (if_pos hr) hx hj rfl n
  have hput : t = s.put p.key (p.edge (some (.deep n))) := congrArg Prod.snd hu
  have hrt : t.engine.running = true := by
    rw [hput]
    exact requireRunning_eq_ok.mp ((requireRunning_put s p.key _).trans (if_pos hr))
  have hs : t.stored? p.key = some (.error (.deserialization none)) :=
    hput ▸ stored?_put_deep ht hn p
  refine ⟨congrArg Prod.fst hu, ?_, upsert_of_unread hrt rfl hs {} options⟩
  rw [find_eq (f := p.filter) rfl, edge?_eq_error.mpr hs]
  exact congrArg (· >>= _) (if_pos hrt)

/-- On a new tree. -/
theorem acknowledged_write_unread :
    let p : Pair := ⟨.ofByte 0xaa, .ofByte 0xbb⟩
    let u : Update := .deep MessagePack.maxDepth
    let options : UpsertOptions := { upsert := true, projection := .all, returnDocument := true }
    let s : Storage := { engine := .tree true, disk := {} }
    let t := (s.upsert p.filter u options).2
    s.Reachable ∧ s.engine.running = true ∧
      (s.upsert p.filter u options).1 =
        .ok (some (p.seen (some (.deep MessagePack.maxDepth)))) ∧
      t.find p.filter .all = .error (.deserialization none) ∧
      t.upsert p.filter {} options = (.error (.deserialization none), t) := by
  intro p u options s t
  have hx : s.edge? p.key = .ok (Option.map p.edge none) := rfl
  exact ⟨.blank ⟨rfl, rfl, rfl⟩, rfl, own_write_unread rfl rfl hx rfl (by decide) .all⟩

end Storage
end PropertyGraph
