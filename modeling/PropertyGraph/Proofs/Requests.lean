import PropertyGraph.Proofs.Lifecycle
import PropertyGraph.Proofs.PairCalls
import PropertyGraph.Proofs.ReadModes
import PropertyGraph.Proofs.Search

/-! What any request may do, whether or not a call of a store would make it. -/
namespace PropertyGraph

variable {s : Store} {d : Descriptor} {p : Pair} {key : String} {edges : Edges} {e e' : Edge}
  {conditions : Conditions} {props : Option Properties} {u : Update} {fault : RequestError}

namespace Update

/-- What is cleared is cleared from the edge with everything assigned. -/
theorem apply_of_assign (h : apply { assign := u.assign } e = (.ok (), e')) :
    u.apply e = (.ok (), u.cleared e') := by
  have ha : assigned { assign := u.assign } e = u.assigned e := rfl
  rw [apply, ha] at h
  rw [apply]
  cases hu : u.assigned e with
  | mk answer e₁ =>
    rw [hu] at h
    cases answer with
    | error fault => cases h
    | ok _ =>
      cases h
      rfl

theorem fault_of_assign (h : (apply { assign := u.assign } e).1 = .error fault) :
    (u.apply e).1 = .error fault := by
  have ha : assigned { assign := u.assign } e = u.assigned e := rfl
  rw [apply, ha] at h
  rw [apply]
  cases hu : u.assigned e with
  | mk answer e₁ =>
    rw [hu] at h
    cases answer with
    | error fault => exact h
    | ok _ => cases h

end Update

namespace Descriptor

/-- What a request does not remove of some properties. -/
def remaining (d : Descriptor) (props : Option Properties) : Option Properties :=
  match d.remove with
  | none => props
  | some selected => Selector.clear (some selected) props

/-- What a request makes of the properties of its edge: everything is set before anything is
removed. -/
def content (d : Descriptor) (props : Option Properties) :
    Except RequestError (Option Properties) :=
  (Reference.assign props (d.set.getD ∅).toList).map d.remaining

theorem cleared_edge (d : Descriptor) (p : Pair) (props : Option Properties) :
    d.update.cleared (p.edge props) = p.edge (d.remaining props) := by
  obtain ⟨src, dest, find, get, set, remove⟩ := d
  rcases remove with _ | _ | names <;> rfl

theorem apply_update (d : Descriptor) (p : Pair) (props : Option Properties) :
    match d.content props with
    | .ok props' => d.update.apply (p.edge props) = (.ok (), p.edge props')
    | .error fault => (d.update.apply (p.edge props)).1 = .error fault := by
  have ha := Reference.apply_assign p props (d.set.getD ∅).pairwise_toList
  rw [OrderedMap.ofList_toList] at ha
  rw [content]
  cases hw : Reference.assign props (d.set.getD ∅).toList with
  | ok props' =>
    rw [hw] at ha
    exact (Update.apply_of_assign ha).trans (congrArg (Prod.mk _) (d.cleared_edge p props'))
  | error fault =>
    rw [hw] at ha
    exact Update.fault_of_assign ha

/-- A request stops at a name that it sets and that has no place among the properties. -/
theorem conflict_of_content (p : Pair) (h : d.content props = .error fault) :
    ∃ w ∈ (d.set.getD ∅).toList, fault = .pathConflict w.1.text := by
  have ha := d.apply_update p props
  rw [h] at ha
  obtain ⟨name, m, hstop, rfl, -⟩ := Update.apply_eq_error.mp (Prod.ext ha rfl)
  obtain ⟨before, v, after, hl, -⟩ := hstop
  exact ⟨(name, v), hl ▸ List.mem_append_cons_self, rfl⟩

end Descriptor

theorem Edge.decode_eq_error {bs : List UInt8} {fault : StoreError} (h : decode bs = .error fault) :
    fault = .deserialization none := by
  rw [decode] at h
  split at h
  · cases h
  · cases h
    rfl

theorem EdgeTree.accepted_eq_error {tree : EdgeTree} {f : Filter} {fault : StoreError}
    (h : tree.accepted f = .error fault) :
    ∃ key, (tree.get? key).map Edge.decode = some (.error fault) := by
  rcases bind_eq_error.mp h with h | ⟨_, -, h⟩
  · obtain ⟨before, bytes, after, hl, -, hd⟩ := mapM_eq_error.mp h
    have hm : bytes ∈ tree.values := hl ▸ List.mem_append_cons_self
    obtain ⟨key, hg⟩ := Ascending.get?_of_mem_values hm
    exact ⟨key, Option.map_eq_some_iff.mpr ⟨bytes, hg, hd⟩⟩
  · cases h

namespace Storage
variable {s : Storage} {f : Filter} {P : Projection} {fault : StoreError}

/-- Only bytes can be such that no edge is read from them. -/
theorem stored?_eq_error (h : s.stored? key = some (.error fault)) :
    s.engine.kind = .tree ∧ fault = .deserialization none := by
  obtain ⟨engine, disk⟩ := s
  cases engine with
  | memory running persistent edges =>
    obtain ⟨e, -, he⟩ := Option.map_eq_some_iff.mp h
    cases he
  | tree running =>
    obtain ⟨bytes, -, hd⟩ := Option.map_eq_some_iff.mp h
    exact ⟨rfl, Edge.decode_eq_error hd⟩

theorem Sound.beyond_of_stored? (h : s.Sound edges) (hs : s.stored? key = some (.error fault)) :
    s.engine.kind = .tree ∧ ¬ edges.WithinLimits ∧
      fault = .deserialization none := by
  obtain ⟨hk, hf⟩ := stored?_eq_error hs
  rcases h.reads_or with hr | ⟨-, hl⟩
  · rw [hr key] at hs
    obtain ⟨e, -, he⟩ := Option.map_eq_some_iff.mp hs
    cases he
  · exact ⟨hk, hl, hf⟩

/-- A search fails at an edge that cannot be read. -/
theorem find_eq_error (hr : s.engine.running = true) (h : s.find f P = .error fault) :
    ∃ key, s.stored? key = some (.error fault) := by
  obtain ⟨engine, disk⟩ := s
  cases engine with
  | memory running persistent edges =>
    obtain rfl : running = true := hr
    cases h
  | tree running =>
    obtain rfl : running = true := hr
    change disk.tree.find f P = .error fault at h
    rw [EdgeTree.find] at h
    cases hk : f.uniqueIndex with
    | some key =>
      rw [hk] at h
      rcases bind_eq_error.mp h with h | ⟨_, -, h⟩
      · exact ⟨key, edge?_eq_error.mp ((edge?_tree true disk key).trans h)⟩
      · cases h
    | none =>
      rw [hk] at h
      rcases bind_eq_error.mp h with h | ⟨_, -, h⟩
      · exact EdgeTree.accepted_eq_error h
      · cases h

end Storage

namespace Store

theorem running_run (s : Store) (d : Descriptor) :
    (s.run d).2.storage.engine.running = s.storage.engine.running := by
  rcases s.storage_run d with hs | ⟨p, hs⟩
  · rw [hs]
  · rw [hs]
    exact s.storage.running_data (.upsert p.filter d.update d.writeOptions)

/-- A search changes nothing. With something to set or to remove it is refused, even if that is
empty; otherwise all edges that match are found, or what is asked for of them. -/
structure Searches (s : Store) (d : Descriptor) (conditions : Conditions) : Prop where
  kept : (s.run d).2 = s
  refused : d.set.isSome ∨ d.remove.isSome → (s.run d).1 = .error (.request .updateOnSearch)
  found : d.set = none → d.remove = none → ∀ edges, s.storage.Reads edges →
    let f : Filter := { src := d.src, dest := d.dest, props := conditions.toList }
    (s.run d).1 = .ok (.many ((edges.values.filter f.accepts).map d.projection.apply))

/-- A request for one edge changes nothing under other keys. If there is an edge it is that of the
pair, and it is changed or else a new one; a fault writes nothing. -/
structure Edits (s : Store) (d : Descriptor) (p : Pair) : Prop where
  others : ∀ key, key ≠ p.key → (s.run d).2.storage.stored? key = s.storage.stored? key
  edited : ∀ existing, s.storage.edge? p.key = .ok existing →
    ∃ slot : Option (Option Properties), existing = slot.map p.edge ∧
      s.run d =
        match d.content slot.join with
        | .ok props => (.ok (d.outcome p props), s.place p (some props))
        | .error fault => (.error (.request fault), s)
  unread : ∀ fault, s.storage.edge? p.key = .error fault → s.run d = (.error fault, s)

theorem searches_of_find (h : s.storage.Reachable) (hr : s.storage.engine.running = true)
    (hf : d.find = some conditions) : s.Searches d conditions := by
  have hrun := s.run_of_find hf
  constructor
  · rw [hrun]
    split <;> rfl
  · intro hu
    have hu : (d.set.isSome || d.remove.isSome) = true := (Bool.or_eq_true _ _).mpr hu
    rw [hrun, if_pos hu]
  · intro hs hd edges he f
    obtain ⟨edges₀, hsound⟩ := h.sound
    have hq := he.searched hr (hsound.keyed_of_reads he)
    have hc := (hq.compiled_eq d _ (Descriptor.compile_search hf hs hd) rfl).1 d.projection
    have hn : ¬ (d.set.isSome || d.remove.isSome) = true := by simp [hs, hd]
    rw [hrun, if_neg hn]
    change (s.storage.find (d.searchFilter conditions) d.projection).map Outcome.many = _
    rw [hc, hq.find_eq]
    rfl

theorem run_content (h : s.storage.Reachable) (hr : s.storage.requireRunning = .ok ())
    (hf : d.find = none) (hs : d.src = some p.src) (hd : d.dest = some p.dest)
    {existing : Option Edge} (hx : s.storage.edge? p.key = .ok existing) :
    ∃ slot : Option (Option Properties), existing = slot.map p.edge ∧
      s.run d =
        match d.content slot.join with
        | .ok props => (.ok (d.outcome p props), s.place p (some props))
        | .error fault => (.error (.request fault), s) := by
  obtain ⟨edges, hsound⟩ := h.sound
  obtain ⟨slot, rfl⟩ := hsound.exists_slot hx
  have hu := d.apply_update p slot.join
  refine ⟨slot, rfl, ?_⟩
  cases hc : d.content slot.join with
  | ok props =>
    rw [hc] at hu
    exact run_edit_ok hr hx hs hd hf hu
  | error fault =>
    rw [hc] at hu
    exact run_edit_error hr hx hs hd hf hu

theorem edits_of_single (h : s.storage.Reachable) (hr : s.storage.engine.running = true)
    (hf : d.find = none) (hs : d.src = some p.src) (hd : d.dest = some p.dest) :
    s.Edits d p := by
  have hr' : s.storage.requireRunning = .ok () := Storage.requireRunning_eq_ok.mpr hr
  have hunread : ∀ fault, s.storage.edge? p.key = .error fault →
      s.run d = (.error fault, s) := by
    intro fault hx
    refine run_of_unread ?_ hs hd hf
    rw [hr']
    exact hx
  refine ⟨?_, fun existing => run_content h hr' hf hs hd, hunread⟩
  intro key hk
  cases hx : s.storage.edge? p.key with
  | error fault => rw [hunread fault hx]
  | ok existing =>
    obtain ⟨slot, -, hrun⟩ := run_content h hr' hf hs hd hx
    rw [hrun]
    cases d.content slot.join with
    | error fault => rfl
    | ok props => exact (Storage.stored?_put _ _ _ _).trans (if_neg hk)

theorem Edits.conflict_or_unread (h : s.Edits d p) {fault : StoreError}
    (ha : (s.run d).1 = .error fault) :
    (∃ w ∈ (d.set.getD ∅).toList, fault = .request (.pathConflict w.1.text)) ∨
      ∃ key, s.storage.stored? key = some (.error fault) := by
  cases hx : s.storage.edge? p.key with
  | error unread =>
    rw [h.unread unread hx] at ha
    cases ha
    exact .inr ⟨p.key, Storage.edge?_eq_error.mp hx⟩
  | ok existing =>
    obtain ⟨slot, -, hrun⟩ := h.edited existing hx
    rw [hrun] at ha
    cases hc : d.content slot.join with
    | ok props =>
      rw [hc] at ha
      cases ha
    | error conflict =>
      rw [hc] at ha
      cases ha
      obtain ⟨w, hw, rfl⟩ := Descriptor.conflict_of_content p hc
      exact .inl ⟨w, hw, rfl⟩

/-- A request that was compiled can only fail at a path that it sets and at an edge that it cannot
read. -/
theorem fault_of_compiled (h : s.storage.Reachable) (hr : s.storage.engine.running = true)
    {op : Operation} {fault : StoreError} (hc : d.compile = .ok op)
    (ha : (s.run d).1 = .error fault) :
    (∃ w ∈ (d.set.getD ∅).toList, fault = .request (.pathConflict w.1.text)) ∨
      ∃ key, s.storage.stored? key = some (.error fault) := by
  cases hf : d.find with
  | some conditions =>
    have hu : ¬ (d.set.isSome || d.remove.isSome) = true := by
      intro hu
      simp [Descriptor.compile, hf, Descriptor.search, hu] at hc
    rw [s.run_of_find hf, if_neg hu] at ha
    exact .inr (Storage.find_eq_error hr (map_eq_error.mp ha))
  | none =>
    cases hs : d.src with
    | none => simp [Descriptor.compile, hf, Descriptor.single, hs] at hc
    | some src =>
      cases hd : d.dest with
      | none => simp [Descriptor.compile, hf, Descriptor.single, hs, hd] at hc
      | some dest =>
        have he : s.Edits d ⟨src, dest⟩ := edits_of_single h hr hf hs hd
        exact he.conflict_or_unread ha

/-- What requests of any kind leave behind is a running engine again. -/
theorem reachable_requests (h : s.storage.Reachable) (hr : s.storage.engine.running = true)
    (ds : List Descriptor) :
    (runCalls run s ds).2.storage.Reachable ∧
      (runCalls run s ds).2.storage.engine.running = true := by
  induction ds generalizing s with
  | nil => exact ⟨h, hr⟩
  | cons d ds ih => exact ih (reachable_run h d) ((s.running_run d).trans hr)

/-- After any requests any other one does what it was made for, or fails and writes nothing: a
search never writes, one edge is never written without both endpoints, and then it is the only one
that changes. -/
theorem requests_safe (h : s.storage.Reachable) (hr : s.storage.engine.running = true)
    (ds : List Descriptor) (d : Descriptor) :
    let t := (runCalls run s ds).2
    (match d.find, d.src, d.dest with
      | some conditions, _, _ => t.Searches d conditions
      | none, none, _ => t.run d = (.error (.request (.missingEndpoint .src)), t)
      | none, some _, none => t.run d = (.error (.request (.missingEndpoint .dest)), t)
      | none, some src, some dest => t.Edits d ⟨src, dest⟩) ∧
    ∃ edges, t.storage.Holds edges ∧
      (t.storage.Reads edges ∨ (t.storage.engine.kind = .tree ∧ ¬ edges.WithinLimits)) ∧
      ∀ op fault, d.compile = .ok op → (t.run d).1 = .error fault →
        (∃ w ∈ (d.set.getD ∅).toList, fault = .request (.pathConflict w.1.text)) ∨
          (t.storage.engine.kind = .tree ∧ ¬ edges.WithinLimits ∧
            fault = .deserialization none) := by
  intro t
  obtain ⟨ht, hr⟩ := reachable_requests h hr ds
  constructor
  · cases hf : d.find with
    | some conditions => exact searches_of_find ht hr hf
    | none =>
      cases hs : d.src with
      | none => exact t.run_without_src hf hs
      | some src =>
        cases hd : d.dest with
        | none => exact t.run_without_dest hf hs hd
        | some dest => exact edits_of_single ht hr hf hs hd
  · obtain ⟨edges, hh⟩ := ht.sound
    refine ⟨edges, hh.holds, hh.reads_or, ?_⟩
    intro op fault hc ha
    refine (fault_of_compiled ht hr hc ha).imp_right ?_
    rintro ⟨key, hk⟩
    exact hh.beyond_of_stored? hk

/-- A request that removes what it sets, and wants to see what is left. -/
def sampleRequest : Descriptor :=
  let a : NodeId := .ofByte 0xaa
  let name : PropertyName := ⟨"visited.at", by decide, by decide⟩
  { src := some a, dest := some a, get := some .all
    set := some (OrderedMap.ofList [(name, .int 1)])
    remove := some (.named (OrderedSet.ofList [name])) }

set_option maxRecDepth 8000 in
/-- The edge is made with an empty map in it, and a search that would set nothing is refused. -/
theorem requests_safe_sample :
    let s : Store := { storage := { engine := .tree true, disk := {} } }
    let p : Pair := ⟨.ofByte 0xaa, .ofByte 0xaa⟩
    let props : Option Properties := some (OrderedMap.ofList [("visited", .map ∅)])
    let d : Descriptor := { find := some ∅, set := some ∅ }
    s.storage.Reachable ∧ s.storage.engine.running = true ∧
      s.run sampleRequest = (.ok (.one (some (p.seen props))), s.place p (some props)) ∧
      (s.run sampleRequest).2.run d =
        (.error (.request .updateOnSearch), (s.run sampleRequest).2) := by
  intro s p props d
  have h : s.storage.Reachable := .blank ⟨rfl, rfl, rfl⟩
  have he : s.Edits sampleRequest p := (requests_safe h rfl [] sampleRequest).1
  have hs : (s.run sampleRequest).2.Searches d ∅ := (requests_safe h rfl [sampleRequest] d).1
  obtain ⟨slot, hslot, hrun⟩ := he.edited none rfl
  obtain rfl : slot = none := Option.map_eq_none_iff.mp hslot.symm
  have hc : sampleRequest.content none = .ok props := by rfl
  rw [Option.join_none, hc] at hrun
  exact ⟨h, rfl, hrun, Prod.ext (hs.refused (.inl rfl)) hs.kept⟩

/-- A request to set properties of some depth. -/
def deepRequest (p : Pair) (n : Nat) : Descriptor :=
  { src := some p.src, dest := some p.dest, set := some (Update.deep n).assign }

/-- A tree carries out a request that sets properties nested too deep. Every later one for this edge
fails to read it, and so does a search that goes through all edges. -/
theorem requests_fail {slot : Option (Option Properties)} {n : Nat}
    (hr : s.storage.engine.running = true) (ht : s.storage.engine.kind = .tree)
    (hx : s.storage.edge? p.key = .ok (slot.map p.edge)) (hj : slot.join = none)
    (hn : MessagePack.maxDepth < n + 2) :
    let t := (s.run (deepRequest p n)).2
    (s.run (deepRequest p n)).1 = .ok .nothing ∧
      (∀ d : Descriptor, d.find = none → d.src = some p.src → d.dest = some p.dest →
        t.run d = (.error (.deserialization none), t)) ∧
      ∀ (d : Descriptor) conditions, d.find = some conditions → d.set = none → d.remove = none →
        d.src = none → ∃ fault, t.run d = (.error fault, t) := by
  intro t
  have hr' : s.storage.requireRunning = .ok () := Storage.requireRunning_eq_ok.mpr hr
  have hu : (deepRequest p n).update.apply (p.edge slot.join) =
      (.ok (), p.edge (some (.deep n))) := by
    rw [hj]
    exact Update.apply_deep p n
  have hrun : s.run (deepRequest p n) = (.ok .nothing, s.place p (some (some (.deep n)))) :=
    run_edit_ok hr' hx rfl rfl rfl hu
  have hput : t = s.place p (some (some (.deep n))) := congrArg Prod.snd hrun
  have hs : t.storage.stored? p.key = some (.error (.deserialization none)) :=
    hput ▸ Storage.stored?_put_deep ht hn p
  have hrt : t.storage.requireRunning = .ok () := hput ▸ (requireRunning_place s p _).trans hr'
  refine ⟨congrArg Prod.fst hrun, ?_, ?_⟩
  · intro d hf hsrc hdest
    refine run_of_unread (bind_eq_error.mpr (.inr ⟨(), hrt, ?_⟩)) hsrc hdest hf
    exact Storage.edge?_eq_error.mpr hs
  · intro d conditions hf hset hremove hsrc
    have hk : (d.searchFilter conditions).uniqueIndex = none := by
      rw [Descriptor.searchFilter, hsrc]
    obtain ⟨fault, hfind⟩ := Storage.find_of_unread hs hk d.projection
    refine ⟨fault, ?_⟩
    rw [t.run_of_find hf, hset, hremove, hfind]
    rfl

/-- Both requests that fail are compiled, and neither sets anything. -/
theorem compiled_requests_fail :
    let p : Pair := ⟨.ofByte 0xaa, .ofByte 0xbb⟩
    let s : Store := { storage := { engine := .tree true, disk := {} } }
    let deep := deepRequest p MessagePack.maxDepth
    let t := (s.run deep).2
    let read : Descriptor := { src := some p.src, dest := some p.dest, get := some .all }
    let search : Descriptor := { find := some ∅, get := some .all }
    s.storage.Reachable ∧ s.storage.engine.running = true ∧ (s.run deep).1 = .ok .nothing ∧
      (∃ op, read.compile = .ok op) ∧ (t.run read).1 = .error (.deserialization none) ∧
      (∃ op, search.compile = .ok op) ∧ ∃ fault, (t.run search).1 = .error fault := by
  intro p s deep t read search
  have hx : s.storage.edge? p.key = .ok (Option.map p.edge none) := rfl
  obtain ⟨ha, hread, hsearch⟩ : (s.run deep).1 = .ok .nothing ∧ _ ∧ _ :=
    requests_fail rfl rfl hx rfl (by decide)
  obtain ⟨fault, hf⟩ := hsearch search ∅ rfl rfl rfl rfl
  exact ⟨.blank ⟨rfl, rfl, rfl⟩, rfl, ha, ⟨_, rfl⟩, congrArg Prod.fst (hread read rfl rfl rfl),
    ⟨_, rfl⟩, fault, congrArg Prod.fst hf⟩

end Store
end PropertyGraph
