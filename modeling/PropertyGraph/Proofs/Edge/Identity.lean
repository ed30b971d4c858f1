import PropertyGraph.Proofs.Edge.RoundTrip
import PropertyGraph.Proofs.PairKey
import PropertyGraph.Proofs.Run
import PropertyGraph.Upsert

/-! Endpoints and key of an edge survive updates, and also bytes that cannot be read otherwise. -/
namespace PropertyGraph

variable {e e' : Edge} {existing : Option Edge} {key : String} {f : Filter} {u : Update}
  {options : UpsertOptions}

namespace MessagePack

theorem readMany_append {α : Type} (step : List UInt8 → Option (α × List UInt8)) (m n : Nat)
    (bs : List UInt8) :
    readMany step (m + n) bs = (readMany step m bs).bind fun (xs, rest) =>
      (readMany step n rest).map fun (ys, rest) => (xs ++ ys, rest) := by
  induction m generalizing bs with
  | zero => simp [readMany]
  | succ m ih =>
    rw [Nat.add_right_comm, readMany, readMany]
    cases step bs with
    | none => rfl
    | some next =>
      simp only [Option.bind_eq_bind, Option.bind_some, ih]
      cases readMany step m next.2 <;> simp
      cases readMany step n _ <;> simp

theorem entriesBytes_append (es es' : List (MessagePack × MessagePack)) :
    entriesBytes (es ++ es') = entriesBytes es ++ entriesBytes es' := by
  induction es with
  | nil => rfl
  | cons e es ih => simp [entriesBytes, ih]

end MessagePack

namespace Edge

/-- An edge without its properties. -/
def bare (e : Edge) : Edge := { e with props := none }

/-- What is written of an edge before its properties. -/
def headEntries (e : Edge) : List (MessagePack × MessagePack) :=
  [(.ofText Field.src.name, .bin e.src.bytes), (.ofText Field.dest.name, .bin e.dest.bytes),
    (.ofText Field.uniqueIndex.name, .ofText e.uniqueIndex)]

/-- What stands behind the key can only add the properties, or spoil the whole edge. -/
theorem bare_of_ofMessagePack? {es : List (MessagePack × MessagePack)}
    (h : ofMessagePack? (.map (e.headEntries ++ es)) = some e') : e'.bare = e.bare := by
  have hf : ∀ props, ofFields? (.bin e.src.bytes) (.bin e.dest.bytes) (.ofText e.uniqueIndex) props
      = some e' → e'.bare = e.bare := by
    intro props hp
    simp only [ofFields?, nodeId?_bytes, MessagePack.text?_ofText, Option.bind_eq_bind,
      Option.bind_some, Option.bind_eq_some_iff, Option.some.injEq] at hp
    obtain ⟨m, -, rfl⟩ := hp
    rfl
  obtain ⟨fields, hm, h⟩ := Option.bind_eq_some_iff.mp h
  simp only [headEntries, List.cons_append, List.nil_append, List.mapM_cons, ofKey?_name,
    Option.map_some, Option.bind_eq_bind, Option.bind_some, Option.pure_def,
    Option.bind_eq_some_iff, Option.some.injEq] at hm
  obtain ⟨_, ⟨_, ⟨rest, -, rfl⟩, rfl⟩, rfl⟩ := hm
  simp at h
  split at h
  · next hs hd hk _ =>
    simp only [List.cons.injEq] at hs hd hk
    rw [← hs.1, ← hd.1, ← hk.1] at h
    exact hf _ h
  · next hs hd hk _ =>
    simp only [List.cons.injEq] at hs hd hk
    rw [← hs.1, ← hd.1, ← hk.1] at h
    exact hf _ h
  · cases h

theorem longest_headEntries (h : e.uniqueIndex.utf8ByteSize < 2 ^ 32) :
    MessagePack.entriesLongest e.headEntries < 2 ^ 32 := by
  have hn : ∀ f : Field, f.name.utf8ByteSize < 2 ^ 32 := by
    intro f
    cases f <;> decide
  have hs := hn .src
  have hd := hn .dest
  have hk := hn .uniqueIndex
  have ht : ∀ s, (MessagePack.ofText s).longest = s.utf8ByteSize := by
    intro s
    simp [MessagePack.ofText, MessagePack.longest]
  simp only [headEntries, MessagePack.entriesLongest, ht, MessagePack.longest, e.src.length_eq,
    e.dest.length_eq, Nat.max_lt]
  omega

/-- The entries before the properties are read as they are, whatever stands behind them. -/
theorem readBody_headEntries (h : e.uniqueIndex.utf8ByteSize < 2 ^ 32) (depth n : Nat)
    (bs : List UInt8) :
    MessagePack.readBody (some (MessagePack.readWithin depth)) (.map (3 + n))
        (MessagePack.entriesBytes e.headEntries ++ bs) =
      (MessagePack.readMany (MessagePack.readEntry (MessagePack.readWithin depth)) n bs).map
        fun (es, rest) => (.map (e.headEntries ++ es), rest) := by
  have hr := MessagePack.readMany_entriesBytes e.headEntries (longest_headEntries h) depth bs
  have hd : MessagePack.entriesNesting e.headEntries ≤ depth := Nat.zero_le depth
  rw [if_pos hd] at hr
  have hs := MessagePack.readMany_append (MessagePack.readEntry (MessagePack.readWithin depth)) 3 n
    (MessagePack.entriesBytes e.headEntries ++ bs)
  rw [MessagePack.readBody, hs, show 3 = e.headEntries.length from rfl, hr, Option.bind_some,
    Option.map_map]
  rfl

/-- Whatever is read from the bytes of an edge with a short key has its endpoints and its key. -/
theorem bare_of_decode (h : e.uniqueIndex.utf8ByteSize < 2 ^ 32)
    (hd : decode e.encode = .ok e') : e'.bare = e.bare := by
  let es := (e.props.map fun m =>
    (MessagePack.ofText Field.props.name, (Value.map m).toMessagePack)).toList
  have hn : (e.headEntries ++ es).length = 3 + es.length := List.length_append
  have hes : es.length ≤ 1 := by
    cases hp : e.props <;> simp [es, hp]
  have he : e.encode = MessagePack.mapHeader (3 + es.length)
      ++ (MessagePack.entriesBytes e.headEntries ++ MessagePack.entriesBytes es) := by
    rw [← MessagePack.entriesBytes_append, ← hn]
    rfl
  have hr := MessagePack.Header.read?_mapHeader (by omega : 3 + es.length < 2 ^ 32)
    (MessagePack.entriesBytes e.headEntries ++ MessagePack.entriesBytes es)
  have hs : MessagePack.stepAt MessagePack.maxDepth = some (MessagePack.readWithin 1022) := rfl
  rw [decode, he, MessagePack.read?, MessagePack.readWithin_of_header hr, hs,
    readBody_headEntries h] at hd
  cases hm : MessagePack.readMany (MessagePack.readEntry (MessagePack.readWithin 1022)) es.length
      (MessagePack.entriesBytes es) with
  | none => simp [hm] at hd
  | some read =>
    rw [hm, Option.map_some, Option.bind_some] at hd
    dsimp only at hd
    split at hd
    · next ho =>
      cases hd
      exact bare_of_ofMessagePack? ho
    · cases hd

/-- An edge that is at its place under a key: the key is its own and that of its endpoints. -/
structure KeyedBy (e : Edge) (key : String) : Prop where
  own : e.uniqueIndex = key
  made : key = pairKey e.src e.dest

theorem KeyedBy.of_bare (h : e.KeyedBy key) (hb : e'.bare = e.bare) : e'.KeyedBy key := by
  obtain ⟨src, dest, _, props⟩ := e
  obtain ⟨src', dest', _, props'⟩ := e'
  obtain ⟨rfl, hk⟩ := h
  cases hb
  exact ⟨rfl, hk⟩

/-- Edges at their places have a pair of endpoints of their own. -/
theorem KeyedBy.unique {key' : String} (h : e.KeyedBy key) (h' : e'.KeyedBy key')
    (hs : e.src = e'.src) (hd : e.dest = e'.dest) : key = key' := by
  rw [h.made, h'.made, hs, hd]

theorem KeyedBy.short (h : e.KeyedBy key) : e.uniqueIndex.utf8ByteSize < 2 ^ 32 := by
  rw [h.own, h.made]
  exact utf8ByteSize_pairKey_lt e.src e.dest

end Edge

theorem Filter.seed_keyedBy (hf : f.uniqueIndex = some key) (h : f.seed = .ok e) :
    e.KeyedBy key := by
  simp only [seed, hf] at h
  split at h
  · split at h
    · next hk =>
      cases h
      exact ⟨hk.symm, hk⟩
    · cases h
  · cases h

theorem Update.bare_assigned (u : Update) (e : Edge) : (u.assigned e).2.bare = e.bare := by
  rw [assigned]
  split <;> rfl

theorem Update.bare_cleared (u : Update) (e : Edge) : (u.cleared e).bare = e.bare := by
  rw [cleared]
  split <;> rfl

theorem Update.bare_apply (u : Update) (e : Edge) : (u.apply e).2.bare = e.bare := by
  have ha := u.bare_assigned e
  rw [apply]
  split
  · next e' he =>
    rw [he] at ha
    rw [bare_cleared, ha]
  · next he =>
    rw [he] at ha
    exact ha

/-- What an upsert writes is an edge that was there or is made, after the update. -/
theorem resolveUpsert_some (h : resolveUpsert existing f u options = .ok (some e')) :
    ∃ e, f.target existing options = .ok (some e) ∧ u.apply e = (.ok (), e') := by
  obtain ⟨target, ht, h⟩ := bind_eq_ok.mp h
  cases target with
  | none => cases h
  | some e =>
    dsimp only at h
    split at h
    · next hu =>
      cases h
      exact ⟨e, ht, hu⟩
    · cases h

theorem Filter.target_existing (h : f.target (some e) options = .ok (some e')) : e' = e := by
  rw [target] at h
  split at h
  · cases h
    rfl
  · cases h

theorem Filter.target_keyedBy (hf : f.uniqueIndex = some key)
    (hk : ∀ e, existing = some e → e.KeyedBy key)
    (h : f.target existing options = .ok (some e')) : e'.KeyedBy key := by
  cases existing with
  | none =>
    rw [target] at h
    split at h
    · cases hs : f.seed with
      | error fault => simp [hs, Functor.map, Except.map] at h
      | ok e =>
        simp only [hs, Functor.map, Except.map, Except.ok.injEq, Option.some.injEq] at h
        exact h ▸ seed_keyedBy hf hs
    · cases h
  | some e =>
    rw [target_existing h]
    exact hk e rfl

theorem resolveUpsert_bare (h : resolveUpsert (some e) f u options = .ok (some e')) :
    e'.bare = e.bare := by
  obtain ⟨e₀, ht, hu⟩ := resolveUpsert_some h
  have hb := u.bare_apply e₀
  rw [hu, Filter.target_existing ht] at hb
  exact hb

/-- An upsert under a key writes an edge that has its place there. -/
theorem resolveUpsert_keyedBy (hf : f.uniqueIndex = some key)
    (hk : ∀ e, existing = some e → e.KeyedBy key)
    (h : resolveUpsert existing f u options = .ok (some e')) : e'.KeyedBy key := by
  obtain ⟨e, ht, hu⟩ := resolveUpsert_some h
  have hb := u.bare_apply e
  rw [hu] at hb
  exact (Filter.target_keyedBy hf hk ht).of_bare hb

end PropertyGraph
