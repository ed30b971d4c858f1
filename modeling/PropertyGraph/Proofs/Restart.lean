import PropertyGraph.Proofs.Engines
import PropertyGraph.Proofs.Uniqueness

/-! Restarts between calls: no answer tells that there have been any. -/
namespace PropertyGraph

variable {settings : Settings} {s : Storage} {edges : Edges}

namespace Settings

/-- Engines that are gone leave their edges for the next one. -/
def isDurable (settings : Settings) : Bool :=
  match settings.engine with
  | .memory => settings.snapshotFile.isSome
  | .tree => true

/-- What is written for a restart can be read again; without a place for it nothing is written. -/
def Storable (settings : Settings) (edges : Edges) : Prop :=
  match settings.engine with
  | .memory => settings.snapshotFile.isSome = true → edges.toMessagePack.WithinLimits
  | .tree => edges.WithinLimits

end Settings

/-- An engine as it was created. -/
def Engine.fresh : Engine → Engine
  | memory _ persistent _ => memory false persistent ∅
  | tree _ => tree false

/-- What is done to a running engine between calls on its edges. -/
inductive Interlude
  | start
  | flush
  /-- A stop, and a start of the same engine. -/
  | restart
  /-- A stop, and a start of another engine in the same place. -/
  | renew

namespace Storage

/-- The next step, unless a fault was met. -/
def andThen (done : Except StoreError Unit × Storage)
    (next : Storage → Except StoreError Unit × Storage) : Except StoreError Unit × Storage :=
  match done.1 with
  | .ok () => next done.2
  | .error fault => (.error fault, done.2)

/-- A start of a new engine on what is on the disk. -/
def startNew (settings : Settings) (s : Storage) : Except StoreError Unit × Storage :=
  match Engine.create settings s.disk with
  | .ok engine => start { s with engine }
  | .error fault => (.error fault, s)

def interlude (settings : Settings) (s : Storage) : Interlude → Except StoreError Unit × Storage
  | .start => s.start
  | .flush => s.flush
  | .restart => andThen s.stop start
  | .renew => andThen s.stop (startNew settings)

end Storage

/-- What happens to an engine: calls on its edges, and interludes. -/
inductive Event
  | call (c : DataCall)
  | interlude (i : Interlude)

def Event.call? : Event → Option DataCall
  | call c => some c
  | interlude _ => none

def StorageAnswer.data? : StorageAnswer → Option DataAnswer
  | data answer => some answer
  | done _ => none

def Storage.event (settings : Settings) (s : Storage) : Event → StorageAnswer × Storage
  | .call c =>
    let (answer, s') := s.data c
    (.data answer, s')
  | .interlude i =>
    let (answer, s') := s.interlude settings i
    (.done answer, s')

namespace Storage

/-- A running engine made after settings, with its edges, on a disk that can be used. -/
structure Runs (s : Storage) (settings : Settings) (edges : Edges) : Prop where
  running : s.engine.running = true
  holds : s.Holds edges
  created : Engine.create settings s.disk = .ok s.engine.fresh
  readable : s.disk.snapshot.readable = true
  writable : s.disk.snapshot.writable = true

/-- A start of a running engine does not look at its snapshot. -/
theorem start_of_running (h : s.engine.running = true) : s.start = (.ok (), s) := by
  obtain ⟨engine, disk⟩ := s
  cases engine with
  | memory running persistent edges =>
    obtain rfl : running = true := h
    rfl
  | tree running =>
    obtain rfl : running = true := h
    rfl

end Storage

theorem Engine.create_memory {disk : Disk} {persistent : Bool}
    (h : Engine.create settings disk = .ok (.memory false persistent ∅)) :
    settings.engine = .memory ∧ persistent = settings.snapshotFile.isSome := by
  rw [create] at h
  split at h
  · next he =>
    cases h
    exact ⟨he, rfl⟩
  · split at h
    · cases h
    · split at h <;> cases h

theorem Engine.create_tree {disk : Disk} (h : Engine.create settings disk = .ok (.tree false)) :
    settings.engine = .tree := by
  rw [create] at h
  split at h
  · cases h
  · next he => exact he

/-- Only whether the place of the tree is taken matters to a new engine. -/
theorem Engine.create_congr {disk disk' : Disk} (h : disk'.treeBlocked = disk.treeBlocked) :
    Engine.create settings disk' = Engine.create settings disk := by
  rw [create, create, h]

namespace Storage

/-- The three ways of keeping edges: not at all, in a snapshot, in a tree. -/
inductive Kept (settings : Settings) (edges : Edges) : Storage → Prop
  | volatile {disk : Disk} (hd : settings.isDurable = false) :
    Kept settings edges ⟨.memory true false edges, disk⟩
  | snapshot {disk : Disk} (hl : settings.Storable edges → edges.toMessagePack.WithinLimits) :
    Kept settings edges ⟨.memory true true edges, disk⟩
  | tree {disk : Disk} (hl : settings.Storable edges → edges.WithinLimits) :
    Kept settings edges ⟨.tree true, disk⟩

theorem Runs.kept (h : s.Runs settings edges) : s.Kept settings edges := by
  obtain ⟨engine, disk⟩ := s
  cases engine with
  | memory running persistent edges₀ =>
    obtain rfl : running = true := h.running
    obtain rfl : edges₀ = edges := h.holds
    obtain ⟨hk, hp⟩ := Engine.create_memory h.created
    cases persistent with
    | true =>
      refine .snapshot fun hl => ?_
      rw [Settings.Storable, hk] at hl
      exact hl hp.symm
    | false =>
      refine .volatile ?_
      rw [Settings.isDurable, hk]
      exact hp.symm
  | tree running =>
    obtain rfl : running = true := h.running
    have hk := Engine.create_tree h.created
    refine .tree fun hl => ?_
    rw [Settings.Storable, hk] at hl
    exact hl

/-- Neither a call nor an interlude changes what an engine is or whether its disk can be used. -/
theorem Runs.of_same {engine engine' : Engine} {disk disk' : Disk} {edges' : Edges}
    (h : Runs ⟨engine, disk⟩ settings edges) (hf : engine'.fresh = engine.fresh)
    (hb : disk'.treeBlocked = disk.treeBlocked)
    (hr : disk'.snapshot.readable = disk.snapshot.readable)
    (hw : disk'.snapshot.writable = disk.snapshot.writable) (hrun : engine'.running = true)
    (hh : Holds ⟨engine', disk'⟩ edges') : Runs ⟨engine', disk'⟩ settings edges' where
  running := hrun
  holds := hh
  created := by
    dsimp only
    rw [Engine.create_congr hb, hf]
    exact h.created
  readable := hr.trans h.readable
  writable := hw.trans h.writable

theorem Runs.saved {disk : Disk} (h : Runs ⟨.memory true true edges, disk⟩ settings edges) :
    Runs ⟨.memory true true edges, { disk with snapshot := (disk.snapshot.save edges).2 }⟩
      settings edges :=
  h.of_same rfl rfl (disk.snapshot.readable_save edges) (disk.snapshot.writable_save edges) rfl rfl

theorem flush_snapshot {disk : Disk} (hw : disk.snapshot.writable = true) :
    flush ⟨.memory true true edges, disk⟩ =
      (.ok (), ⟨.memory true true edges,
        { disk with snapshot := (disk.snapshot.save edges).2 }⟩) := by
  rw [← SnapshotFile.save_eq_ok hw edges]
  rfl

theorem stop_snapshot {disk : Disk} (hw : disk.snapshot.writable = true) :
    stop ⟨.memory true true edges, disk⟩ =
      (.ok (), ⟨.memory false true edges,
        { disk with snapshot := (disk.snapshot.save edges).2 }⟩) := by
  rw [← SnapshotFile.save_eq_ok hw edges]
  rfl

/-- What a stopped engine still had in memory is given up for what its snapshot holds. -/
theorem start_snapshot {disk : Disk} {edges₀ : Edges} (h : disk.snapshot.load = .ok edges) :
    start ⟨.memory false true edges₀, disk⟩ = (.ok (), ⟨.memory true true edges, disk⟩) := by
  simp only [start, h]

theorem startNew_of_created {old engine : Engine} {disk : Disk}
    (h : Engine.create settings disk = .ok engine) :
    startNew settings ⟨old, disk⟩ = start ⟨engine, disk⟩ := by
  simp only [startNew, h]

theorem Runs.interlude (h : s.Runs settings edges) (hl : settings.Storable edges)
    (i : Interlude) (hd : i = .renew → settings.isDurable = true) :
    (s.interlude settings i).1 = .ok () ∧ (s.interlude settings i).2.Runs settings edges := by
  cases i with
  | start =>
    rw [Storage.interlude, start_of_running h.running]
    exact ⟨rfl, h⟩
  | flush =>
    cases h.kept with
    | volatile => exact ⟨rfl, h⟩
    | tree => exact ⟨rfl, h⟩
    | snapshot =>
      rw [Storage.interlude, flush_snapshot h.writable]
      exact ⟨rfl, h.saved⟩
  | restart =>
    cases h.kept with
    | volatile => exact ⟨rfl, h⟩
    | tree => exact ⟨rfl, h⟩
    | snapshot hk =>
      have hload := SnapshotFile.load_save_eq_ok h.writable h.readable (hk hl)
      rw [Storage.interlude, stop_snapshot h.writable, andThen]
      dsimp only
      rw [start_snapshot hload]
      exact ⟨rfl, h.saved⟩
  | renew =>
    cases h.kept with
    | volatile hv =>
      rw [hd rfl] at hv
      cases hv
    | @tree disk =>
      have hn : startNew settings ⟨.tree false, disk⟩ = start ⟨.tree false, disk⟩ :=
        startNew_of_created h.created
      have hi : Storage.interlude settings ⟨.tree true, disk⟩ .renew =
          startNew settings ⟨.tree false, disk⟩ := rfl
      rw [hi, hn]
      exact ⟨rfl, h⟩
    | snapshot hk =>
      have hload := SnapshotFile.load_save_eq_ok h.writable h.readable (hk hl)
      rw [Storage.interlude, stop_snapshot h.writable, andThen]
      dsimp only
      rw [startNew_of_created h.saved.created, Engine.fresh, start_snapshot hload]
      exact ⟨rfl, h.saved⟩

/-- A call on the edges of a running engine leaves everything else as it is. -/
theorem frame_data (h : s.engine.running = true) (c : DataCall) :
    (s.data c).2.engine.fresh = s.engine.fresh ∧
      (s.data c).2.disk.snapshot = s.disk.snapshot ∧
      (s.data c).2.disk.treeBlocked = s.disk.treeBlocked := by
  cases c with
  | find f p => exact ⟨rfl, rfl, rfl⟩
  | count f => exact ⟨rfl, rfl, rfl⟩
  | upsert f u options =>
    obtain ⟨engine, disk⟩ := s
    cases engine with
    | memory running persistent edges =>
      simp only [data, upsert]
      split <;> exact ⟨rfl, rfl, rfl⟩
    | tree running =>
      simp only [data, upsert]
      split <;> exact ⟨rfl, rfl, rfl⟩

theorem Runs.data (h : s.Runs settings edges) (hl : settings.Storable edges) (c : DataCall) :
    (s.data c).1 = (edges.data c).1 ∧ (s.data c).2.Runs settings (edges.data c).2 := by
  have hlim : s.engine.kind = .tree → edges.WithinLimits := by
    intro hk
    cases h.kept with
    | volatile => cases hk
    | snapshot => cases hk
    | tree ht => exact ht hl
  have hs : s.Serves s.engine.kind edges := ⟨rfl, h.running, h.holds⟩
  obtain ⟨ha, hs'⟩ := hs.data hlim c
  obtain ⟨hf, hsnap, hb⟩ := frame_data h.running c
  exact ⟨ha, h.of_same hf hb (by rw [hsnap]) (by rw [hsnap]) hs'.running hs'.holds⟩

/-- With any interludes between them calls are answered as by the edges alone, and no interlude
fails. -/
theorem Runs.events (h : s.Runs settings edges) (events : List Event)
    (hd : .interlude .renew ∈ events → settings.isDurable = true)
    (hl : ∀ before, before <+: events.filterMap Event.call? →
      settings.Storable (runCalls Edges.data edges before).2) :
    (runCalls (event settings) s events).1.filterMap StorageAnswer.data? =
        (runCalls Edges.data edges (events.filterMap Event.call?)).1 ∧
      (∀ answer, .done answer ∈ (runCalls (event settings) s events).1 → answer = .ok ()) ∧
      (runCalls (event settings) s events).2.Runs settings
        (runCalls Edges.data edges (events.filterMap Event.call?)).2 := by
  induction events generalizing s edges with
  | nil => exact ⟨rfl, by simp [runCalls], h⟩
  | cons event events ih =>
    have h₀ : settings.Storable edges := hl [] List.nil_prefix
    cases event with
    | call c =>
      obtain ⟨ha, hr⟩ := h.data h₀ c
      obtain ⟨has, hok, hrs⟩ := ih hr (fun hm => hd (List.mem_cons_of_mem _ hm))
        fun before hb => hl (c :: before) (by simpa [Event.call?] using hb)
      refine ⟨?_, ?_, hrs⟩
      · simp only [runCalls, Storage.event, List.filterMap_cons, StorageAnswer.data?, Event.call?,
          ha, has]
      · intro answer hm
        refine hok answer ?_
        simpa [runCalls, Storage.event] using hm
    | interlude i =>
      obtain ⟨ha, hr⟩ := h.interlude h₀ i fun hi => hd (by simp [hi])
      obtain ⟨has, hok, hrs⟩ := ih hr (fun hm => hd (List.mem_cons_of_mem _ hm)) hl
      refine ⟨has, ?_, hrs⟩
      intro answer hm
      rcases List.mem_cons.mp hm with hm | hm
      · cases hm
        exact ha
      · exact hok answer hm

theorem Runs.calls (h : s.Runs settings edges) (calls : List DataCall)
    (hl : ∀ before, before <+: calls → settings.Storable (runCalls Edges.data edges before).2) :
    (runCalls Storage.data s calls).1 = (runCalls Edges.data edges calls).1 := by
  have hstep : ∀ (s : Storage) (edges : Edges) (c : DataCall), s.Runs settings edges →
      settings.Storable edges → settings.Storable (edges.data c).2 →
      (s.data c).1 = (edges.data c).1 ∧ (s.data c).2.Runs settings (edges.data c).2 :=
    fun s edges c h hl _ => h.data hl c
  exact (runCalls_agree hstep calls h hl).1

/-- Flushes, restarts, new engines in the same place and needless starts can come anywhere between
calls: none of them fails, and every call is answered as without them. A snapshot gives back the
edges it was written from, and a running engine does not even look at its own. -/
theorem restarts_invisible (h : s.Runs settings edges) (events : List Event)
    (durable : .interlude .renew ∈ events → settings.isDurable = true)
    (limits : ∀ before, before <+: events.filterMap Event.call? →
      settings.Storable (runCalls Edges.data edges before).2) :
    (runCalls (event settings) s events).1.filterMap StorageAnswer.data? =
        (runCalls data s (events.filterMap Event.call?)).1 ∧
      (∀ answer, .done answer ∈ (runCalls (event settings) s events).1 → answer = .ok ()) ∧
      (∀ (file : SnapshotFile) (m : Edges), file.writable = true → file.readable = true →
        m.toMessagePack.WithinLimits →
          (file.save m).1 = .ok () ∧ (file.save m).2.load = .ok m) ∧
      ∀ t : Storage, t.engine.running = true → t.start = (.ok (), t) := by
  obtain ⟨ha, hok, -⟩ := h.events events durable limits
  refine ⟨ha.trans (h.calls _ limits).symm, hok, ?_, fun t => start_of_running⟩
  intro file m hw hr hm
  exact ⟨SnapshotFile.save_eq_ok hw m, SnapshotFile.load_save_eq_ok hw hr hm⟩

/-- Interludes of every kind behind each call. -/
def sampleEvents : List Event :=
  sampleCalls.flatMap fun c =>
    [.call c, .interlude .flush, .interlude .restart, .interlude .renew, .interlude .start]

set_option maxRecDepth 4000 in
theorem restarts_invisible_sample :
    let settings : Settings := { snapshotFile := some "edges" }
    let s : Storage :=
      { engine := .memory true true ∅, disk := { snapshot := { contents := some [0xc1] } } }
    s.Runs settings ∅ ∧
      (runCalls (event settings) s sampleEvents).1.filterMap StorageAnswer.data? =
        (runCalls data s (sampleEvents.filterMap Event.call?)).1 ∧
      ∀ answer, .done answer ∈ (runCalls (event settings) s sampleEvents).1 →
        answer = .ok () := by
  intro settings s
  have h : s.Runs settings ∅ := ⟨rfl, rfl, rfl, rfl, rfl⟩
  have hl : ∀ n ≤ 3, (runCalls Edges.data ∅
      ((sampleEvents.filterMap Event.call?).take n)).2.toMessagePack.WithinLimits := by decide
  have limits : ∀ before, before <+: sampleEvents.filterMap Event.call? →
      settings.Storable (runCalls Edges.data ∅ before).2 := by
    intro before hb _
    rw [List.prefix_iff_eq_take.mp hb]
    exact hl _ hb.length_le
  obtain ⟨ha, hok, -⟩ := restarts_invisible h sampleEvents (fun _ => rfl) limits
  exact ⟨h, ha, hok⟩

end Storage
end PropertyGraph
