import PropertyGraph.Proofs.Lifecycle

/-! What a snapshot keeps of the edges in memory if it cannot be replaced at every attempt. -/
namespace PropertyGraph

/-- What is done to an engine with a snapshot. An attempt to replace the file succeeds, or it fails
and leaves the file as it is. -/
inductive FileCall
  | start
  | stop (written : Bool)
  | flush (written : Bool)
  | upsert (f : Filter) (u : Update) (options : UpsertOptions)

namespace FileCall

def call : FileCall → StorageCall
  | start => .start
  | stop _ => .stop
  | flush _ => .flush
  | upsert f u options => .data (.upsert f u options)

/-- Whether the file can be replaced while the call is made. -/
def canWrite : FileCall → Bool
  | stop written | flush written => written
  | start | upsert .. => true

/-- The upsert that was made by a call, if it was answered with success. -/
def acknowledged? : FileCall → StorageAnswer → Option DataCall
  | upsert f u options, .data (.upserted (.ok _)) => some (.upsert f u options)
  | _, _ => none

end FileCall

section Disk
variable {edges : Edges}

theorem SnapshotFile.readable_of_load {file : SnapshotFile} (h : file.load = .ok edges) :
    file.readable = true := by
  rw [load] at h
  split at h
  · assumption
  · cases h

def Disk.withWritable (disk : Disk) (writable : Bool) : Disk :=
  { disk with snapshot := { disk.snapshot with writable } }

end Disk

/-- An upsert that fails leaves the edges as they are. -/
theorem Edges.data_upsert (edges : Edges) (f : Filter) (u : Update) (options : UpsertOptions) :
    (∃ answer, (edges.data (.upsert f u options)).1 = .upserted (.ok answer)) ∨
      ∃ fault, edges.data (.upsert f u options) = (.upserted (.error fault), edges) := by
  rw [Edges.data]
  cases (do edges.upsert (← f.upsertKey) f u options) with
  | ok next => exact .inl ⟨next.1, rfl⟩
  | error fault => exact .inr ⟨fault, rfl⟩

namespace Storage
variable {s : Storage} {edges base : Edges} {disk : Disk} {c : FileCall} {calls : List FileCall}

def attempt (s : Storage) (c : FileCall) : StorageAnswer × Storage :=
  call { s with disk := s.disk.withWritable c.canWrite } c.call

/-- The upserts of a run that were answered with success. -/
def acknowledged (s : Storage) (calls : List FileCall) : List DataCall :=
  (answered attempt s calls).flatMap fun (c, answer) => (c.acknowledged? answer).toList

/-- The edges as the acknowledged upserts of a run leave them. -/
def left (s : Storage) (base : Edges) (calls : List FileCall) : Edges :=
  (runCalls Edges.data base (s.acknowledged calls)).2

theorem left_cons (s : Storage) (base : Edges) (c : FileCall) (calls : List FileCall) :
    s.left base (c :: calls) = (s.attempt c).2.left (s.left base [c]) calls := by
  have ha : s.acknowledged (c :: calls) =
      s.acknowledged [c] ++ (s.attempt c).2.acknowledged calls := by
    rw [acknowledged, answered_cons, List.flatMap_cons, acknowledged, answered_cons,
      List.flatMap_cons, List.append_assoc]
    rfl
  rw [left, ha, runCalls_append]
  rfl

/-- The edges are in memory while the engine runs, and in the file while it does not. -/
inductive Persists (edges : Edges) : Storage → Prop
  | running {disk : Disk} (hr : disk.snapshot.readable = true) :
    Persists edges ⟨.memory true true edges, disk⟩
  | stopped {held : Edges} {disk : Disk} (hl : disk.snapshot.load = .ok edges) :
    Persists edges ⟨.memory false true held, disk⟩

/-- The engine is stopped all the same, and the file is as it was. -/
theorem stop_unwritten (edges : Edges) (disk : Disk) :
    attempt ⟨.memory true true edges, disk⟩ (.stop false) =
      (.done (.error (.io none)),
        ⟨.memory false true edges, disk.withWritable false⟩) := rfl

theorem stop_written (edges : Edges) (disk : Disk) :
    attempt ⟨.memory true true edges, disk⟩ (.stop true) =
      (.done (.ok ()), ⟨.memory false true edges,
        { disk with snapshot := ((disk.withWritable true).snapshot.save edges).2 }⟩) := rfl

theorem attempt_start_stopped (h : disk.snapshot.load = .ok edges) (held : Edges) :
    attempt ⟨.memory false true held, disk⟩ .start =
      (.done (.ok ()), ⟨.memory true true edges, disk.withWritable true⟩) := by
  have hs : start ⟨.memory false true held, disk.withWritable true⟩ = _ := start_snapshot h
  rw [attempt, FileCall.call, call]
  dsimp only [FileCall.canWrite]
  rw [hs]

theorem attempt_upsert_running (edges : Edges) (disk : Disk) (f : Filter) (u : Update)
    (options : UpsertOptions) :
    attempt ⟨.memory true true edges, disk⟩ (.upsert f u options) =
      (.data (edges.data (.upsert f u options)).1,
        ⟨.memory true true (edges.data (.upsert f u options)).2, disk.withWritable true⟩) := by
  have hd := data_memory true edges (disk.withWritable true) (.upsert f u options)
  rw [attempt, FileCall.call, call]
  dsimp only [FileCall.canWrite]
  rw [hd]

theorem Persists.start (h : Persists edges s) : Persists edges (s.attempt .start).2 := by
  cases h with
  | running hr => exact .running hr
  | @stopped held disk hl =>
    rw [attempt_start_stopped hl]
    exact .running (SnapshotFile.readable_of_load hl)

theorem Persists.stop {written : Bool} (h : Persists edges s)
    (hl : edges.toMessagePack.WithinLimits)
    (ha : ∀ fault, (s.attempt (.stop written)).1 ≠ .done (.error fault)) :
    Persists edges (s.attempt (.stop written)).2 := by
  cases h with
  | stopped hload => exact .stopped hload
  | @running disk hr =>
    cases written with
    | false => exact absurd (congrArg Prod.fst (stop_unwritten edges disk)) (ha _)
    | true =>
      rw [stop_written]
      exact .stopped (SnapshotFile.load_save_eq_ok rfl hr hl)

theorem Persists.flush (h : Persists edges s) (written : Bool) :
    Persists edges (s.attempt (.flush written)).2 := by
  cases h with
  | stopped hl => exact .stopped hl
  | running hr => cases written <;> exact .running hr

/-- An upsert that is answered with success is one that the edges answer so. -/
theorem Persists.upsert (h : Persists edges s) (f : Filter) (u : Update)
    (options : UpsertOptions) :
    Persists (s.left edges [.upsert f u options]) (s.attempt (.upsert f u options)).2 := by
  cases h with
  | stopped hl => exact .stopped hl
  | @running disk hr =>
    have ha := attempt_upsert_running edges disk f u options
    have hl : left ⟨.memory true true edges, disk⟩ edges [.upsert f u options] =
        (edges.data (.upsert f u options)).2 := by
      rw [left, acknowledged, answered_cons, ha]
      rcases edges.data_upsert f u options with ⟨answer, hd⟩ | ⟨fault, hd⟩
      · rw [hd]
        rfl
      · rw [hd]
        rfl
    rw [hl, ha]
    exact .running hr

/-- What one call preserves, unless it is a stop that fails. -/
theorem Persists.attempt (h : Persists edges s) (hl : edges.toMessagePack.WithinLimits)
    (c : FileCall) (hs : ∀ written fault, c = .stop written →
      (s.attempt c).1 ≠ .done (.error fault)) :
    Persists (s.left edges [c]) (s.attempt c).2 := by
  cases c with
  | start => exact h.start
  | stop written => exact h.stop hl fun fault => hs written fault rfl
  | flush written => exact h.flush written
  | upsert f u options => exact h.upsert f u options

/-- No stop of a run is answered with a fault. -/
def StopsSucceed (s : Storage) (calls : List FileCall) : Prop :=
  ∀ written fault, (.stop written, .done (.error fault)) ∉ answered attempt s calls

theorem StopsSucceed.head (h : s.StopsSucceed (c :: calls)) {written : Bool} {fault : StoreError}
    (hc : c = .stop written) : (s.attempt c).1 ≠ .done (.error fault) := by
  intro ha
  refine h written fault ?_
  rw [answered_cons, ha, hc]
  exact List.mem_cons_self

theorem StopsSucceed.tail (h : s.StopsSucceed (c :: calls)) :
    (s.attempt c).2.StopsSucceed calls :=
  fun written fault ha => h written fault (List.mem_cons_of_mem _ ha)

theorem Persists.run (h : Persists base s)
    (hl : ∀ before, before <+: calls → (s.left base before).toMessagePack.WithinLimits)
    (hs : s.StopsSucceed calls) :
    Persists (s.left base calls) (runCalls Storage.attempt s calls).2 := by
  induction calls generalizing s base with
  | nil => exact h
  | cons c calls ih =>
    have h₁ := h.attempt (hl [] List.nil_prefix) c fun _ _ => hs.head
    rw [left_cons, runCalls_cons]
    refine ih h₁ ?_ hs.tail
    intro before hb
    rw [← left_cons]
    exact hl (c :: before) (List.cons_prefix_cons.mpr ⟨rfl, hb⟩)

theorem Persists.holds (h : Persists edges s) (hr : s.engine.running = true) : s.Holds edges := by
  cases h with
  | running => rfl
  | stopped => cases hr

theorem Persists.load (h : Persists edges s) (hr : s.engine.running = false) :
    s.disk.snapshot.load = .ok edges := by
  cases h with
  | running => cases hr
  | stopped hl => exact hl

theorem Persists.start_ok (h : Persists edges s) :
    (s.attempt .start).1 = .done (.ok ()) ∧ (s.attempt .start).2.Holds edges := by
  cases h with
  | running => exact ⟨rfl, rfl⟩
  | stopped hl =>
    rw [attempt_start_stopped hl]
    exact ⟨rfl, rfl⟩

/-- A stop that is answered with success has written what the engine holds; one that fails leaves
the file as it was. -/
theorem file_of_stop (hr : disk.snapshot.readable = true) (hl : edges.toMessagePack.WithinLimits)
    (written : Bool) :
    let stopped := attempt ⟨.memory true true edges, disk⟩ (.stop written)
    (stopped.1 = .done (.ok ()) ∧ stopped.2.disk.snapshot.load = .ok edges) ∨
      ((∃ fault, stopped.1 = .done (.error fault)) ∧
        stopped.2.disk.snapshot.load = disk.snapshot.load) := by
  intro stopped
  cases written with
  | false => exact .inr ⟨⟨_, rfl⟩, rfl⟩
  | true =>
    have hload : ((disk.withWritable true).snapshot.save edges).2.load = .ok edges :=
      SnapshotFile.load_save_eq_ok rfl hr hl
    exact .inl ⟨rfl, hload⟩

/-- As long as no stop fails the edges are as the acknowledged upserts leave them, whatever flushes
fail: in memory while the engine runs, in the file while it does not, and no start goes back behind
them. The run may begin at any moment at which the engine is stopped and its file can be read.
A stop of a running engine fails if it could not write, and then the file is as it was. -/
theorem stops_persist {held : Edges} (hb : disk.snapshot.load = .ok base) {calls : List FileCall}
    (stops : StopsSucceed ⟨.memory false true held, disk⟩ calls)
    (limits : ∀ before, before <+: calls →
      (left ⟨.memory false true held, disk⟩ base before).toMessagePack.WithinLimits) :
    let s : Storage := ⟨.memory false true held, disk⟩
    let t := (runCalls attempt s calls).2
    (t.engine.running = true → t.Holds (s.left base calls)) ∧
      (t.engine.running = false → t.disk.snapshot.load = .ok (s.left base calls)) ∧
      (t.attempt .start).1 = .done (.ok ()) ∧ (t.attempt .start).2.Holds (s.left base calls) ∧
      ∀ edges disk written, disk.snapshot.readable = true → edges.toMessagePack.WithinLimits →
        let stopped := attempt ⟨.memory true true edges, disk⟩ (.stop written)
        (stopped.1 = .done (.ok ()) ∧ stopped.2.disk.snapshot.load = .ok edges) ∨
          ((∃ fault, stopped.1 = .done (.error fault)) ∧
            stopped.2.disk.snapshot.load = disk.snapshot.load) := by
  intro s t
  have h₀ : Persists base s := .stopped hb
  have h : Persists (s.left base calls) t := h₀.run limits stops
  refine ⟨h.holds, h.load, h.start_ok.1, h.start_ok.2, ?_⟩
  intro edges disk written hr hl
  exact file_of_stop hr hl written

/-- An edge that is made while the engine runs. -/
def sampleMake : FileCall :=
  let a : NodeId := .ofByte 0xaa
  .upsert { src := some a, dest := some a, uniqueIndex := some (pairKey a a) } {}
    { upsert := true }

/-- A flush that fails, a stop that does not, and another start. -/
def sampleAttempts : List FileCall := [.start, sampleMake, .flush false, .stop true, .start]

set_option maxRecDepth 8000 in
theorem stops_persist_sample :
    let s : Storage := ⟨.memory false true ∅, {}⟩
    let t := (runCalls attempt s sampleAttempts).2
    s.disk.snapshot.load = .ok ∅ ∧ s.StopsSucceed sampleAttempts ∧
      t.engine.running = true ∧ t.Holds (s.left ∅ sampleAttempts) ∧
      (s.left ∅ sampleAttempts).values.length = 1 := by
  intro s t
  have hb : s.disk.snapshot.load = .ok ∅ := rfl
  have stops : s.StopsSucceed sampleAttempts := by
    intro written fault ha
    have ha' : (FileCall.stop written, StorageAnswer.done (.error fault)) ∈
        [(FileCall.start, StorageAnswer.done (.ok ())), (sampleMake, .data (.upserted (.ok none))),
          (.flush false, .done (.error (.io none))),
          (.stop true, .done (.ok ())), (.start, .done (.ok ()))] := ha
    simp [sampleMake] at ha'
  have hl : ∀ n ≤ 5, (s.left ∅ (sampleAttempts.take n)).toMessagePack.WithinLimits := by decide
  have limits : ∀ before, before <+: sampleAttempts →
      (s.left ∅ before).toMessagePack.WithinLimits := by
    intro before hp
    rw [List.prefix_iff_eq_take.mp hp]
    exact hl _ hp.length_le
  obtain ⟨hh, -⟩ := stops_persist hb stops limits
  exact ⟨hb, stops, rfl, hh rfl, by decide⟩

/-- The second stop says that all is well, although the file is without the edge, and the next start
takes the edge from the engine too. -/
theorem stop_loses_edge :
    let s : Storage := ⟨.memory false true ∅, {}⟩
    let calls : List FileCall := [.start, sampleMake, .stop false, .stop true]
    let t := (runCalls attempt s calls).2
    (runCalls attempt s calls).1 = [.done (.ok ()), .data (.upserted (.ok none)),
        .done (.error (.io none)), .done (.ok ())] ∧
      (s.left ∅ calls).values.length = 1 ∧ t.disk.snapshot.load = .ok ∅ ∧
      (t.attempt .start).1 = .done (.ok ()) ∧ (t.attempt .start).2.Holds ∅ := by
  intro s calls t
  exact ⟨rfl, by decide, rfl, rfl, rfl⟩

end Storage
end PropertyGraph
