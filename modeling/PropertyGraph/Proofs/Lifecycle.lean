import PropertyGraph.Proofs.Rejection
import PropertyGraph.Proofs.Reordering
import PropertyGraph.Proofs.Restart

/-! When an engine is running, and how it refuses calls when it is not. -/
namespace PropertyGraph

variable {s : Storage} {c : StorageCall} {calls : List StorageCall}

def DataAnswer.fault? : DataAnswer → Option StoreError
  | .upserted (.error fault) | .found (.error fault) | .counted (.error fault) => some fault
  | _ => none

def StorageAnswer.fault? : StorageAnswer → Option StoreError
  | .data answer => answer.fault?
  | .done (.error fault) => some fault
  | .done (.ok ()) => none

namespace StorageCall

/-- The calls that an engine has to be running for. -/
def IsWork : StorageCall → Prop
  | data _ | flush => True
  | start | stop => False

/-- An upsert that does not tell the key of its edge. -/
def IsKeyless : StorageCall → Prop
  | data (.upsert f _ _) => f.uniqueIndex = none
  | _ => False

instance (c : StorageCall) : Decidable c.IsKeyless :=
  match c with
  | data (.upsert f _ _) => inferInstanceAs (Decidable (f.uniqueIndex = none))
  | data (.find _ _) | data (.count _) | start | stop | flush => inferInstanceAs (Decidable False)

/-- There is a start among some calls, and no stop behind it. -/
def EndStarted (calls : List StorageCall) : Prop :=
  ∃ before after, calls = before ++ start :: after ∧ stop ∉ after

theorem not_endStarted_nil : ¬ EndStarted [] := by
  rintro ⟨before, after, h, -⟩
  simp at h

theorem endStarted_cons :
    EndStarted (c :: calls) ↔ EndStarted calls ∨ (c = start ∧ stop ∉ calls) := by
  constructor
  · rintro ⟨before, after, h, hs⟩
    cases before with
    | nil =>
      obtain ⟨rfl, rfl⟩ := List.cons.inj h
      exact .inr ⟨rfl, hs⟩
    | cons d before =>
      obtain ⟨rfl, rfl⟩ := List.cons.inj h
      exact .inl ⟨before, after, rfl, hs⟩
  · rintro (⟨before, after, rfl, hs⟩ | ⟨rfl, hs⟩)
    · exact ⟨c :: before, after, rfl, hs⟩
    · exact ⟨[], calls, rfl, hs⟩

end StorageCall

/-- Snapshots can be written, and what stands in the file can be read. -/
structure Disk.Works (disk : Disk) : Prop where
  writable : disk.snapshot.writable = true
  readable : ∃ edges, disk.snapshot.load = .ok edges

namespace Storage

/-- All through a run the disk can be used. -/
def DiskWorks (s : Storage) (calls : List StorageCall) : Prop :=
  ∀ before, before <+: calls → (runCalls call s before).2.disk.Works

theorem requireRunning_of_stopped (h : s.engine.running = false) :
    s.requireRunning = .error s.notRunning := by
  simp [requireRunning, h]

theorem start_of_works (h : s.disk.Works) :
    s.start.1 = .ok () ∧ s.start.2.engine.running = true := by
  obtain ⟨engine, disk⟩ := s
  obtain ⟨edges', hl⟩ := h.readable
  cases engine with
  | tree running => exact ⟨rfl, rfl⟩
  | memory running persistent edges =>
    cases running with
    | true => exact ⟨rfl, rfl⟩
    | false =>
      cases persistent with
      | false => exact ⟨rfl, rfl⟩
      | true =>
        simp only [start, hl]
        exact ⟨trivial, rfl⟩

theorem stop_of_works (h : s.disk.Works) : s.stop.1 = .ok () := by
  obtain ⟨engine, disk⟩ := s
  cases engine with
  | tree running => cases running <;> rfl
  | memory running persistent edges =>
    cases running with
    | false => rfl
    | true =>
      cases persistent with
      | false => rfl
      | true => exact SnapshotFile.save_eq_ok h.writable edges

/-- Also when it could not write its edges an engine does not run any more. -/
theorem running_stop (s : Storage) : s.stop.2.engine.running = false := by
  obtain ⟨engine, disk⟩ := s
  cases engine with
  | tree running => cases running <;> rfl
  | memory running persistent edges => cases running <;> cases persistent <;> rfl

theorem running_flush (s : Storage) : s.flush.2.engine.running = s.engine.running := by
  obtain ⟨engine, disk⟩ := s
  cases engine with
  | tree running => cases running <;> rfl
  | memory running persistent edges => cases running <;> cases persistent <;> rfl

theorem running_data (s : Storage) (c : DataCall) :
    (s.data c).2.engine.running = s.engine.running := by
  cases c with
  | find f p => rfl
  | count f => rfl
  | upsert f u options =>
    obtain ⟨engine, disk⟩ := s
    cases engine with
    | tree running =>
      simp only [data, upsert]
      split <;> rfl
    | memory running persistent edges =>
      simp only [data, upsert]
      split
      · next h =>
        obtain ⟨_, hr, -⟩ := bind_eq_ok.mp h
        exact (requireRunning_eq_ok.mp hr).symm
      · rfl

theorem running_call (h : s.disk.Works) (c : StorageCall) :
    (s.call c).2.engine.running = true ↔
      c = .start ∨ (c ≠ .stop ∧ s.engine.running = true) := by
  cases c with
  | data c => simp [call, running_data]
  | start => simp [call, start_of_works h]
  | stop => simp [call, running_stop]
  | flush => simp [call, running_flush]

theorem DiskWorks.tail (h : s.DiskWorks (c :: calls)) : (s.call c).2.DiskWorks calls := by
  intro before hb
  exact h (c :: before) (List.cons_prefix_cons.mpr ⟨rfl, hb⟩)

theorem DiskWorks.running_iff (h : s.DiskWorks calls) :
    (runCalls call s calls).2.engine.running = true ↔
      StorageCall.EndStarted calls ∨ (s.engine.running = true ∧ .stop ∉ calls) := by
  induction calls generalizing s with
  | nil => simp [runCalls, StorageCall.not_endStarted_nil]
  | cons c calls ih =>
    have hc := running_call (h [] List.nil_prefix) c
    rw [runCalls_cons, ih h.tail, StorageCall.endStarted_cons, List.mem_cons, not_or]
    constructor
    · rintro (he | ⟨hr, hs⟩)
      · exact .inl (.inl he)
      · rcases hc.mp hr with rfl | ⟨hne, hr⟩
        · exact .inl (.inr ⟨rfl, hs⟩)
        · exact .inr ⟨hr, hne.symm, hs⟩
    · rintro ((he | ⟨hst, hs⟩) | ⟨hr, hne, hs⟩)
      · exact .inl he
      · exact .inr ⟨hc.mpr (.inl hst), hs⟩
      · exact .inr ⟨hc.mpr (.inr ⟨Ne.symm hne, hr⟩), hs⟩

/-- The tree looks for the key of an upsert before it asks whether it is running. -/
theorem upsert_of_stopped (h : s.engine.running = false) (f : Filter) (u : Update)
    (options : UpsertOptions) :
    s.upsert f u options =
      (.error (if s.engine.kind = .tree ∧ StorageCall.IsKeyless (.data (.upsert f u options))
        then .invalidData "upsert requires a uniqueIndex condition" else s.notRunning), s) := by
  obtain ⟨engine, disk⟩ := s
  cases engine with
  | memory running persistent edges =>
    obtain rfl : running = false := h
    rfl
  | tree running =>
    obtain rfl : running = false := h
    cases hf : f.uniqueIndex with
    | none =>
      have hk := Filter.upsertKey_eq_error.mpr ⟨hf, rfl⟩
      rw [if_pos ⟨rfl, hf⟩]
      simp only [upsert, hk]
      rfl
    | some key =>
      have hk := Filter.upsertKey_eq_ok.mpr hf
      have hn : ¬ StorageCall.IsKeyless (.data (.upsert f u options)) := by
        simp [StorageCall.IsKeyless, hf]
      rw [if_neg fun h => hn h.2]
      simp only [upsert, hk]
      rfl

theorem find_of_stopped (h : s.engine.running = false) (f : Filter) (p : Projection) :
    s.find f p = .error s.notRunning := by
  rw [find, requireRunning_of_stopped h]
  rfl

theorem count_of_stopped (h : s.engine.running = false) (f : Filter) :
    s.count f = .error s.notRunning := by
  rw [count, requireRunning_of_stopped h]
  rfl

theorem flush_of_stopped (h : s.engine.running = false) :
    s.flush = (.error s.notRunning, s) := by
  rw [flush, requireRunning_of_stopped h]

theorem work_of_stopped (h : s.engine.running = false) (hc : c.IsWork) :
    (s.call c).2 = s ∧ (s.call c).1.fault? =
      some (if s.engine.kind = .tree ∧ c.IsKeyless
        then .invalidData "upsert requires a uniqueIndex condition" else s.notRunning) := by
  cases c with
  | start => cases hc
  | stop => cases hc
  | flush =>
    simp [call, flush_of_stopped h, StorageAnswer.fault?, StorageCall.IsKeyless]
  | data c =>
    cases c with
    | find f p =>
      simp [call, data, find_of_stopped h, StorageAnswer.fault?, DataAnswer.fault?,
        StorageCall.IsKeyless]
    | count f =>
      simp [call, data, count_of_stopped h, StorageAnswer.fault?, DataAnswer.fault?,
        StorageCall.IsKeyless]
    | upsert f u options =>
      simp [call, data, upsert_of_stopped h, StorageAnswer.fault?, DataAnswer.fault?]

theorem stop_of_stopped (h : s.engine.running = false) : s.stop = (.ok (), s) := by
  simp [stop, h]

/-- While the disk can be used an engine runs once it is started and until it is stopped. Another
start or stop changes nothing. Whatever else is asked of a stopped engine is refused and changes
nothing either; for an upsert without a key a tree gives that as the reason. -/
theorem stopped_refuses (hs : s.engine.running = false) (calls : List StorageCall)
    (io : s.DiskWorks calls) :
    let t := (runCalls call s calls).2
    (t.engine.running = true ↔ StorageCall.EndStarted calls) ∧
      (t.call .start).1 = .done (.ok ()) ∧ (t.call .stop).1 = .done (.ok ()) ∧
      (StorageCall.EndStarted calls → (t.call .start).2 = t) ∧
      (¬ StorageCall.EndStarted calls → (t.call .stop).2 = t ∧
        ∀ c, c.IsWork → (t.call c).2 = t ∧ (t.call c).1.fault? =
          some (if t.engine.kind = .tree ∧ c.IsKeyless
            then .invalidData "upsert requires a uniqueIndex condition" else t.notRunning)) := by
  intro t
  have hd : t.disk.Works := io calls List.prefix_rfl
  have hr : t.engine.running = true ↔ StorageCall.EndStarted calls := by
    rw [io.running_iff, hs]
    simp
  refine ⟨hr, ?_, ?_, ?_, ?_⟩
  · exact congrArg StorageAnswer.done (start_of_works hd).1
  · exact congrArg StorageAnswer.done (stop_of_works hd)
  · intro he
    exact congrArg Prod.snd (start_of_running (hr.mpr he))
  · intro he
    have hf : t.engine.running = false := by simpa using fun h => he (hr.mp h)
    exact ⟨congrArg Prod.snd (stop_of_stopped hf), fun c hc => work_of_stopped hf hc⟩

/-- A run at whose end a memory engine is stopped, with an edge in its snapshot. -/
def sampleStop : List StorageCall := [.start, sampleUpsert, .stop]

set_option maxRecDepth 8000 in
theorem stopped_refuses_sample :
    let s : Storage := { engine := .memory false true ∅, disk := {} }
    let t := (runCalls call s sampleStop).2
    s.engine.running = false ∧ s.DiskWorks sampleStop ∧ ¬ StorageCall.EndStarted sampleStop ∧
      (t.call sampleUpsert).2 = t ∧ (t.call sampleUpsert).1.fault? =
        some (.notRunning "InMemory engine has not been started") := by
  intro s t
  have io : s.DiskWorks sampleStop := by
    intro before hb
    have hw : ∀ n ≤ 3, (runCalls call s (sampleStop.take n)).2.disk.Works := by
      intro n hn
      rcases n with _ | _ | _ | _ | n
      · exact ⟨rfl, _, rfl⟩
      · exact ⟨rfl, _, rfl⟩
      · exact ⟨rfl, _, rfl⟩
      · exact ⟨rfl, _, rfl⟩
      · omega
    rw [List.prefix_iff_eq_take.mp hb]
    exact hw _ hb.length_le
  obtain ⟨hr, -, -, -, hf⟩ := stopped_refuses rfl sampleStop io
  have he : ¬ StorageCall.EndStarted sampleStop := fun he => by
    have ht := hr.mpr he
    cases ht
  obtain ⟨-, hw⟩ := hf he
  exact ⟨rfl, io, he, (hw sampleUpsert trivial).1, (hw sampleUpsert trivial).2⟩

/-- Of the two engines only the one in memory says of such an upsert that it is stopped. -/
theorem keyless_not_refused :
    let c : StorageCall := .data (.upsert {} {} {})
    let tree : Storage := { engine := .tree false, disk := {} }
    let memory : Storage := { engine := .memory false true ∅, disk := {} }
    tree.engine.running = false ∧ c.IsWork ∧
      (tree.call c).1.fault? = some (.invalidData "upsert requires a uniqueIndex condition") ∧
      (∀ text, (tree.call c).1.fault? ≠ some (.notRunning text)) ∧
      (memory.call c).1.fault? = some (.notRunning "InMemory engine has not been started") := by
  intro c tree memory
  have hf : (tree.call c).1.fault? =
      some (.invalidData "upsert requires a uniqueIndex condition") := rfl
  refine ⟨rfl, trivial, hf, ?_, rfl⟩
  intro text
  rw [hf]
  simp

end Storage
end PropertyGraph
