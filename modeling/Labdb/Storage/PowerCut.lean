import Labdb.Storage.WalSpec

/-! What a power cut may leave of the log: of each slot and of the header, any
version since the file's last sync, or a mixture that no checksum accepts. -/

namespace Labdb.Storage

open Labdb.Program

/-- A cut leaves one of the versions, or nothing readable where there are two. -/
def Leaves {α : Type} (versions : List (Option α)) (left : Option α) : Prop :=
  left ∈ versions ∨ left = none ∧ ∃ first ∈ versions, ∃ second ∈ versions, first ≠ second

/-- A log that a power cut may leave, each slot and the header for itself. -/
structure Disk.LeavesLog (disk : Disk) (log : LogFile) : Prop where
  header : Leaves disk.headerVersions log.header
  slots : ∀ slot, Leaves (disk.slotVersions slot) (log.slot slot)

/-- Of one generation a slot has had no frame since the log's last sync but the one it holds. -/
def Disk.Sole (disk : Disk) (generation slot : Nat) : Prop :=
  ∀ frame, some frame ∈ disk.slotVersions slot → frame.generation = generation →
    disk.files.log.slot slot = some frame

instance (disk : Disk) (generation slot : Nat) : Decidable (disk.Sole generation slot) :=
  decidable_of_iff
    (∀ content ∈ disk.slotVersions slot, ∀ frame ∈ content, frame.generation = generation →
      disk.files.log.slot slot = some frame)
    ⟨fun sole frame member own => sole _ member frame rfl own, fun sole _ member frame same =>
      sole frame (same ▸ member)⟩

/-- A cut may bring the header back, and before it a commit frame that recovery reaches. -/
def Disk.Revives (disk : Disk) (header : LogHeader) : Prop :=
  some header ∈ disk.headerVersions ∧ ∃ slot frame, some frame ∈ disk.slotVersions slot ∧
    frame.commit = true ∧ Wal.Accepts header.generation header.databaseId (some frame) ∧
    ∀ index < slot, ∃ content ∈ disk.slotVersions index,
      Wal.Accepts header.generation header.databaseId content

/-- The versions of a slot after a frame was written to it or to another one. -/
theorem mem_slotVersions_frame {disk : Disk} {slot other : Nat} {frame : Frame} {content : Slot}
    (member : content ∈
      (Device.perform (FileCall.writeFrame slot frame) disk).slotVersions other) :
    content ∈ disk.slotVersions other ∨ slot = other ∧ content = some frame := by
  by_cases same : slot = other
  · rcases Disk.mem_versions_push rfl member with now | old
    · refine .inr ⟨same, ?_⟩
      rw [now]
      exact (LogFile.slot_place ..).trans (if_pos same)
    · exact .inl old
  · refine .inl (Disk.mem_versions_same ?_ member)
    exact (LogFile.slot_place ..).trans (if_neg same)

section Leaves

variable {α : Type}

/-- Where there is one version, a cut leaves it. -/
theorem Leaves.eq {versions : List (Option α)} {left value : Option α} (leaves : Leaves versions left)
    (single : ∀ version ∈ versions, version = value) : left = value := by
  rcases leaves with member | ⟨_, first, here, second, there, apart⟩
  · exact single left member
  · exact absurd ((single first here).trans (single second there).symm) apart

theorem Leaves.some {versions : List (Option α)} {value : α} (leaves : Leaves versions (some value)) :
    .some value ∈ versions := by
  rcases leaves with member | ⟨impossible, _⟩
  · exact member
  · cases impossible

end Leaves

namespace Wal

/-- The slots of any log up to the first one that the loop does not accept. -/
theorem exists_accepted (generation databaseId : Nat) (frames : List Slot) :
    ∃ count, (∀ index < count, Accepts generation databaseId (frames.getD index none)) ∧
      ¬ Accepts generation databaseId (frames.getD count none) := by
  have some : ∃ count, ¬ Accepts generation databaseId (frames.getD count none) := by
    refine ⟨frames.length, ?_⟩
    rintro ⟨frame, found, _⟩
    simp at found
  classical
  exact ⟨Nat.find some, fun index low => not_not.mp (Nat.find_min some low), Nat.find_spec some⟩

/-- The loop ends at the first slot it does not accept. -/
theorem scan_eq_of_stop {generation databaseId count : Nat} {frames : List Slot}
    (accepted : ∀ index < count, Accepts generation databaseId (frames.getD index none))
    (stop : ¬ Accepts generation databaseId (frames.getD count none)) :
    scanFrom generation databaseId frames 0 {} = scanTo generation databaseId frames count := by
  have whole := scanFrom_append (take_accepted accepted) (frames.drop count) 0 {}
  rw [List.take_append_drop] at whole
  rw [whole]
  cases rest : frames.drop count with
  | nil => rfl
  | cons slot later =>
    have head : frames.getD count none = slot := by
      have found := congrArg List.head? rest
      simp only [List.head?_drop, List.head?_cons] at found
      simp [List.getD_eq_getElem?_getD, found]
    cases slot with
    | none => rfl
    | some frame =>
      rw [head] at stop
      rw [scanFrom, if_neg fun same => stop ⟨frame, rfl, same⟩]
      rfl

/-- What recovery reads is what the loop has committed, whatever is in the log. -/
theorem recover_read (databaseId draw : Nat) (disk : Disk) (id : PageId)
    (own : ∀ header, disk.files.log.header = some header → header.databaseId = databaseId) :
    ∃ wal, (do let _ ← recover; read id).run [] (construct databaseId draw disk.files.log) disk =
      (.returned (disk.files.log.redo id) wal, disk) := by
  have recovered : Prog.wp (fun _ _ => False) (do let _ ← recover; read id)
      (fun page _ disk' => page = disk.files.log.redo id ∧ disk' = disk)
      (fun _ _ _ => False) (fun _ _ => True) (construct databaseId draw disk.files.log) disk := by
    simp only [recover, construct, Prog.wp_bind, Prog.wp_get]
    cases found : disk.files.log.header with
    | none =>
      simp [read, LogFile.redo, LogFile.scan, found]
    | some header =>
      have same := own header found
      subst same
      obtain ⟨count, accepted, stop⟩ := exists_accepted header.generation header.databaseId
        disk.files.log.frames
      have scanned := scan_eq_of_stop accepted stop
      have points := (scanTo_points accepted).committed id
      rw [← scanned] at points
      simp only [↓reduceIte, Prog.wp_bind, Prog.wp_look, Prog.wp_set, Prog.wp_pure, read,
        Prog.wp_get, LogFile.redo, LogFile.scan, found, AList.lookup_empty]
      cases committed : (scanFrom header.generation header.databaseId disk.files.log.frames 0
          {}).committed.lookup id with
      | none => simp
      | some slot =>
        obtain ⟨_, frame, present, _⟩ := points slot committed
        replace present : disk.files.log.slot slot = some frame := present
        simp [wp_readFrame present, LogFile.pageAt, present]
  have ran := Prog.run_of_wp_nil recovered
  generalize (do let _ ← recover; read id).run [] (construct databaseId draw disk.files.log) disk =
    ended at ran ⊢
  rcases ended with ⟨⟨_, wal⟩ | _ | _, _⟩
  · obtain ⟨rfl, rfl⟩ := ran
    exact ⟨wal, rfl⟩
  · exact ran.elim
  · exact ran.elim

/-- Behind the header of another database recovery finds nothing. -/
theorem recover_read_foreign (databaseId draw : Nat) (disk : Disk) (id : PageId)
    {header : LogHeader} (found : disk.files.log.header = some header)
    (foreign : header.databaseId ≠ databaseId) :
    ∃ wal, (do let _ ← recover; read id).run [] (construct databaseId draw disk.files.log) disk =
      (.returned none wal, disk) := by
  have blank : construct databaseId draw disk.files.log = { databaseId, generation := draw } := by
    simp only [construct, found, if_neg foreign]
  rw [blank]
  refine ⟨{ databaseId, generation := draw }, ?_⟩
  refine @Prog.run_eq_of_wp _ _ _ _ _ _ (fun _ _ => False) _ (fun _ _ => True) _ _ _ _ _ ?_
  simp [recover, read]

end Wal

/-- The version of every page, where there is one. -/
abbrev Snapshot := PageId → Option Page

/-- The committed page versions among the first slots of a log. -/
def LogFile.upTo (log : LogFile) (generation databaseId count : Nat) : Snapshot := fun id =>
  ((Wal.scanTo generation databaseId log.frames count).committed.lookup id).bind log.pageAt

theorem LogFile.upTo_congr {log log' : LogFile} {generation databaseId count : Nat}
    (accepted : ∀ index < count, Wal.Accepts generation databaseId (log.slot index))
    (same : ∀ index < count, log'.slot index = log.slot index) :
    log'.upTo generation databaseId count = log.upTo generation databaseId count := by
  have scan := Wal.scanTo_congr accepted fun index low => congrArg Wal.heading (same index low).symm
  have points := Wal.scanTo_points accepted
  funext id
  simp only [upTo]
  rw [scan]
  cases found : (Wal.scanTo generation databaseId log.frames count).committed.lookup id with
  | none => rfl
  | some slot =>
    have low := (points.committed id slot found).1
    have bounded := points.bounded
    simp only [Option.bind_some, pageAt]
    rw [same slot (by omega)]

/-- What a recovery redoes is what the last commit before its stop reads. -/
theorem LogFile.redo_eq_upTo {log : LogFile} {generation databaseId : Nat}
    (header : log.header = some ⟨generation, databaseId⟩) (id : PageId) :
    log.redo id = log.upTo generation databaseId log.scan.commitEnd id := by
  obtain ⟨count, accepted, stop⟩ := Wal.exists_accepted generation databaseId log.frames
  simp only [redo, scan, header, Wal.scan_eq_of_stop accepted stop, upTo,
    (Wal.scanTo_commitEnd accepted).1]

/-- A recovery that commits does so with a frame that follows accepted ones. -/
theorem LogFile.exists_commit {log : LogFile} {generation databaseId : Nat}
    (header : log.header = some ⟨generation, databaseId⟩) (some : log.scan.commitEnd ≠ 0) :
    ∃ slot frame, log.slot slot = .some frame ∧ frame.commit = true ∧
      Wal.Accepts generation databaseId (.some frame) ∧
      ∀ index < slot, Wal.Accepts generation databaseId (log.slot index) := by
  obtain ⟨count, accepted, stop⟩ := Wal.exists_accepted generation databaseId log.frames
  obtain ⟨last, commits⟩ := Nat.exists_eq_succ_of_ne_zero some
  have scanned : log.scan = Wal.scanTo generation databaseId log.frames count := by
    simp only [scan, header, Wal.scan_eq_of_stop accepted stop]
  have bounded := (Wal.scanTo_points accepted).bounded
  rw [scanned] at commits
  obtain ⟨frame, present, commit, _⟩ := Wal.scanTo_commits accepted commits
  exact ⟨last, frame, present, commit, present ▸ accepted last (by omega),
    fun index low => accepted index (by omega)⟩

theorem Disk.LeavesLog.version {disk : Disk} {log : LogFile} (left : disk.LeavesLog log)
    {slot : Nat} {frame : Frame} (present : log.slot slot = some frame) :
    some frame ∈ disk.slotVersions slot :=
  (present ▸ left.slots slot).some

/-- Where no cut revives the header it left, the recovery redoes nothing. -/
theorem Disk.LeavesLog.redo_none {disk : Disk} {log : LogFile} {header : LogHeader}
    (left : disk.LeavesLog log) (found : log.header = some header) (quiet : ¬ disk.Revives header)
    (id : PageId) : log.redo id = none := by
  have none : log.scan.commitEnd = 0 := by
    by_contra commits
    obtain ⟨slot, frame, present, commit, own, accepted⟩ := LogFile.exists_commit found commits
    refine quiet ⟨(found ▸ left.header).some, slot, frame, left.version present, commit, own,
      fun index low => ?_⟩
    obtain ⟨earlier, present, same⟩ := accepted index low
    exact ⟨some earlier, left.version present, earlier, rfl, same⟩
  rw [LogFile.redo_eq_upTo found, none]
  simp [LogFile.upTo, Wal.scanTo, Wal.scanFrom]

theorem LogFile.redo_none {log : LogFile} (missing : log.header = none) (id : PageId) :
    log.redo id = none := by
  simp [redo, scan, missing]

/-- What the log has committed is what its last commit point reads. -/
theorem Wal.Holds.upTo_eq {wal : Wal} {log : LogFile} (holds : wal.Holds log) (id : PageId) :
    log.upTo wal.generation wal.databaseId wal.commitEnd id = log.redo id := by
  rw [holds.redo_eq]
  simp only [LogFile.upTo, holds.scanned]

end Labdb.Storage
