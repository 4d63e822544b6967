import Labdb.Storage.PowerCut

/-! What a power cut may leave of both files, and what the versions of their parts
must be for a recovery to restore nothing older than the last commit. -/

namespace Labdb.Storage

open Labdb.Program

/-- The log as of its last sync, in a trace whose newest call comes first. -/
def durableLogIn (base : Files) : List Event → LogFile
  | [] => base.log
  | ⟨.syncLog, true⟩ :: older => (older.foldr Event.effect base).log
  | _ :: older => durableLogIn base older

def Disk.durableLog (disk : Disk) : LogFile := durableLogIn disk.base disk.trace

theorem durableLog_perform {disk : Disk} {request : FileCall} (other : request ≠ .syncLog) :
    (Device.perform request disk).durableLog = disk.durableLog := by
  cases request <;> first | rfl | exact absurd rfl other

/-- The version of a page that a recovery of these files restores. -/
def Files.version (files : Files) (id : PageId) : Page :=
  (files.log.redo id).getD (files.page id)

/-- Files that a power cut may leave: each part for itself. -/
structure Disk.Leaves (disk : Disk) (files : Files) : Prop where
  log : disk.LeavesLog files.log
  pages : ∀ id, files.page id ∈ disk.pageVersions id

/-- Under the header of another generation a cut redoes pages that are committed. The durable
slots commit them up to some slot; wherever a slot may come back as something else, the header's
commits end before it with such pages, or it holds a plain frame behind them. -/
structure Superseded (committed : PageId → Page) (header : LogHeader) (disk : Disk) : Prop where
  covers : ∃ oldEnd,
    (∀ slot < oldEnd,
      Wal.Accepts header.generation header.databaseId (disk.durableLog.slot slot)) ∧
    (∀ id page,
      disk.durableLog.upTo header.generation header.databaseId oldEnd id = some page →
        page = committed id) ∧
    (∀ slot frame, oldEnd ≤ slot → disk.durableLog.slot slot = some frame →
      frame.generation = header.generation → frame.commit = false) ∧
    ∀ slot, ∀ content ∈ disk.slotVersions slot, content = disk.durableLog.slot slot ∨
      (∀ frame ∈ content, frame.generation ≠ header.generation) ∧ (∀ id page,
        disk.durableLog.upTo header.generation header.databaseId slot id = some page →
          page = committed id) ∨
      oldEnd ≤ slot ∧ ∀ frame ∈ content, frame.generation = header.generation ∧
        frame.commit = false

/-- The log's generation is `generation`, its commits up to `commitEnd` are durable,
and no part of either file has a version that could bring back an older page. -/
structure Sealed (committed : PageId → Page) (databaseId generation commitEnd : Nat)
    (disk : Disk) : Prop where
  named : ∀ page ∈ disk.pageVersions 0, ∃ fields, page.body = .record fields databaseId
  header : disk.files.log.header = some ⟨generation, databaseId⟩ ∨
    disk.files.log = {} ∧ commitEnd = 0
  first : commitEnd ≠ 0 →
    ∀ header ∈ disk.headerVersions, header = some ⟨generation, databaseId⟩
  headers : ∀ header, some header ∈ disk.headerVersions → header ≠ ⟨generation, databaseId⟩ →
    header.databaseId = databaseId ∧ Superseded committed header disk
  slots : ∀ slot frame, some frame ∈ disk.slotVersions slot →
    disk.durableLog.slot slot = some frame ∨ (slot, frame) ∈ disk.recent
  kept : ∀ slot < commitEnd, ∀ content ∈ disk.slotVersions slot,
    content = disk.durableLog.slot slot
  accepted : ∀ slot < commitEnd, Wal.Accepts generation databaseId (disk.durableLog.slot slot)
  ended : (Wal.scanTo generation databaseId disk.durableLog.frames commitEnd).commitEnd =
    commitEnd
  quiet : ∀ slot frame, commitEnd ≤ slot → disk.durableLog.slot slot = some frame →
    frame.generation = generation → frame.commit = false
  later : ∀ entry ∈ disk.recent, commitEnd ≤ entry.1
  closed : ∀ slot frame, (slot, frame) ∈ disk.recent → frame.generation = generation →
    frame.commit = true → disk.files.log.slot slot = some frame ∧
      disk.files.log.scan.commitEnd = slot + 1 ∧
      ∀ index, commitEnd ≤ index → index < slot → disk.Sole generation index
  reads : ∀ id,
    (disk.durableLog.upTo generation databaseId commitEnd id).getD (disk.files.page id) =
      committed id
  pages : ∀ id, disk.durableLog.upTo generation databaseId commitEnd id = none →
    ∀ page ∈ disk.pageVersions id, page = disk.files.page id

namespace Wal

/-- Behind a commit point the loop only adds: a page it has committed either keeps
its slot from before that point or has one behind it. -/
theorem scanTo_later {generation databaseId start count : Nat} {frames : List Slot}
    (beyond : start ≤ count)
    (accepted : ∀ index < count, Accepts generation databaseId (frames.getD index none))
    (ended : (scanTo generation databaseId frames start).commitEnd = start) (id : PageId) :
    ((scanTo generation databaseId frames count).committed.lookup id =
        (scanTo generation databaseId frames start).committed.lookup id ∨
      ∃ slot, (scanTo generation databaseId frames count).committed.lookup id = some slot ∧
        start ≤ slot) ∧
    ∀ slot, (scanTo generation databaseId frames count).pending.lookup id = some slot →
      start ≤ slot := by
  obtain ⟨extra, rfl⟩ := Nat.exists_eq_add_of_le beyond
  clear beyond
  induction extra with
  | zero =>
    refine ⟨.inl rfl, fun slot found => ?_⟩
    have cut := (scanTo_commitEnd accepted).2.2
    simp only [Nat.add_zero, ended] at cut found
    simp [cut] at found
  | succ extra ih =>
    obtain ⟨frame, found, same⟩ := accepted (start + extra) (by omega)
    obtain ⟨committed, pending⟩ := ih fun index bound => accepted index (by omega)
    have step := scanTo_succ (fun index bound => accepted index (by omega)) found same
    rw [← Nat.add_assoc, step]
    have inserted : ∀ slot,
        ((scanTo generation databaseId frames (start + extra)).pending.insert frame.id
          (start + extra)).lookup id = some slot → start ≤ slot := by
      intro slot present
      by_cases own : id = frame.id
      · subst id
        rw [AList.lookup_insert] at present
        cases present
        omega
      · rw [AList.lookup_insert_ne own] at present
        exact pending slot present
    unfold Scan.accept
    split
    · refine ⟨?_, by simp⟩
      rw [lookup_union_eq]
      cases fresh : ((scanTo generation databaseId frames (start + extra)).pending.insert
          frame.id (start + extra)).lookup id with
      | some slot => exact .inr ⟨slot, rfl, inserted slot fresh⟩
      | none => simpa using committed
    · exact ⟨committed, inserted⟩

end Wal

section Cut

variable {committed : PageId → Page} {databaseId generation commitEnd : Nat} {disk : Disk}

theorem Sealed.formatted (safe : Sealed committed databaseId generation commitEnd disk) :
    ∃ fields, (disk.files.page 0).body = .record fields databaseId :=
  safe.named _ Disk.current_mem_versions

/-- What is restored where the log redoes nothing of a page. -/
theorem Sealed.unlogged (safe : Sealed committed databaseId generation commitEnd disk)
    {files : Files} (left : disk.Leaves files) {id : PageId}
    (none : disk.durableLog.upTo generation databaseId commitEnd id = none) :
    files.page id = committed id := by
  have reads := safe.reads id
  rw [none, Option.getD_none] at reads
  exact (safe.pages id none _ (left.pages id)).trans reads

theorem LogFile.upTo_zero (log : LogFile) (generation databaseId : Nat) (id : PageId) :
    log.upTo generation databaseId 0 id = none := by
  simp [upTo, Wal.scanTo, Wal.scanFrom]

/-- Where the log as it stands redoes nothing of a page, neither do its durable commits. -/
theorem LogFile.upTo_none {log : LogFile}
    (header : log.header = some ⟨generation, databaseId⟩)
    (accepted : ∀ slot < commitEnd, Wal.Accepts generation databaseId (log.slot slot))
    (ended : (Wal.scanTo generation databaseId log.frames commitEnd).commitEnd = commitEnd)
    {id : PageId} (absent : log.redo id = none) :
    log.upTo generation databaseId commitEnd id = none := by
  obtain ⟨count, accepted', stop⟩ := Wal.exists_accepted generation databaseId log.frames
  have beyond : commitEnd ≤ count := by
    by_contra short
    exact stop (accepted count (by omega))
  simp only [redo, scan, header, Wal.scan_eq_of_stop accepted' stop] at absent
  obtain ⟨same | ⟨slot, found, _⟩, _⟩ := Wal.scanTo_later beyond accepted' ended id
  · rw [upTo, ← same]
    exact absent
  · obtain ⟨_, frame, present, _⟩ := (Wal.scanTo_points accepted').committed id slot found
    rw [found, Option.bind_some, pageAt, LogFile.slot, present] at absent
    cases absent

/-- The header of the log, where there is a frame in it. -/
theorem Sealed.headed (safe : Sealed committed databaseId generation commitEnd disk)
    {slot : Nat} {frame : Frame} (present : disk.files.log.slot slot = some frame) :
    disk.files.log.header = some ⟨generation, databaseId⟩ := by
  rcases safe.header with own | ⟨blank, _⟩
  · exact own
  · simp [blank, LogFile.slot] at present

theorem Sealed.slot_files (safe : Sealed committed databaseId generation commitEnd disk)
    {slot : Nat} (low : slot < commitEnd) :
    disk.files.log.slot slot = disk.durableLog.slot slot :=
  safe.kept slot low _ Disk.current_mem_versions

/-- The durable commits are the first ones of the log as it stands. -/
theorem Sealed.accepted_files (safe : Sealed committed databaseId generation commitEnd disk) :
    (∀ slot < commitEnd, Wal.Accepts generation databaseId (disk.files.log.slot slot)) ∧
      (Wal.scanTo generation databaseId disk.files.log.frames commitEnd).commitEnd = commitEnd ∧
      disk.files.log.upTo generation databaseId commitEnd =
        disk.durableLog.upTo generation databaseId commitEnd := by
  have kept : ∀ slot < commitEnd, disk.files.log.slot slot = disk.durableLog.slot slot :=
    fun slot low => safe.slot_files low
  refine ⟨fun slot low => ?_, ?_, LogFile.upTo_congr safe.accepted kept⟩
  · rw [kept slot low]
    exact safe.accepted slot low
  · rw [Wal.scanTo_congr safe.accepted fun slot low => congrArg Wal.heading (kept slot low).symm]
    exact safe.ended

/-- Under the current header a recovery restores the version committed last of every page, or
of every page the one that the last commit frame commits. -/
theorem Sealed.cut_current (safe : Sealed committed databaseId generation commitEnd disk)
    {files : Files} (left : disk.Leaves files)
    (header : files.log.header = some ⟨generation, databaseId⟩) :
    (∀ id, files.version id = committed id) ∨ ∀ id, files.version id = disk.files.version id := by
  have kept : ∀ slot < commitEnd, files.log.slot slot = disk.durableLog.slot slot :=
    fun slot low => (left.log.slots slot).eq (safe.kept slot low)
  have durable : ∀ slot < commitEnd, Wal.Accepts generation databaseId (files.log.slot slot) := by
    intro slot low
    rw [kept slot low]
    exact safe.accepted slot low
  have scans := Wal.scanTo_congr safe.accepted fun slot low =>
    congrArg Wal.heading (kept slot low).symm
  have same := LogFile.upTo_congr safe.accepted kept
  have ended := safe.ended
  rw [← scans] at ended
  obtain ⟨count, accepted, stop⟩ :=
    Wal.exists_accepted generation databaseId files.log.frames
  have beyond : commitEnd ≤ count := by
    by_contra short
    exact stop (durable count (by omega))
  have scanned : files.log.scan = Wal.scanTo generation databaseId files.log.frames count := by
    simp only [LogFile.scan, header, Wal.scan_eq_of_stop accepted stop]
  have points := Wal.scanTo_points accepted
  rw [← scanned] at points
  by_cases short : files.log.scan.commitEnd ≤ commitEnd
  · -- the cut left no commit frame behind the durable commits
    refine .inl fun id => ?_
    have redone : files.log.redo id =
        disk.durableLog.upTo generation databaseId commitEnd id := by
      obtain ⟨older | ⟨slot, found, behind⟩, _⟩ := Wal.scanTo_later beyond accepted ended id
      · rw [LogFile.redo, scanned, older]
        exact congrFun same id
      · rw [← scanned] at found
        have low := (points.committed id slot found).1
        omega
    rw [Files.version, redone]
    cases logged : disk.durableLog.upTo generation databaseId commitEnd id with
    | none => exact safe.unlogged left logged
    | some page =>
      have reads := safe.reads id
      rwa [logged] at reads
  · -- it left the one that is not synced, and before it every frame as it stands
    obtain ⟨last, closing⟩ := Nat.exists_eq_succ_of_ne_zero
      (Nat.ne_of_gt (Nat.zero_lt_of_lt (Nat.lt_of_not_le short)))
    have bounded := points.bounded
    obtain ⟨end_, closes, commit, own, _⟩ :=
      Wal.scanTo_commits accepted (scanned ▸ closing)
    have recent : (last, end_) ∈ disk.recent := by
      rcases safe.slots last end_ (left.log.version closes) with durable | recent
      · have plain := safe.quiet last end_ (by omega) durable own
        rw [plain] at commit
        cases commit
      · exact recent
    obtain ⟨present, scannedEnd, sole⟩ := safe.closed last end_ recent own commit
    have stands : ∀ slot < last + 1, disk.files.log.slot slot = files.log.slot slot := by
      intro slot low
      rcases Nat.lt_succ_iff_lt_or_eq.mp low with before | rfl
      · by_cases early : slot < commitEnd
        · rw [kept slot early]
          exact safe.slot_files early
        · obtain ⟨frame, found, matching, _⟩ := accepted slot (by omega)
          have version := left.log.version found
          exact (sole slot (by omega) before frame version matching).trans found.symm
      · exact present.trans closes.symm
    have headed := safe.headed present
    have redone : ∀ id, files.log.redo id = disk.files.log.redo id := by
      intro id
      rw [LogFile.redo_eq_upTo header, LogFile.redo_eq_upTo headed, scannedEnd, closing]
      exact (congrFun (LogFile.upTo_congr (fun slot low => accepted slot (by omega)) stands) id).symm
    refine .inr fun id => ?_
    rw [Files.version, Files.version, redone]
    cases logged : disk.files.log.redo id with
    | some page => rfl
    | none =>
      obtain ⟨first, ended, upTo⟩ := safe.accepted_files
      have unlogged := LogFile.upTo_none headed first ended logged
      rw [upTo] at unlogged
      exact safe.pages id unlogged _ (left.pages id)

/-- Under a superseded header a recovery redoes what is committed. -/
theorem Superseded.redo {header : LogHeader} (superseded : Superseded committed header disk)
    {log : LogFile} (left : disk.LeavesLog log) (found : log.header = some header) {id : PageId}
    {page : Page} (redone : log.redo id = some page) : page = committed id := by
  obtain ⟨oldEnd, accepted, copied, quiet, versions⟩ := superseded
  -- whatever the slots left commit, it is what the durable ones commit before them
  have finish : ∀ count,
      (∀ slot < count, log.slot slot = disk.durableLog.slot slot) → count ≤ oldEnd →
      (Wal.scanFrom header.generation header.databaseId log.frames 0 {}).committed =
        (Wal.scanTo header.generation header.databaseId log.frames count).committed →
      (∀ page, disk.durableLog.upTo header.generation header.databaseId count id = some page →
        page = committed id) →
      page = committed id := by
    intro count same low scanned current
    have upTo := congrFun (LogFile.upTo_congr (fun slot early => accepted slot (by omega)) same) id
    refine current page ?_
    rw [← upTo, ← redone]
    simp only [LogFile.redo, LogFile.scan, found, scanned, LogFile.upTo]
  by_cases whole : ∀ slot < oldEnd, log.slot slot = disk.durableLog.slot slot
  · refine finish oldEnd whole (Nat.le_refl _) ?_ fun page => copied id page
    have accepted' : ∀ slot < oldEnd,
        Wal.Accepts header.generation header.databaseId (log.slot slot) := by
      intro slot low
      rw [whole slot low]
      exact accepted slot low
    refine (Wal.scan_eq_scanTo accepted' ?_).1
    intro slot frame high present own
    rcases versions slot _ (left.version present) with same | ⟨foreign, _⟩ | ⟨_, plain⟩
    · exact quiet slot frame high same.symm own
    · exact absurd own (foreign frame rfl)
    · exact (plain frame rfl).2
  · -- the first slot that the cut changed
    classical
    have differing : ∃ slot, slot < oldEnd ∧ log.slot slot ≠ disk.durableLog.slot slot := by
      simpa only [not_forall, exists_prop] using whole
    obtain ⟨low, changed⟩ := Nat.find_spec differing
    have same : ∀ slot < Nat.find differing, log.slot slot = disk.durableLog.slot slot := by
      intro slot before
      by_contra differs
      exact Nat.find_min differing before ⟨by omega, differs⟩
    generalize Nat.find differing = count at low changed same
    have other : ∀ content ∈ disk.slotVersions count, content ≠ disk.durableLog.slot count →
        (∀ frame ∈ content, frame.generation ≠ header.generation) ∧ ∀ id page,
          disk.durableLog.upTo header.generation header.databaseId count id = some page →
            page = committed id := by
      intro content member apart
      rcases versions count content member with durable | foreign | ⟨high, _⟩
      · exact absurd durable apart
      · exact foreign
      · omega
    have prefixed : ∃ content ∈ disk.slotVersions count,
        content ≠ disk.durableLog.slot count := by
      by_contra none
      refine changed ((left.slots count).eq fun content member => ?_)
      by_contra apart
      exact none ⟨content, member, apart⟩
    obtain ⟨content, member, apart⟩ := prefixed
    refine finish count same (Nat.le_of_lt low) ?_ ((other content member apart).2 id)
    refine congrArg Wal.Scan.committed (Wal.scan_eq_of_stop ?_ ?_)
    · intro slot early
      have kept := same slot early
      rw [LogFile.slot] at kept
      rw [kept]
      exact accepted slot (by omega)
    · rintro ⟨frame, present, own, _⟩
      have apart : some frame ≠ disk.durableLog.slot count :=
        fun durable => changed (present.trans durable)
      exact (other _ (left.version present) apart).1 frame rfl own

/-- A header that is not the log's own can be left only where no commit is durable in the log. -/
theorem Sealed.begins (safe : Sealed committed databaseId generation commitEnd disk)
    {files : Files} (left : disk.Leaves files)
    (other : files.log.header ≠ some ⟨generation, databaseId⟩) (id : PageId) :
    files.page id = committed id := by
  have none : commitEnd = 0 := by
    by_contra some
    exact other (left.log.header.eq (safe.first some))
  exact safe.unlogged left (none ▸ LogFile.upTo_zero ..)

/-- After a power cut a recovery restores the version committed last of every page, or of every
page the one that a commit frame not synced yet commits. -/
theorem Sealed.cut (safe : Sealed committed databaseId generation commitEnd disk)
    {files : Files} (left : disk.Leaves files) :
    (∀ id, files.version id = committed id) ∨ ∀ id, files.version id = disk.files.version id := by
  by_cases own : files.log.header = some ⟨generation, databaseId⟩
  · exact safe.cut_current left own
  · refine .inl fun id => ?_
    have unlogged := safe.begins left own id
    rw [Files.version]
    cases redone : files.log.redo id with
    | none => exact unlogged
    | some page =>
      cases found : files.log.header with
      | none =>
        rw [LogFile.redo_none found] at redone
        cases redone
      | some header =>
        rw [found] at own
        have version := (found ▸ left.log.header).some
        obtain ⟨_, superseded⟩ := safe.headers header version fun same => own (same ▸ rfl)
        exact superseded.redo left.log found redone

end Cut

end Labdb.Storage
