import Labdb.Storage.PagerInvariant
import Labdb.Storage.Sealed

/-! Every call of a process that syncs its commits keeps both files sealed, as long
as no frame goes where it could bring back an older page. -/

namespace Labdb.Storage

open Labdb.Program

theorem LogFile.forall_upTo {log : LogFile} {generation databaseId count : Nat}
    {holds : PageId → Page → Prop} :
    (∀ id page, log.upTo generation databaseId count id = some page → holds id page) ↔
      ∀ entry ∈ (Wal.scanTo generation databaseId log.frames count).committed.entries,
        ∀ page ∈ log.pageAt entry.2, holds entry.1 page := by
  constructor
  · intro all entry member page present
    refine all entry.1 page ?_
    rw [upTo, AList.mem_lookup_iff.mpr member]
    exact present
  · intro all id page found
    obtain ⟨slot, committed, present⟩ := Option.bind_eq_some_iff.mp found
    exact all ⟨id, slot⟩ (AList.mem_lookup_iff.mp committed) page present

/-- What the durable slots before this one commit under the header is what was committed last. -/
def Disk.Commits (disk : Disk) (header : LogHeader) (slot : Nat) : Prop :=
  ∀ id page, disk.durableLog.upTo header.generation header.databaseId slot id = some page →
    page = disk.files.version id

instance (disk : Disk) (header : LogHeader) (slot : Nat) : Decidable (disk.Commits header slot) :=
  decidable_of_iff _ LogFile.forall_upTo.symm

instance (headers : List (Option LogHeader)) (holds : LogHeader → Prop) [DecidablePred holds] :
    Decidable (∀ header, some header ∈ headers → holds header) :=
  decidable_of_iff (∀ content ∈ headers, ∀ header ∈ content, holds header)
    ⟨fun all header member => all _ member header rfl, fun all _ member header same =>
      all header (same ▸ member)⟩

/-- What the write of a frame must find. What the slots before it commit under a header of another
generation that may come back is what was committed last; and no slot that a commit frame closes
has had another frame of the generation since the log was last synced. -/
structure Reuses (slot : Nat) (frame : Frame) (disk : Disk) : Prop where
  superseded : ∀ header, some header ∈ disk.headerVersions →
    header.generation ≠ frame.generation → disk.Commits header slot
  sole : frame.commit = true → ∀ index, disk.files.log.scan.commitEnd ≤ index → index < slot →
    disk.Sole frame.generation index

instance (slot : Nat) (frame : Frame) (disk : Disk) : Decidable (Reuses slot frame disk) :=
  decidable_of_iff
    ((∀ header, some header ∈ disk.headerVersions → header.generation ≠ frame.generation →
        disk.Commits header slot) ∧
      (frame.commit = true → ∀ index < slot, disk.files.log.scan.commitEnd ≤ index →
        disk.Sole frame.generation index))
    ⟨fun ⟨superseded, sole⟩ => ⟨superseded, fun commit index high low => sole commit index low high⟩,
      fun ⟨superseded, sole⟩ => ⟨superseded, fun commit index low high => sole commit index high low⟩⟩

/-- No frame of the generation was in the log at its last sync or has been written since. -/
def Disk.Unused (disk : Disk) (generation : Nat) : Prop :=
  (∀ content ∈ disk.durableLog.frames, ∀ frame ∈ content, frame.generation ≠ generation) ∧
    ∀ entry ∈ disk.recent, entry.2.generation ≠ generation

instance (disk : Disk) (generation : Nat) : Decidable (disk.Unused generation) :=
  inferInstanceAs (Decidable (_ ∧ _))

/-- Wherever a cut ends the log that is being emptied, what it commits under a header of another
generation is what was committed last. -/
def Disk.Forgets (disk : Disk) : Prop :=
  ∀ header, some header ∈ disk.headerVersions → some header ≠ disk.files.log.header →
    ∀ slot ≤ disk.durableLog.frames.length, disk.Commits header slot

instance (disk : Disk) : Decidable disk.Forgets :=
  inferInstanceAs (Decidable (∀ header, some header ∈ disk.headerVersions →
    some header ≠ disk.files.log.header → ∀ slot ≤ _, disk.Commits header slot))

/-- What a call must find: the write of a frame, of a header, and the emptying of the log. -/
def FileCall.Reuses : FileCall → Disk → Prop
  | .writeFrame slot frame, disk => Storage.Reuses slot frame disk
  | .writeLogHeader header, disk => disk.Unused header.generation
  | .truncateLog, disk => disk.Forgets
  | _, _ => True

instance : (request : FileCall) → (disk : Disk) → Decidable (request.Reuses disk)
  | .writeFrame slot frame, disk => inferInstanceAs (Decidable (Storage.Reuses slot frame disk))
  | .writeLogHeader header, disk => inferInstanceAs (Decidable (disk.Unused header.generation))
  | .truncateLog, disk => inferInstanceAs (Decidable disk.Forgets)
  | .syncLog, _ | .writePage _ _, _ | .resizeFile _, _ | .syncFile, _ => isTrue trivial

section Calls

variable {committed : PageId → Page} {databaseId generation commitEnd : Nat} {disk : Disk}

/-- The generation in memory is the one on the disk. -/
theorem Sealed.own (safe : Sealed committed databaseId generation commitEnd disk) {wal : Wal}
    (holds : wal.Holds disk.files.log) (ready : wal.headerOk = true) :
    wal.generation = generation ∧ wal.databaseId = databaseId ∧
      disk.files.log.header = some ⟨generation, databaseId⟩ := by
  have header := holds.header ready
  rcases safe.header with own | ⟨blank, _⟩
  · rw [own] at header
    cases header
    exact ⟨rfl, rfl, own⟩
  · rw [blank] at header
    cases header

/-- Without a header nothing is committed. -/
theorem Sealed.commitEnd_blank (safe : Sealed committed databaseId generation commitEnd disk)
    (missing : disk.files.log.header = none) : commitEnd = 0 := by
  rcases safe.header with own | ⟨_, none⟩
  · rw [missing] at own
    cases own
  · exact none

private theorem Sealed.commitEnd_le (safe : Sealed committed databaseId generation commitEnd disk)
    {wal : Wal} (holds : wal.Holds disk.files.log) (ready : wal.headerOk = true) :
    commitEnd ≤ wal.commitEnd := by
  by_contra beyond
  obtain ⟨last, same⟩ := Nat.exists_eq_succ_of_ne_zero (show commitEnd ≠ 0 by omega)
  obtain ⟨frame, present, commit, own, _⟩ := Wal.scanTo_commits safe.accepted
    (safe.ended.trans same)
  have now := safe.slot_files (show last < commitEnd by omega)
  have plain := holds.quiet last frame (by omega) (now.trans present)
    (own.trans (safe.own holds ready).1.symm)
  rw [plain] at commit
  cases commit

/-- Once a sync covers the last commit, all commits are durable. -/
theorem Sealed.commitEnd_eq (safe : Sealed committed databaseId generation commitEnd disk)
    {wal : Wal} (holds : wal.Holds disk.files.log) (ready : wal.headerOk = true)
    (covered : disk.Vouched wal.commitEnd) : commitEnd = wal.commitEnd := by
  have low := safe.commitEnd_le holds ready
  by_contra apart
  obtain ⟨last, same⟩ := Nat.exists_eq_succ_of_ne_zero (show wal.commitEnd ≠ 0 by omega)
  obtain ⟨frame, present, commit, own, _⟩ := holds.committed_last same
  have version : some frame ∈ disk.slotVersions last := present ▸ Disk.current_mem_versions
  rcases safe.slots last frame version with durable | recent
  · have plain := safe.quiet last frame (by omega) durable (own.trans (safe.own holds ready).1)
    rw [plain] at commit
    cases commit
  · rcases covered with none | covered
    · omega
    · exact covered _ recent (by simp only; omega)

/-- What the durable commits read is what the log in memory reads. -/
theorem Sealed.upTo_eq (safe : Sealed committed databaseId generation commitEnd disk) {wal : Wal}
    (holds : wal.Holds disk.files.log) (ready : wal.headerOk = true)
    (same : commitEnd = wal.commitEnd) (id : PageId) :
    disk.durableLog.upTo generation databaseId commitEnd id = disk.files.log.redo id := by
  obtain ⟨own, ours, _⟩ := safe.own holds ready
  subst own ours same
  rw [← holds.upTo_eq id]
  exact congrFun (LogFile.upTo_congr safe.accepted fun slot low => safe.slot_files low).symm id

/-- Where a sync covers the last commit, what is committed is what is read. -/
theorem Sealed.committed_eq (safe : Sealed committed databaseId generation commitEnd disk)
    {wal : Wal} (holds : wal.Holds disk.files.log) (covered : disk.Vouched wal.commitEnd) :
    committed = disk.files.version := by
  funext id
  have reads := safe.reads id
  cases ready : wal.headerOk with
  | true =>
    rw [safe.upTo_eq holds ready (safe.commitEnd_eq holds ready covered)] at reads
    exact reads.symm
  | false =>
    have missing : disk.files.log.header = none := by rw [holds.blank ready]
    rw [safe.commitEnd_blank missing, LogFile.upTo_zero] at reads
    rw [Files.version, LogFile.redo_none missing]
    exact reads.symm

/-- A frame that is not synced is plain, unless it is the commit frame that the log ends with. -/
theorem Sealed.plain (safe : Sealed committed databaseId generation commitEnd disk) {slot : Nat}
    {frame : Frame} (recent : (slot, frame) ∈ disk.recent) (own : frame.generation = generation)
    (other : disk.files.log.slot slot = some frame → disk.files.log.scan.commitEnd ≠ slot + 1) :
    frame.commit = false := by
  cases commit : frame.commit with
  | false => rfl
  | true =>
    obtain ⟨present, ended, _⟩ := safe.closed slot frame recent own commit
    exact absurd ended (other present)

/-- Where a sync covers the last commit, no commit frame waits for one. -/
theorem Sealed.unclosed (safe : Sealed committed databaseId generation commitEnd disk) {wal : Wal}
    (holds : wal.Holds disk.files.log) (ready : wal.headerOk = true)
    (covered : disk.Vouched wal.commitEnd) :
    ∀ slot frame, (slot, frame) ∈ disk.recent → frame.generation = generation →
      frame.commit = false := by
  intro slot frame recent own
  have same := safe.commitEnd_eq holds ready covered
  have later : commitEnd ≤ slot := safe.later _ recent
  have scanned := holds.scan_eq.2.1
  exact safe.plain recent own fun _ => by omega

/-- The durable slots, where no version of them is new but under other headers. -/
theorem Superseded.congr {header : LogHeader} (superseded : Superseded committed header disk)
    {disk' : Disk} (durable : disk'.durableLog = disk.durableLog)
    (versions : ∀ slot, ∀ content ∈ disk'.slotVersions slot, content ∈ disk.slotVersions slot ∨
      (∀ frame ∈ content, frame.generation ≠ header.generation) ∧ ∀ id page,
        disk.durableLog.upTo header.generation header.databaseId slot id = some page →
          page = committed id) : Superseded committed header disk' := by
  obtain ⟨oldEnd, accepted, copied, quiet, covered⟩ := superseded
  refine ⟨oldEnd, ?_⟩
  rw [durable]
  refine ⟨accepted, copied, quiet, fun slot content member => ?_⟩
  rcases versions slot content member with old | new
  · exact covered slot content old
  · exact .inr (.inl new)

/-- Behind a commit point the durable slots commit no more. -/
theorem LogFile.upTo_quiet {log : LogFile} {count : Nat} (beyond : commitEnd ≤ count)
    (accepted : ∀ slot < commitEnd, Wal.Accepts generation databaseId (log.slot slot))
    (quiet : ∀ slot frame, commitEnd ≤ slot → log.slot slot = some frame →
      frame.generation = generation → frame.commit = false) :
    log.upTo generation databaseId count = log.upTo generation databaseId commitEnd := by
  have taken : ∀ slot < count, (log.frames.take count).getD slot none = log.slot slot := by
    intro slot low
    rw [LogFile.slot, List.getD_eq_getElem?_getD, List.getD_eq_getElem?_getD,
      List.getElem?_take_of_lt low]
  have same := (@Wal.scan_eq_scanTo generation databaseId (log.frames.take count) commitEnd
    (fun slot low => (taken slot (by omega)).symm ▸ accepted slot low) ?_).1
  · funext id
    rw [upTo, upTo, Wal.scanTo, same, Wal.scanTo, List.take_take, Nat.min_eq_left beyond]
    rfl
  · intro slot frame high present own
    by_cases low : slot < count
    · exact quiet slot frame high ((taken slot low).symm.trans present) own
    · rw [List.getD_eq_getElem?_getD, List.getElem?_eq_none
        ((List.length_take_le ..).trans (Nat.le_of_not_lt low))] at present
      cases present

theorem LogFile.upTo_length {log : LogFile} {count : Nat} (beyond : log.frames.length ≤ count) :
    log.upTo generation databaseId count = log.upTo generation databaseId log.frames.length := by
  funext id
  rw [upTo, upTo, Wal.scanTo, Wal.scanTo, List.take_of_length_le beyond, List.take_length]

/-- A generation that ends, where no commit frame of it waits for a sync. -/
theorem Sealed.passed (safe : Sealed committed databaseId generation commitEnd disk)
    (unclosed : ∀ slot frame, (slot, frame) ∈ disk.recent → frame.generation = generation →
      frame.commit = false) : Superseded committed ⟨generation, databaseId⟩ disk := by
  have copied : ∀ id page,
      disk.durableLog.upTo generation databaseId commitEnd id = some page → page = committed id := by
    intro id page redone
    have reads := safe.reads id
    rwa [redone] at reads
  refine ⟨commitEnd, safe.accepted, copied, safe.quiet, fun slot content member => ?_⟩
  by_cases low : slot < commitEnd
  · exact .inl (safe.kept slot low content member)
  have ends : ∀ id page, disk.durableLog.upTo generation databaseId slot id = some page →
      page = committed id := by
    rw [LogFile.upTo_quiet (Nat.le_of_not_lt low) safe.accepted safe.quiet]
    exact copied
  cases content with
  | none => exact .inr (.inl ⟨by simp, ends⟩)
  | some frame =>
    rcases safe.slots slot frame member with durable | recent
    · exact .inl durable.symm
    · by_cases own : frame.generation = generation
      · refine .inr (.inr ⟨Nat.le_of_not_lt low, ?_⟩)
        rintro _ ⟨⟩
        exact ⟨own, unclosed slot frame recent own⟩
      · refine .inr (.inl ⟨?_, ends⟩)
        rintro _ ⟨⟩
        exact own

/-- The write of a frame behind the durable commits, where no commit frame waits for a sync. -/
theorem Sealed.frame (safe : Sealed committed databaseId generation commitEnd disk)
    (headed : disk.files.log.header = some ⟨generation, databaseId⟩) {slot : Nat} {frame : Frame}
    (own : frame.generation = generation) (behind : commitEnd ≤ slot)
    (unclosed : ∀ other placed, (other, placed) ∈ disk.recent → placed.generation = generation →
      placed.commit = false)
    (superseded : ∀ header, some header ∈ disk.headerVersions →
      header.generation ≠ frame.generation → ∀ id page,
      disk.durableLog.upTo header.generation header.databaseId slot id = some page →
        page = committed id)
    (closes : frame.commit = true → (disk.files.log.place slot (some frame)).scan.commitEnd =
      slot + 1 ∧ ∀ index, commitEnd ≤ index → index < slot → disk.Sole generation index) :
    Sealed committed databaseId generation commitEnd
      (Device.perform (.writeFrame slot frame) disk) := by
  have durable : (Device.perform (FileCall.writeFrame slot frame) disk).durableLog =
      disk.durableLog := durableLog_perform (by simp)
  have pages : ∀ {id : PageId} {page : Page}, page ∈
      (Device.perform (FileCall.writeFrame slot frame) disk).pageVersions id →
      page ∈ disk.pageVersions id := fun member => Disk.mem_versions_same rfl member
  have headers : ∀ {header : Option LogHeader}, header ∈
      (Device.perform (FileCall.writeFrame slot frame) disk).headerVersions →
      header ∈ disk.headerVersions := fun member => Disk.mem_versions_same rfl member
  refine ⟨fun page member => safe.named page (pages member), .inl headed,
    fun some header member => safe.first some header (headers member), ?_, ?_, ?_, safe.accepted,
    safe.ended, safe.quiet, ?_, ?_, safe.reads,
    fun id none page member => safe.pages id none page (pages member)⟩
  · intro header member other
    obtain ⟨ours, before⟩ := safe.headers header (headers member) other
    refine ⟨ours, before.congr durable fun at_ content held => ?_⟩
    rcases mem_slotVersions_frame held with old | ⟨rfl, rfl⟩
    · exact .inl old
    · have apart : header.generation ≠ frame.generation := by
        intro same
        obtain ⟨_, _⟩ := header
        cases ours
        cases same.trans own
        exact other rfl
      refine .inr ⟨?_, superseded header (headers member) apart⟩
      rintro _ ⟨⟩
      exact apart.symm
  · intro other placed member
    rw [durable, recent_writeFrame]
    rcases mem_slotVersions_frame member with old | ⟨rfl, same⟩
    · exact (safe.slots other placed old).imp_right (List.mem_cons_of_mem _)
    · cases same
      exact .inr List.mem_cons_self
  · intro other low content member
    rw [durable]
    rcases mem_slotVersions_frame member with old | ⟨rfl, _⟩
    · exact safe.kept other low content old
    · omega
  · intro entry member
    rcases List.mem_cons.mp member with rfl | old
    · exact behind
    · exact safe.later entry old
  · intro other placed member same commit
    rcases List.mem_cons.mp member with new | old
    · cases new
      obtain ⟨scanned, sole⟩ := closes commit
      refine ⟨(LogFile.slot_place ..).trans (if_pos rfl), scanned, fun index high low => ?_⟩
      intro held member matching
      refine ((LogFile.slot_place ..).trans (if_neg (by omega))).trans ?_
      rcases mem_slotVersions_frame member with before | ⟨here, _⟩
      · exact sole index high low held before matching
      · omega
    · have plain := unclosed other placed old same
      rw [plain] at commit
      cases commit

/-- A frame that may come back is of a generation that is used. -/
theorem Disk.Unused.apart {next : Nat} (fresh : disk.Unused next) {slot : Nat} {frame : Frame}
    (found : disk.durableLog.slot slot = some frame ∨ (slot, frame) ∈ disk.recent) :
    frame.generation ≠ next := by
  rcases found with durable | recent
  · rw [LogFile.slot, List.getD_eq_getElem?_getD] at durable
    have member := List.mem_of_getElem? (Option.getD_eq_iff.mp durable |>.resolve_right (by simp))
    exact fresh.1 _ member frame rfl
  · exact fresh.2 _ recent

/-- The header of a new generation, over pages that are in the file. -/
theorem Sealed.begin (safe : Sealed committed databaseId generation commitEnd disk)
    (unclosed : ∀ slot frame, (slot, frame) ∈ disk.recent → frame.generation = generation →
      frame.commit = false) {next : Nat} (fresh : disk.Unused next)
    (copied : ∀ id, disk.files.page id = committed id)
    (settled : ∀ id, ∀ page ∈ disk.pageVersions id, page = disk.files.page id) :
    Sealed committed databaseId next 0
      (Device.perform (.writeLogHeader ⟨next, databaseId⟩) disk) := by
  have durable : (Device.perform (FileCall.writeLogHeader ⟨next, databaseId⟩) disk).durableLog =
      disk.durableLog := durableLog_perform (by simp)
  have recent : (Device.perform (FileCall.writeLogHeader ⟨next, databaseId⟩) disk).recent =
      disk.recent := rfl
  have slots : ∀ {slot : Nat} {content : Slot}, content ∈
      (Device.perform (FileCall.writeLogHeader ⟨next, databaseId⟩) disk).slotVersions slot →
      content ∈ disk.slotVersions slot := fun member => Disk.mem_versions_same rfl member
  refine ⟨fun page member => safe.named page (Disk.mem_versions_same rfl member), .inl rfl,
    by simp, ?_, ?_, by simp, by simp, by simp [Wal.scanTo, Wal.scanFrom], ?_,
    fun _ _ => Nat.zero_le _, ?_, ?_, ?_⟩
  · intro header member other
    rcases Disk.mem_versions_push rfl member with new | old
    · cases new
      exact absurd rfl other
    · by_cases same : header = ⟨generation, databaseId⟩
      · subst same
        exact ⟨rfl, (safe.passed unclosed).congr durable fun _ _ member => .inl (slots member)⟩
      · obtain ⟨ours, before⟩ := safe.headers header old same
        exact ⟨ours, before.congr durable fun _ _ member => .inl (slots member)⟩
  · intro slot frame member
    rw [durable, recent]
    exact safe.slots slot frame (slots member)
  · intro slot frame _ present own
    rw [durable] at present
    exact absurd own (fresh.apart (.inl present))
  · intro slot frame member own
    exact absurd own (fresh.apart (.inr member))
  · intro id
    rw [LogFile.upTo_zero]
    exact copied id
  · intro id _ page member
    exact settled id page (Disk.mem_versions_same rfl member)

/-- Where the log has no durable commits, every page is in the file. -/
theorem Sealed.copied (safe : Sealed committed databaseId generation 0 disk) :
    (∀ id, disk.files.page id = committed id) ∧
      ∀ id, ∀ page ∈ disk.pageVersions id, page = disk.files.page id := by
  have reads := safe.reads
  have pages := safe.pages
  simp only [LogFile.upTo_zero] at reads pages
  exact ⟨reads, fun id => pages id trivial⟩

/-- The first header of a log that is empty. -/
theorem Sealed.writeHeader (safe : Sealed committed databaseId generation commitEnd disk)
    (blank : disk.files.log = {}) {next : Nat} (fresh : disk.Unused next) :
    Sealed committed databaseId next 0
      (Device.perform (.writeLogHeader ⟨next, databaseId⟩) disk) := by
  obtain rfl := safe.commitEnd_blank (by rw [blank])
  obtain ⟨copied, settled⟩ := safe.copied
  refine safe.begin (fun slot frame recent own => ?_) fresh copied settled
  exact safe.plain recent own fun present => by simp [blank, LogFile.slot] at present

/-- The log emptied, where a cut that ends it short brings back nothing older. -/
theorem Sealed.truncate (safe : Sealed committed databaseId generation 0 disk)
    (unclosed : ∀ slot frame, (slot, frame) ∈ disk.recent → frame.generation = generation →
      frame.commit = false)
    (forgets : ∀ header, some header ∈ disk.headerVersions → header ≠ ⟨generation, databaseId⟩ →
      ∀ slot id page, disk.durableLog.upTo header.generation header.databaseId slot id = some page →
        page = committed id) :
    Sealed committed databaseId generation 0 (Device.perform .truncateLog disk) := by
  have durable : (Device.perform FileCall.truncateLog disk).durableLog = disk.durableLog :=
    durableLog_perform (by simp)
  have recent : (Device.perform FileCall.truncateLog disk).recent = disk.recent := rfl
  have slots : ∀ {slot : Nat} {content : Slot}, content ∈
      (Device.perform FileCall.truncateLog disk).slotVersions slot →
      content = none ∨ content ∈ disk.slotVersions slot :=
    fun member => Disk.mem_versions_push rfl member
  refine ⟨fun page member => safe.named page (Disk.mem_versions_same rfl member), .inr ⟨rfl, rfl⟩,
    by simp, ?_, ?_, by simp, by simp, by simp [Wal.scanTo, Wal.scanFrom], ?_,
    fun _ _ => Nat.zero_le _, ?_, ?_, ?_⟩
  · intro header member other
    rcases Disk.mem_versions_push rfl member with new | old
    · cases new
    · obtain ⟨ours, before⟩ := safe.headers header old other
      refine ⟨ours, before.congr durable fun slot content member => ?_⟩
      rcases slots member with rfl | kept
      · exact .inr ⟨by simp, forgets header old other slot⟩
      · exact .inl kept
  · intro slot frame member
    rw [durable, recent]
    rcases slots member with impossible | kept
    · cases impossible
    · exact safe.slots slot frame kept
  · intro slot frame high present
    exact safe.quiet slot frame high (durable ▸ present)
  · intro slot frame member own commit
    have plain := unclosed slot frame member own
    rw [plain] at commit
    cases commit
  · intro id
    rw [durable]
    exact safe.reads id
  · intro id none page member
    rw [durable] at none
    exact safe.pages id none page (Disk.mem_versions_same rfl member)

/-- A call that leaves the log alone. -/
theorem Sealed.leavesLog (safe : Sealed committed databaseId generation commitEnd disk)
    {request : FileCall} (other : request ≠ .syncLog)
    (log : (request.effect disk.files).log = disk.files.log)
    (same : (Device.perform request disk).recent = disk.recent)
    (formatted : ∃ fields, ((request.effect disk.files).page 0).body = .record fields databaseId)
    (reads : ∀ id, (disk.durableLog.upTo generation databaseId commitEnd id).getD
      ((request.effect disk.files).page id) = committed id)
    (pages : ∀ id, disk.durableLog.upTo generation databaseId commitEnd id = none →
      ∀ page ∈ (Device.perform request disk).pageVersions id,
        page = (request.effect disk.files).page id) :
    Sealed committed databaseId generation commitEnd (Device.perform request disk) := by
  have durable : (Device.perform request disk).durableLog = disk.durableLog :=
    durableLog_perform other
  have headers : ∀ {header}, header ∈ (Device.perform request disk).headerVersions →
      header ∈ disk.headerVersions := by
    refine fun member => Disk.mem_versions_same ?_ member
    exact congrArg LogFile.header log
  have slots : ∀ {slot content}, content ∈ (Device.perform request disk).slotVersions slot →
      content ∈ disk.slotVersions slot := by
    refine fun {slot _} member => Disk.mem_versions_same ?_ member
    exact congrArg (fun log => log.slot slot) log
  refine ⟨?_, ?_, fun some header member => safe.first some header (headers member), ?_, ?_, ?_, ?_,
    ?_, ?_, ?_, ?_, ?_, ?_⟩
  · intro page member
    rcases Disk.mem_versions_cons member with rfl | old
    · exact formatted
    · exact safe.named page old
  · rw [files_perform, log]
    exact safe.header
  · intro header member other
    obtain ⟨ours, before⟩ := safe.headers header (headers member) other
    exact ⟨ours, before.congr durable fun _ _ member => .inl (slots member)⟩
  · intro slot frame member
    rw [durable, same]
    exact safe.slots slot frame (slots member)
  · intro slot low content member
    rw [durable]
    exact safe.kept slot low content (slots member)
  · rw [durable]
    exact safe.accepted
  · rw [durable]
    exact safe.ended
  · rw [durable]
    exact safe.quiet
  · rw [same]
    exact safe.later
  · rw [same, files_perform, log]
    intro slot frame member own commit
    obtain ⟨present, scanned, sole⟩ := safe.closed slot frame member own commit
    refine ⟨present, scanned, fun index high low held kept matching => ?_⟩
    rw [files_perform, log]
    exact sole index high low held (slots kept) matching
  · rw [durable]
    exact reads
  · rw [durable]
    exact pages

/-- The new header of a reset, where all that the log redoes is in the file. -/
theorem Sealed.reset (safe : Sealed committed databaseId generation commitEnd disk) {wal : Wal}
    (holds : wal.Holds disk.files.log) (ready : wal.headerOk = true)
    (covered : disk.Vouched wal.commitEnd) {next : Nat} (fresh : disk.Unused next)
    (copied : ∀ id page, disk.files.log.redo id = some page → disk.files.page id = page)
    (settled : ∀ id, ∀ page ∈ disk.pageVersions id, page = disk.files.page id) :
    Sealed committed databaseId next 0
      (Device.perform (.writeLogHeader ⟨next, databaseId⟩) disk) := by
  have same := safe.commitEnd_eq holds ready covered
  refine safe.begin (safe.unclosed holds ready covered) fresh (fun id => ?_) settled
  have reads := safe.reads id
  rw [safe.upTo_eq holds ready same] at reads
  rw [← reads]
  cases redone : disk.files.log.redo id with
  | none => rfl
  | some page => exact copied id page redone

/-- Files whose log is durable as it stands, and whose file is where the log redoes
nothing, are sealed. -/
theorem sealed_of_settled (disk : Disk) {wal : Wal} (holds : wal.Holds disk.files.log)
    (owns : wal.headerOk = true → wal.databaseId = databaseId)
    (named : ∀ page ∈ disk.pageVersions 0, ∃ fields, page.body = .record fields databaseId)
    (log : disk.durableLog = disk.files.log) (recent : disk.recent = [])
    (headers : ∀ header ∈ disk.headerVersions, header = disk.files.log.header)
    (slots : ∀ slot, ∀ content ∈ disk.slotVersions slot, content = disk.files.log.slot slot)
    (pages : ∀ id, disk.files.log.redo id = none →
      ∀ page ∈ disk.pageVersions id, page = disk.files.page id) :
    Sealed disk.files.version databaseId wal.generation wal.commitEnd disk := by
  have upTo : ∀ id, disk.durableLog.upTo wal.generation databaseId wal.commitEnd id =
      disk.files.log.redo id := by
    intro id
    rw [log]
    cases ready : wal.headerOk with
    | true => exact owns ready ▸ holds.upTo_eq id
    | false =>
      rw [holds.blank_commitEnd ready, LogFile.upTo_zero, LogFile.redo_none]
      rw [holds.blank ready]
  have header : wal.headerOk = true →
      disk.files.log.header = some ⟨wal.generation, databaseId⟩ :=
    fun ready => owns ready ▸ holds.header ready
  have ready : wal.commitEnd ≠ 0 → wal.headerOk = true := by
    intro some
    by_contra missing
    exact some (holds.blank_commitEnd (by simpa using missing))
  refine ⟨named, ?_, fun some found member => (headers found member).trans (header (ready some)), ?_,
    fun slot frame member => .inl (log ▸ (slots slot _ member).symm),
    fun slot _ content member => log ▸ slots slot content member, ?_, ?_, log ▸ holds.quiet,
    by simp [recent], by simp [recent], ?_, ?_⟩
  · cases present : wal.headerOk with
    | true => exact .inl (header present)
    | false => exact .inr ⟨holds.blank present, holds.blank_commitEnd present⟩
  · intro found member apart
    have current := headers _ member
    cases headed : wal.headerOk with
    | true =>
      rw [header headed] at current
      exact absurd (Option.some.inj current) apart
    | false =>
      rw [holds.blank headed] at current
      cases current
  · intro slot low
    rw [log, ← owns (ready (by omega))]
    exact holds.accepted slot low
  · rw [log]
    by_cases none : wal.commitEnd = 0
    · simp [none, Wal.scanTo, Wal.scanFrom]
    · exact owns (ready none) ▸ holds.scannedEnd
  · intro id
    rw [upTo]
    rfl
  · intro id none
    exact pages id (upTo id ▸ none)

/-- A sync makes everything that is committed durable. -/
theorem Sealed.syncLog (safe : Sealed committed databaseId generation commitEnd disk) {wal : Wal}
    (holds : wal.Holds disk.files.log) :
    Sealed disk.files.version databaseId wal.generation wal.commitEnd
      (Device.perform .syncLog disk) := by
  refine sealed_of_settled (Device.perform FileCall.syncLog disk) holds
    (fun ready => (safe.own holds ready).2.1)
    (fun page member => safe.named page (Disk.mem_versions_same rfl member)) rfl rfl
    (fun _ member => Disk.mem_versions_settle rfl member)
    (fun _ _ member => Disk.mem_versions_settle rfl member) ?_
  intro id redone page member
  refine safe.pages id ?_ page (Disk.mem_versions_same rfl member)
  cases ready : wal.headerOk with
  | false =>
    rw [safe.commitEnd_blank (by rw [holds.blank ready]), LogFile.upTo_zero]
  | true =>
    obtain ⟨first, ended, upTo⟩ := safe.accepted_files
    rw [← upTo]
    exact LogFile.upTo_none (safe.own holds ready).2.2 first ended redone

/-- The page of a committed frame, copied into the file. -/
theorem Sealed.copy (safe : Sealed committed databaseId generation commitEnd disk) {wal : Wal}
    (holds : wal.Holds disk.files.log) (covered : disk.Vouched wal.commitEnd) {id : PageId}
    {page : Page} (found : disk.files.log.redo id = some page)
    (formatted : id = 0 → ∃ fields, page.body = .record fields databaseId) :
    Sealed committed databaseId generation commitEnd
      (Device.perform (.writePage id page) disk) := by
  have ready : wal.headerOk = true := by
    rw [holds.redo_eq] at found
    obtain ⟨slot, committed, _⟩ := Option.bind_eq_some_iff.mp found
    exact holds.ready committed
  have upTo := safe.upTo_eq holds ready (safe.commitEnd_eq holds ready covered)
  have placed : ∀ other, ((FileCall.writePage id page).effect disk.files).page other =
      if id = other then page else disk.files.page other :=
    fun other => getD_placeAt ({} : Page) disk.files.pages id other page
  refine safe.leavesLog (by simp) rfl rfl ?_ ?_ ?_
  · rw [placed]
    split
    · rename_i meta_
      exact formatted meta_
    · exact safe.formatted
  · intro other
    have reads := safe.reads other
    rw [placed]
    split
    · subst other
      rw [upTo, found] at reads ⊢
      exact reads
    · exact reads
  · intro other none version member
    have apart : id ≠ other := by
      rintro rfl
      rw [upTo, found] at none
      cases none
    have same := (placed other).trans (if_neg apart)
    rw [same]
    refine safe.pages other none version (Disk.mem_versions_same ?_ member)
    exact same

/-- Every call keeps the files sealed; a sync of the log seals what is committed. -/
theorem Sealed.moves (safe : Sealed committed databaseId generation commitEnd disk)
    {request : FileCall} (legal : Legal True request disk) (reuses : request.Reuses disk)
    {database : Database} (sound : disk.files.Sound database) :
    ∃ committed', (committed' = committed ∨ committed' = disk.files.version ∧ request = .syncLog) ∧
      ∃ generation' commitEnd', Sealed committed' databaseId generation' commitEnd'
        (Device.perform request disk) := by
  obtain ⟨fields, record⟩ := safe.formatted
  have filed : disk.files ≠ {} := by
    intro blank
    rw [blank] at record
    cases record
  obtain ⟨blank, _⟩ | ⟨memory, remembers, stores⟩ := sound
  · exact absurd blank filed
  have identity : memory.databaseId = databaseId := by
    obtain ⟨_, _, body⟩ := stores.filed
    rw [record] at body
    injection body with _ same
    exact same.symm
  cases legal with
  | header wal holds missing owns =>
    obtain rfl := owns trivial fields databaseId record
    exact ⟨committed, .inl rfl, _, _, safe.writeHeader (holds.blank missing) reuses⟩
  | frame wal holds ready high covered id page =>
    obtain ⟨own, _, headed⟩ := safe.own holds ready
    have same := safe.committed_eq holds (covered trivial)
    refine ⟨committed, .inl rfl, _, _, safe.frame headed own
      ((safe.commitEnd_le holds ready).trans high) (safe.unclosed holds ready (covered trivial))
      ?_ nofun⟩
    exact fun header durable other id page redone =>
      same ▸ reuses.superseded header durable other id page redone
  | commit wal tracks ready covered page =>
    obtain ⟨own, _, headed⟩ := safe.own tracks.toHolds ready
    have same := safe.committed_eq tracks.toHolds (covered trivial)
    have ended := safe.commitEnd_eq tracks.toHolds ready (covered trivial)
    refine ⟨committed, .inl rfl, _, _, safe.frame headed own
      (ended ▸ tracks.ordered) (safe.unclosed tracks.toHolds ready (covered trivial)) ?_ ?_⟩
    · exact fun header durable other id page redone =>
        same ▸ reuses.superseded header durable other id page redone
    · intro commit
      refine ⟨(tracks.commit ready page).scan_eq.2.1, fun index high low => ?_⟩
      rw [ended, ← tracks.scan_eq.2.1] at high
      exact own ▸ reuses.sole commit index high low
  | reset wal holds ready copied durable =>
    obtain ⟨own, ours, _⟩ := safe.own holds ready
    subst own ours
    obtain ⟨vouched, settled⟩ : disk.Vouched wal.commitEnd ∧
        ∀ id, ∀ page ∈ disk.pageVersions id, page = disk.files.page id := by
      rcases durable trivial with none | both
      · obtain rfl := Nat.le_zero.mp (none ▸ safe.commitEnd_le holds ready)
        exact ⟨.inl none, safe.copied.2⟩
      · exact both
    exact ⟨committed, .inl rfl, _, _, safe.reset holds ready vouched reuses copied settled⟩
  | truncate wal holds empty =>
    have vouched : disk.Vouched wal.commitEnd := .inl empty
    have same := safe.committed_eq holds vouched
    obtain rfl : commitEnd = 0 := by
      cases ready : wal.headerOk with
      | true => exact (safe.commitEnd_eq holds ready vouched).trans empty
      | false => exact safe.commitEnd_blank (by rw [holds.blank ready])
    refine ⟨committed, .inl rfl, _, _, safe.truncate ?_ ?_⟩
    · intro slot frame recent own
      have none := holds.scan_eq.2.1.trans empty
      exact safe.plain recent own fun _ => by omega
    · intro header member apart slot id page redone
      have others : some header ≠ disk.files.log.header := by
        rcases safe.header with own | ⟨blank, _⟩
        · rw [own]
          exact fun same => apart (Option.some.inj same)
        · rw [blank]
          simp
      have commits := reuses header member others
      rw [same]
      by_cases inside : slot ≤ disk.durableLog.frames.length
      · exact commits slot inside id page redone
      · refine commits _ (Nat.le_refl _) id page ?_
        rw [← LogFile.upTo_length (Nat.le_of_not_le inside)]
        exact redone
  | syncLog => exact ⟨disk.files.version, .inr ⟨rfl, rfl⟩, _, _, safe.syncLog remembers⟩
  | format blank page => exact absurd blank filed
  | @copy _ wal holds covered id page found =>
    refine ⟨committed, .inl rfl, _, _, safe.copy holds (covered trivial) found ?_⟩
    rintro rfl
    have fields := stores.fields
    rw [found, Option.getD_some, identity] at fields
    exact ⟨_, fields⟩
  | @resize _ count longer =>
    have same : ∀ id, ((FileCall.resizeFile count).effect disk.files).page id =
        disk.files.page id :=
      fun id => getD_takeD ({} : Page) disk.files.pages count id longer
    refine ⟨committed, .inl rfl, _, _, safe.leavesLog (by simp) rfl rfl ?_ ?_ ?_⟩
    · rw [same]
      exact safe.formatted
    · intro id
      rw [same]
      exact safe.reads id
    · intro id none page member
      rw [same]
      refine safe.pages id none page (Disk.mem_versions_same ?_ member)
      exact same id
  | syncFile =>
    exact ⟨committed, .inl rfl, _, _, safe.leavesLog (by simp) rfl rfl safe.formatted safe.reads
      fun id _ page member => Disk.mem_versions_settle rfl member⟩

end Calls

end Labdb.Storage
