import Labdb.Storage.Versions
import Labdb.Storage.WalInvariant

/-! What each operation of the log does, at every call it makes and under the
failures a transaction can survive. -/

namespace Labdb.Storage

open Labdb.Program

/-- Failures are confined to frames, and to the header of a log that is empty. -/
def Gentle (may : FileCall → Disk → Prop) : Prop :=
  ∀ request disk, may request disk →
    (∃ slot frame, request = .writeFrame slot frame) ∨
      (∃ header, request = .writeLogHeader header) ∧ disk.files.log = {}

/-- A gentle failure hits no other call. -/
theorem Gentle.spares {may : FileCall → Disk → Prop} (gentle : Gentle may) {request : FileCall}
    {disk : Disk} (frames : ∀ slot frame, request ≠ .writeFrame slot frame)
    (headers : ∀ header, request ≠ .writeLogHeader header) : ¬ may request disk := by
  intro allowed
  rcases gentle request disk allowed with ⟨slot, frame, same⟩ | ⟨⟨header, same⟩, _⟩
  · exact frames slot frame same
  · exact headers header same

/-- No call fails. -/
def Never : FileCall → Disk → Prop := fun _ _ => False

theorem gentle_never : Gentle Never := fun _ _ impossible => impossible.elim

/-- The log belongs to the database whose meta page the file holds. -/
def Wal.Owns (wal : Wal) (files : Files) : Prop :=
  ∀ fields databaseId, (files.page 0).body = .record fields databaseId →
    wal.databaseId = databaseId

/-- The calls a process makes, each with what holds when it makes it. One that syncs
copies the log only when it is durable, gives it up when the file is, and stays open. -/
inductive Legal (synced : Prop) : FileCall → Disk → Prop where
  | header {disk : Disk} (wal : Wal) (holds : wal.Holds disk.files.log)
      (missing : wal.headerOk = false) (owns : synced → wal.Owns disk.files) :
      Legal synced (.writeLogHeader ⟨wal.generation, wal.databaseId⟩) disk
  | frame {disk : Disk} (wal : Wal) (holds : wal.Holds disk.files.log)
      (ready : wal.headerOk = true) {slot : Nat} (behind : wal.commitEnd ≤ slot)
      (covered : synced → disk.Vouched wal.commitEnd) (id : PageId) (page : Page) :
      Legal synced (.writeFrame slot (wal.frameOf id false page)) disk
  | commit {disk : Disk} (wal : Wal) (tracks : wal.Tracks disk.files.log)
      (ready : wal.headerOk = true) (covered : synced → disk.Vouched wal.commitEnd)
      (page : Page) : Legal synced (.writeFrame wal.end_ (wal.frameOf 0 true page)) disk
  | reset {disk : Disk} (wal : Wal) (holds : wal.Holds disk.files.log)
      (ready : wal.headerOk = true)
      (copied : ∀ id page, disk.files.log.redo id = some page → disk.files.page id = page)
      (durable : synced → wal.commitEnd = 0 ∨ disk.Vouched wal.commitEnd ∧
        ∀ id, ∀ page ∈ disk.pageVersions id, page = disk.files.page id) :
      Legal synced (.writeLogHeader ⟨wal.generation + 1, wal.databaseId⟩) disk
  | truncate {disk : Disk} (wal : Wal) (holds : wal.Holds disk.files.log)
      (empty : wal.commitEnd = 0) : Legal synced .truncateLog disk
  | syncLog {disk : Disk} : Legal synced .syncLog disk
  | format {disk : Disk} (blank : disk.files = {}) (page : Page) :
      Legal synced (.writePage 0 page) disk
  | copy {disk : Disk} (wal : Wal) (holds : wal.Holds disk.files.log)
      (covered : synced → disk.Vouched wal.commitEnd) {id : PageId} {page : Page}
      (found : disk.files.log.redo id = some page) : Legal synced (.writePage id page) disk
  | resize {disk : Disk} {count : Nat} (longer : disk.files.pages.length ≤ count) :
      Legal synced (.resizeFile count) disk
  | syncFile {disk : Disk} : Legal synced .syncFile disk

namespace Wal

/-- An unfinished transaction spares what is committed, in memory and in the files. -/
structure Spares (wal : Wal) (files : Files) (wal' : Wal) (files' : Files) : Prop where
  holds : wal'.Holds files'.log
  identity : wal'.databaseId = wal.databaseId
  generation : wal'.generation = wal.generation
  committed : wal'.committed = wal.committed
  commitEnd : wal'.commitEnd = wal.commitEnd
  pages : files'.pages = files.pages
  redo : ∀ id, files'.log.redo id = files.log.redo id

/-- A write makes a page the latest version and spares what is committed. -/
structure Writes (wal : Wal) (files : Files) (id : PageId) (page : Page) (wal' : Wal)
    (files' : Files) : Prop where
  tracks : wal'.Tracks files'.log
  spares : Spares wal files wal' files'
  version : ∀ other, wal'.version files'.log other =
    if other = id then some page else wal.version files.log other
  pending : ∀ other, other ∈ wal'.pending ↔ other = id ∨ other ∈ wal.pending

/-- A finished transaction: what was the latest version is now the committed one. -/
structure Commits (wal : Wal) (files : Files) (page : Page) (wal' : Wal) (files' : Files) :
    Prop where
  tracks : wal'.Tracks files'.log
  identity : wal'.databaseId = wal.databaseId
  generation : wal'.generation = wal.generation
  commitEnd : wal'.commitEnd = wal.end_ + 1
  pending : wal'.pending = ∅
  pages : files'.pages = files.pages
  redo : ∀ id, files'.log.redo id = if id = 0 then some page else wal.version files.log id

/-- A log that was given up: nothing is left to redo. -/
structure Clears (wal : Wal) (files : Files) (wal' : Wal) (files' : Files) : Prop where
  tracks : wal'.Tracks files'.log
  identity : wal'.databaseId = wal.databaseId
  commitEnd : wal'.commitEnd = 0
  pending : wal'.pending = ∅
  pages : files'.pages = files.pages
  redo : ∀ id, files'.log.redo id = none

variable {may : FileCall → Disk → Prop} {synced : Prop} {wal wal' wal'' : Wal} {disk disk' : Disk}
variable {files files' files'' : Files} {log : LogFile}

theorem Spares.refl (holds : wal.Holds files.log) : Spares wal files wal files :=
  ⟨holds, rfl, rfl, rfl, rfl, rfl, fun _ => rfl⟩

/-- The write position moves before the frame is written. -/
theorem Tracks.moved (tracks : wal.Tracks log) :
    ({ wal with end_ := wal.end_ + 1 } : Wal).Holds log :=
  { tracks.toHolds with ordered := tracks.ordered.trans (Nat.le_succ _) }

theorem Spares.moved (tracks : wal.Tracks files.log) :
    Spares wal files { wal with end_ := wal.end_ + 1 } files :=
  ⟨tracks.moved, rfl, rfl, rfl, rfl, rfl, fun _ => rfl⟩

theorem Spares.trans (first : Spares wal files wal' files')
    (second : Spares wal' files' wal'' files'') : Spares wal files wal'' files'' :=
  ⟨second.holds, second.identity.trans first.identity, second.generation.trans first.generation,
    second.committed.trans first.committed, second.commitEnd.trans first.commitEnd,
    second.pages.trans first.pages, fun id => (second.redo id).trans (first.redo id)⟩

/-- Without a pending version the latest version is the committed one. -/
theorem Holds.version_eq_redo (holds : wal.Holds files.log) (none : wal.pending = ∅) (id : PageId) :
    wal.version files.log id = files.log.redo id := by
  simp [version, none, holds.redo_eq id]

theorem wp_readFrame {slot : Nat} {frame : Frame} {post : Page → Wal → Disk → Prop}
    {raised : Error → Wal → Disk → Prop} {asks : FileCall → Disk → Prop}
    (found : disk.files.log.slot slot = some frame) :
    Prog.wp may (readFrame slot) post raised asks wal disk ↔ post frame.page wal disk := by
  simp [readFrame, found]

/-- A read finds the latest version and disturbs nothing. -/
theorem wp_read (tracks : wal.Tracks disk.files.log) (id : PageId)
    {post : Option Page → Wal → Disk → Prop}
    {raised : Error → Wal → Disk → Prop} {asks : FileCall → Disk → Prop} :
    Prog.wp may (read id) post raised asks wal disk ↔
      post (wal.version disk.files.log id) wal disk := by
  unfold read
  simp only [Prog.wp_bind, Prog.wp_get]
  cases pending : wal.pending.lookup id with
  | some slot =>
    obtain ⟨_, _, frame, found, _⟩ := tracks.pending_points pending
    simp [wp_readFrame found, version, pending, LogFile.pageAt, found]
  | none =>
    cases committed : wal.committed.lookup id with
    | some slot =>
      obtain ⟨_, frame, found, _⟩ := tracks.committed_points committed
      simp [wp_readFrame found, version, pending, committed, LogFile.pageAt, found]
    | none => simp [version, pending, committed]

section Writes

/-- The log with the header of the generation in memory. -/
def headed (wal : Wal) (files : Files) : Files :=
  { files with log := { files.log with header := some ⟨wal.generation, wal.databaseId⟩ } }

theorem Holds.headed_eq (holds : wal.Holds files.log) (ready : wal.headerOk = true) :
    wal.headed files = files := by
  simp only [headed, ← holds.header ready]

theorem Tracks.headed (tracks : wal.Tracks files.log) :
    { wal with headerOk := true }.Tracks (wal.headed files).log := by
  cases ready : wal.headerOk with
  | false => exact tracks.writeHeader ready
  | true =>
    rw [tracks.headed_eq ready]
    simpa only [← ready] using tracks

theorem Spares.headed (holds : wal.Holds files.log) :
    Spares wal files { wal with headerOk := true } (wal.headed files) := by
  cases ready : wal.headerOk with
  | false =>
    have fresh := holds.writeHeader ready
    refine ⟨fresh, rfl, rfl, rfl, rfl, rfl, ?_⟩
    intro id
    rw [holds.redo_eq]
    exact fresh.redo_eq id
  | true =>
    have same := Spares.refl holds
    rw [holds.headed_eq ready]
    simpa only [← ready] using same

/-- A slot behind the last commit may take a plain frame or debris. -/
theorem Spares.place (holds : wal.Holds files.log) (ready : wal.headerOk = true) {slot : Nat}
    (behind : wal.commitEnd ≤ slot) (content : Slot)
    (plain : ∀ frame, content = some frame →
      frame.generation = wal.generation ∧ frame.commit = false) :
    Spares wal files wal { files with log := files.log.place slot content } :=
  ⟨holds.place ready behind content plain, rfl, rfl, rfl, rfl, rfl,
    holds.redo_place ready behind content plain⟩

/-- The disk once the header of the generation in memory is on it. -/
def headedDisk (wal : Wal) (disk : Disk) : Disk :=
  if wal.headerOk then disk
  else Device.perform (.writeLogHeader ⟨wal.generation, wal.databaseId⟩) disk

theorem Holds.headedDisk_files (holds : wal.Holds disk.files.log) :
    (wal.headedDisk disk).files = wal.headed disk.files := by
  cases ready : wal.headerOk with
  | false => simp [headedDisk, ready, headed, FileCall.effect]
  | true => simp [headedDisk, ready, holds.headed_eq ready]

/-- Writing the header uncovers nothing. -/
theorem vouched_headedDisk {commitEnd : Nat} (vouched : disk.Vouched commitEnd) :
    (wal.headedDisk disk).Vouched commitEnd := by
  unfold headedDisk
  split
  · exact vouched
  · exact vouched.imp_right fun covered => covered.perform (by simp)

/-- A write behind the last commit leaves it covered. -/
theorem vouched_writeFrame {commitEnd slot : Nat} {frame : Frame} (behind : commitEnd ≤ slot)
    (vouched : disk.Vouched commitEnd) :
    Disk.Vouched (Device.perform (.writeFrame slot frame) disk) commitEnd := by
  rcases vouched with none | covered
  · exact .inl none
  · by_cases none : commitEnd = 0
    · exact .inl none
    · exact .inr (covered_writeFrame.mpr ⟨by omega, covered⟩)

/-- The write of a frame: the header first if it is missing, then the frame. -/
theorem wp_writeFrame (holds : wal.Holds disk.files.log)
    {slot : Nat} {id : PageId} {commit : Bool} {page : Page}
    {post : Unit → Wal → Disk → Prop} {raised : Error → Wal → Disk → Prop} {asks : FileCall → Disk → Prop}
    (heading : wal.headerOk = false →
      asks (.writeLogHeader ⟨wal.generation, wal.databaseId⟩) disk)
    (halted : (∃ request disk, may request disk) → ∀ error disk', disk'.files = disk.files →
      raised error wal disk')
    (written : asks (.writeFrame slot (wal.frameOf id commit page)) (wal.headedDisk disk) ∧
      post () { wal with headerOk := true }
        (Device.perform (.writeFrame slot (wal.frameOf id commit page)) (wal.headedDisk disk)) ∧
      (may (.writeFrame slot (wal.frameOf id commit page)) (wal.headedDisk disk) → ∀ torn,
        raised (.sys "pwrite") { wal with headerOk := true }
          (Device.spoil (.writeFrame slot (wal.frameOf id commit page)) torn
            (wal.headedDisk disk)))) :
    Prog.wp may (writeFrame slot id commit page) post raised asks wal disk := by
  unfold writeFrame
  simp only [Prog.wp_bind, Prog.wp_get, Prog.wp_when]
  cases ready : wal.headerOk with
  | true =>
    rw [headedDisk, if_pos ready] at written
    rw [if_neg Bool.noConfusion, Prog.wp_call]
    simpa only [← ready, frameOf] using written
  | false =>
    rw [if_pos rfl]
    simp only [writeHeader, Prog.wp_bind, Prog.wp_get, Prog.wp_call, Prog.wp_modify]
    rw [headedDisk, if_neg (by simp [ready])] at written
    refine ⟨heading ready, written, ?_⟩
    intro allowed torn
    refine halted ⟨_, _, allowed⟩ _ _ ?_
    rcases files_spoil (.writeLogHeader ⟨wal.generation, wal.databaseId⟩) torn disk with same | torn
    · exact same
    · rw [torn]
      have empty := holds.blank ready
      simp only [FileCall.debris, empty]
      rw [← empty]

/-- A plain frame, or what is left of it, spares what is committed. -/
theorem Spares.frame (holds : wal.Holds files.log) {slot : Nat} (behind : wal.commitEnd ≤ slot)
    (id : PageId) (page : Page) (same : disk.files = wal.headed files) (torn : Bool) :
    Spares wal files { wal with headerOk := true }
        (Device.perform (.writeFrame slot (wal.frameOf id false page)) disk).files ∧
      Spares wal files { wal with headerOk := true }
        (Device.spoil (.writeFrame slot (wal.frameOf id false page)) torn disk).files := by
  have ready := Spares.headed holds
  constructor
  · refine ready.trans ?_
    rw [files_perform, same]
    exact Spares.place ready.holds rfl behind _ (by rintro frame ⟨⟩; exact ⟨rfl, rfl⟩)
  · rcases files_spoil (.writeFrame slot (wal.frameOf id false page)) torn disk with kept | broken
    · rw [kept, same]
      exact ready
    · rw [broken, same]
      exact ready.trans (Spares.place ready.holds rfl behind none (by simp))

/-- The two ways a write chooses its slot end alike. -/
private theorem wp_writeSlot (tracks : wal.Tracks disk.files.log) {id : PageId} {page : Page}
    {slot last : Nat} (owns : synced → wal.Owns disk.files)
    (covered : synced → disk.Vouched wal.commitEnd) (behind : wal.commitEnd ≤ slot) (grows : wal.end_ ≤ last)
    (own : wal.pending.lookup id = some slot ∨ slot = wal.end_)
    (placed : ({ wal with headerOk := true, end_ := last
                          pending := wal.pending.insert id slot } : Wal).Tracks
      ((wal.headed disk.files).log.place slot (some (wal.frameOf id false page)))) :
    Prog.wp may
      (do
        writeFrame slot id false page
        Prog.modify fun wal => { wal with pending := wal.pending.insert id slot })
      (fun _ wal' disk' => Writes wal disk.files id page wal' disk'.files ∧
        (disk.Vouched wal.commitEnd → disk'.Vouched wal'.commitEnd))
      (fun _ wal' disk' => (∃ request disk, may request disk) ∧
        Spares wal disk.files wal' disk'.files)
      (fun request disk' => Legal synced request disk' ∧
        ∃ wal', Spares wal disk.files wal' disk'.files)
      { wal with end_ := last } disk := by
  have holds : ({ wal with end_ := last } : Wal).Holds disk.files.log :=
    { tracks.toHolds with ordered := tracks.ordered.trans grows }
  have moved : Spares wal disk.files { wal with end_ := last } disk.files :=
    ⟨holds, rfl, rfl, rfl, rfl, rfl, fun _ => rfl⟩
  rw [Prog.wp_bind]
  refine wp_writeFrame holds
    (fun missing => ⟨.header _ holds missing owns, _, moved⟩) ?_ ?_
  · intro failed _ disk' same
    rw [same]
    exact ⟨failed, moved⟩
  · have same := holds.headedDisk_files
    have spared := Spares.frame holds behind id page same
    have ready := Spares.headed holds
    refine ⟨⟨?_, { wal with headerOk := true, end_ := last }, ?_⟩, ?_, fun allowed torn =>
      ⟨⟨_, _, allowed⟩, moved.trans (spared torn).2⟩⟩
    · exact .frame { wal with headerOk := true, end_ := last } (same ▸ ready.holds) rfl behind
        (fun syncs => vouched_headedDisk (covered syncs)) id page
    · rw [same]
      exact moved.trans ready
    · have whole := moved.trans (spared false).1
      rw [files_perform, same] at whole
      rw [Prog.wp_modify, files_perform, same]
      refine ⟨⟨placed, ⟨placed.toHolds, whole.identity, whole.generation, whole.committed,
        whole.commitEnd, whole.pages, whole.redo⟩, ?_, ?_⟩, ?_⟩
      · intro other
        split
        · subst other
          simp [version, LogFile.pageAt, FileCall.effect, frameOf]
        · rename_i different
          rw [← tracks.version_place own (some (wal.frameOf id false page)) different]
          simp only [version, AList.lookup_insert_ne different]
          rfl
      · intro other
        simp
      · intro vouched
        exact vouched_writeFrame behind (vouched_headedDisk vouched)

theorem wp_write (synced : Prop) (tracks : wal.Tracks disk.files.log)
    (owns : synced → wal.Owns disk.files) (covered : synced → disk.Vouched wal.commitEnd)
    (id : PageId) (page : Page) :
    Prog.wp may (write id page)
      (fun _ wal' disk' => Writes wal disk.files id page wal' disk'.files ∧
        (disk.Vouched wal.commitEnd → disk'.Vouched wal'.commitEnd))
      (fun _ wal' disk' => (∃ request disk, may request disk) ∧
        Spares wal disk.files wal' disk'.files)
      (fun request disk' => Legal synced request disk' ∧
        ∃ wal', Spares wal disk.files wal' disk'.files) wal disk := by
  unfold write
  simp only [Prog.wp_bind, Prog.wp_get, Prog.wp_set]
  have ready := tracks.headed
  cases found : wal.pending.lookup id with
  | some slot =>
    obtain ⟨behind, _⟩ := tracks.pending_points found
    exact Prog.wp_bind.mp <| wp_writeSlot tracks owns covered behind (Nat.le_refl _) (.inl found)
      (ready.rewrite rfl found page)
  | none =>
    exact Prog.wp_bind.mp <| wp_writeSlot tracks owns covered tracks.ordered (Nat.le_succ _) (.inr rfl)
      (ready.append rfl id page)

/-- The commit frame commits what was the latest version of every page. -/
theorem Tracks.commits (tracks : wal.Tracks files.log) (page : Page) :
    Commits wal files page
      { wal with
        headerOk := true, end_ := wal.end_ + 1, commitEnd := wal.end_ + 1, pending := ∅
        committed := (wal.pending ∪ wal.committed).insert 0 wal.end_ }
      { wal.headed files with
        log := (wal.headed files).log.place wal.end_ (some (wal.frameOf 0 true page)) } := by
  have ready := tracks.headed
  have after := ready.commit rfl page
  refine ⟨after, rfl, rfl, rfl, rfl, rfl, ?_⟩
  intro id
  refine (after.redo_eq id).trans ?_
  split
  · subst id
    simp [LogFile.pageAt, frameOf]
  · rename_i different
    rw [← tracks.version_place (.inr rfl) (some (wal.frameOf 0 true page)) different]
    simp only [version, AList.lookup_insert_ne different, lookup_union_eq]
    rfl

/-- A commit dies before its frame is written, having spared all, or after it. -/
theorem wp_commit (synced : Prop) (gentle : Gentle may) (tracks : wal.Tracks disk.files.log)
    (owns : synced → wal.Owns disk.files) (covered : synced → disk.Vouched wal.commitEnd)
    (page : Page) (sync : Bool) :
    Prog.wp may (commit page sync)
      (fun _ wal' disk' => Commits wal disk.files page wal' disk'.files ∧
        (sync = true → disk'.Vouched wal'.commitEnd))
      (fun _ wal' disk' => (∃ request disk, may request disk) ∧
        Spares wal disk.files wal' disk'.files ∧ wal'.pending = wal.pending)
      (fun request disk' => Legal synced request disk' ∧
        ∃ wal', Spares wal disk.files wal' disk'.files ∨
          Commits wal disk.files page wal' disk'.files) wal disk := by
  have holds := tracks.moved
  have moved := Spares.moved tracks
  unfold commit
  simp only [Prog.wp_bind, Prog.wp_get, Prog.wp_set]
  refine wp_writeFrame holds (fun missing => ⟨.header _ holds missing owns, _, .inl moved⟩) ?_ ?_
  · intro failed _ disk' same
    rw [same]
    exact ⟨failed, moved, rfl⟩
  · have same := holds.headedDisk_files
    have ready := moved.trans (Spares.headed holds)
    have done := tracks.commits page
    refine ⟨⟨?_, _, .inl (same ▸ ready)⟩, ?_, ?_⟩
    · exact .commit { wal with headerOk := true } (same ▸ tracks.headed) rfl
        (fun syncs => vouched_headedDisk (covered syncs)) page
    · simp only [Prog.wp_bind, Prog.wp_modify, Prog.wp_when, Wal.sync, Prog.wp_call]
      split
      · refine ⟨⟨.syncLog, _, .inr (by rw [files_perform, same]; exact done)⟩, ?_, ?_⟩
        · rw [files_perform, files_perform, same]
          exact ⟨done, fun _ => .inr covered_syncLog⟩
        · exact fun allowed => absurd allowed (gentle.spares (by simp) (by simp))
      · rename_i unsynced
        rw [files_perform, same]
        exact ⟨done, fun syncs => absurd syncs unsynced⟩
    · intro allowed torn
      refine ⟨⟨_, _, allowed⟩, ready.trans ?_, rfl⟩
      rcases files_spoil _ torn (headedDisk _ disk) with kept | broken
      · rw [kept, same]
        exact Spares.refl ready.holds
      · rw [broken, same]
        exact Spares.place ready.holds rfl tracks.ordered none (by simp)

end Writes

section Clearing

theorem Holds.redo_none (holds : wal.Holds log) (none : wal.commitEnd = 0) (id : PageId) :
    log.redo id = .none := by
  simp [holds.redo_eq, holds.committed_empty none]

theorem slotMap_empty {map : SlotMap} (empty : map.entries.isEmpty = true) : map = ∅ :=
  AList.ext (by simpa using empty)

/-- A reset is one write of the header, which no gentle failure hits. -/
theorem wp_reset (gentle : Gentle may) (holds : wal.Holds disk.files.log)
    (ready : wal.headerOk = true) (idle : wal.pending = ∅) {asks : FileCall → Disk → Prop}
    (asked : asks (.writeLogHeader ⟨wal.generation + 1, wal.databaseId⟩) disk) :
    Prog.wp may reset (fun _ wal' disk' => Clears wal disk.files wal' disk'.files)
      (fun _ _ _ => False) asks wal disk := by
  have cleared := holds.reset
  simp only [reset, writeHeader, checkThat, idle, Prog.wp_bind, Prog.wp_get, Prog.wp_modify,
    Prog.wp_call, AList.empty_entries, List.isEmpty_nil, ↓reduceIte, Prog.wp_pure]
  refine ⟨asked, ?_, ?_⟩
  · exact ⟨cleared, rfl, rfl, rfl, rfl, cleared.toHolds.redo_none rfl⟩
  · intro allowed
    rcases gentle _ _ allowed with ⟨_, _, impossible⟩ | ⟨_, empty⟩
    · cases impossible
    · have header := holds.header ready
      rw [empty] at header
      cases header

theorem wp_truncate (gentle : Gentle may) (idle : wal.pending = ∅)
    {asks : FileCall → Disk → Prop} (asked : asks .truncateLog disk) :
    Prog.wp may truncate (fun _ wal' disk' => Clears wal disk.files wal' disk'.files)
      (fun _ _ _ => False) asks wal disk := by
  simp only [truncate, checkThat, idle, Prog.wp_bind, Prog.wp_get, Prog.wp_modify,
    Prog.wp_call, AList.empty_entries, List.isEmpty_nil, ↓reduceIte, Prog.wp_pure]
  have cleared := tracks_empty { wal with generation := wal.generation + 1 }
  refine ⟨asked, ⟨cleared, rfl, rfl, rfl, rfl, cleared.toHolds.redo_none rfl⟩, ?_⟩
  exact fun allowed => absurd allowed (gentle.spares (by simp) (by simp))

/-- What recovery knows of a log: the committed part, and nothing pending. -/
structure Recovers (wal : Wal) (log : LogFile) (report : RecoveryReport) (wal' : Wal) : Prop where
  tracks : wal'.Tracks log
  identity : wal'.databaseId = wal.databaseId
  commitEnd : wal'.commitEnd = wal.commitEnd
  pending : wal'.pending = ∅
  transactions : report.transactions = 0 ↔ wal.commitEnd = 0
  found : report.found = wal'.headerOk

/-- Recovery needs no memory: another process's `wal` held this log. -/
theorem wp_recover (holds : wal.Holds disk.files.log) (draw : Nat)
    {post : RecoveryReport → Wal → Disk → Prop} {raised : Error → Wal → Disk → Prop}
    {asks : FileCall → Disk → Prop}
    (recovered : ∀ report wal', Recovers wal disk.files.log report wal' → post report wal' disk) :
    Prog.wp may recover post raised asks
      (construct wal.databaseId draw disk.files.log) disk := by
  cases ready : wal.headerOk with
  | false =>
    have empty := holds.blank ready
    have none := holds.blank_commitEnd ready
    simp only [recover, construct, empty, Prog.wp_bind, Prog.wp_get, Bool.false_eq_true,
      ↓reduceIte, Prog.wp_set, Prog.wp_pure]
    refine recovered _ _ ⟨?_, rfl, none.symm, rfl, by simp [none], rfl⟩
    rw [empty]
    exact tracks_empty ⟨wal.databaseId, draw, false, 0, 0, ∅, ∅⟩
  | true =>
    obtain ⟨committed, commitEnd, transactions⟩ := holds.scan_eq
    simp only [recover, construct, holds.header ready, Prog.wp_bind, Prog.wp_get, ↓reduceIte,
      Prog.wp_look, Prog.wp_set, Prog.wp_pure]
    simp only [LogFile.scan, holds.header ready] at committed commitEnd transactions
    refine recovered _ _ ⟨?_, rfl, commitEnd, rfl, transactions, rfl⟩
    have cut := holds.rollback
    refine ⟨⟨fun _ => holds.header ready, by simp, holds.fresh, holds.named, ?_, ?_, ?_, ?_, ?_⟩,
      ?_, ?_⟩
    · simpa only [commitEnd] using holds.accepted
    · intro id
      simpa only [commitEnd, committed id] using holds.scanned id
    · simpa only [commitEnd] using holds.scannedEnd
    · simpa only [commitEnd] using holds.quiet
    · exact Nat.le_refl _
    · simpa only [commitEnd] using holds.accepted
    · simpa only [commitEnd] using cut.tracked

end Clearing

end Wal

end Labdb.Storage
