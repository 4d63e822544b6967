import Labdb.Storage.Session

/-! What a commit that throws leaves, and what the rollback after it makes of that. Here
any call may fail: the reads of the checkpoint are calls, too. -/

namespace Labdb.Storage

open Labdb.Program

/-- The reads of a checkpoint that fail: of frames, by slot, and of the file's size. -/
structure ReadFaults where
  frame : Nat → Bool := fun _ => false
  size : Bool := false

namespace Pager

variable (faults : ReadFaults)

def copyFramesUnder : List (PageId × Nat) → PagerM Unit
  | [] => pure ()
  | (id, slot) :: rest => do
    Prog.when (faults.frame slot) (Prog.raise (.sys "pread"))
    let page ← onWal (Wal.readFrame slot)
    Prog.call (.writePage id page) (.sys "pwrite")
    copyFramesUnder rest

/-- A checkpoint some of whose reads fail. -/
def checkpointUnder : PagerM Unit := do
  let pager ← Prog.get
  checkThat (!pager.inTransaction) "checkpoint inside a transaction"
  let frames := pager.wal.committedFrames
  if frames.isEmpty then pure () else do
    Prog.when (pager.durability = .kNormal) (onWal Wal.sync)
    copyFramesUnder faults frames
    Prog.when faults.size (Prog.raise (.sys "fstat"))
    let disk ← Prog.look
    Prog.when (disk.files.pages.length < pager.meta_.pageCount)
      (Prog.call (.resizeFile pager.meta_.pageCount) (.sys "ftruncate"))
    Prog.when (pager.durability ≠ .kOff) (Prog.call .syncFile (.sys "fsync"))
    Prog.modify fun pager => { pager with filePages := max pager.filePages pager.meta_.pageCount }
    onWal Wal.reset

/-- A commit, some reads of whose checkpoint fail. -/
def commitUnder : PagerM Unit := do
  let pager ← Prog.get
  if pager.inTransaction then do
    commitLog
    let pager ← Prog.get
    Prog.when (pager.checkpointFrames ≤ pager.wal.end_) (checkpointUnder faults)
  else pure ()

private theorem copyFramesUnder_nofault (frames : List (PageId × Nat)) :
    copyFramesUnder {} frames = copyFrames frames := by
  induction frames with
  | nil => rfl
  | cons entry rest ih =>
    rw [copyFramesUnder, copyFrames, ih]
    rfl

/-- Where all reads succeed it is the commit of the pager. -/
theorem commitUnder_nofault : commitUnder {} = commit := by
  unfold commitUnder commit checkpointUnder checkpoint
  simp only [copyFramesUnder_nofault]
  rfl

/-- The pager reads this database: its meta fields and every page. -/
def Reads (pager : Pager) (disk : Disk) (database : Database) : Prop :=
  pager.meta_ = database.fields ∧ ∀ id, database.Covers id →
    (readPage id).run [] pager disk = (.returned (database.page id) pager, disk)

end Pager

/-- A process that opens the files next reads this database. -/
def Disk.Reopens (disk : Disk) (database : Database) : Prop :=
  ∀ draws, ∃ pager disk', (Pager.construct draws).run [] {} disk = (.returned () pager, disk') ∧
    pager.Reads disk' database

/-- The pager reads the database, and so does a process after it. -/
def Pager.Agrees (pager : Pager) (disk : Disk) (database : Database) : Prop :=
  pager.Reads disk database ∧ disk.Reopens database

namespace Pager

variable {pager : Pager} {disk : Disk} {acked current database : Database} {files files' : Files}

theorem Shows.reads (shows : pager.Shows disk.files acked current) : pager.Reads disk current :=
  ⟨shows.meta_, fun _ => run_readPage shows⟩

/-- Where a page is found: in a frame of the log, in the file, or beyond its end. -/
def Finds (pager : Pager) (files : Files) (id : PageId) (page : Page) : Prop :=
  match (pager.wal.pending.lookup id).or (pager.wal.committed.lookup id) with
  | some slot => files.log.pageAt slot = some page
  | none => if id < pager.filePages then files.pages[id]? = some page else page = {}

private theorem finds_logged {id : PageId} {page : Page} {slot : Nat}
    (found : (pager.wal.pending.lookup id).or (pager.wal.committed.lookup id) = some slot)
    (present : files.log.pageAt slot = some page) : pager.Finds files id page := by
  simpa only [Finds, found] using present

private theorem finds_filed {id : PageId} {page : Page}
    (found : (pager.wal.pending.lookup id).or (pager.wal.committed.lookup id) = none)
    (longer : pager.filePages ≤ files.pages.length) (same : files.page id = page)
    (beyond : pager.filePages ≤ id → page = {}) : pager.Finds files id page := by
  simp only [Finds, found]
  split
  · rename_i inside
    have inside' := Nat.lt_of_lt_of_le inside longer
    simpa [Files.page, List.getD_eq_getElem?_getD, inside'] using same
  · rename_i outside
    exact beyond (Nat.le_of_not_lt outside)

/-- What is left of a pager that can still be read. -/
structure Legible (pager : Pager) (files : Files) (database : Database) : Prop where
  meta_ : pager.meta_ = database.fields
  pages : ∀ id, database.Covers id → pager.Finds files id (database.page id)
  named : database.Named

theorem Legible.reads (legible : pager.Legible disk.files database) :
    pager.Reads disk database := by
  refine ⟨legible.meta_, fun id covers => ?_⟩
  have found := legible.pages id covers
  have named := legible.named.pages id
  have range : id ≠ 0 ∧ id < pager.meta_.pageCount := by
    rw [legible.meta_]
    exact covers
  have read : Prog.wp Never (readPage id)
      (fun page pager' disk' => page = database.page id ∧ pager' = pager ∧ disk' = disk)
      (fun _ _ _ => False) (fun _ _ => True) pager disk := by
    unfold readPage
    simp only [Prog.wp_bind, Prog.wp_get, wp_checkThat, decide_eq_true_eq, if_pos range, onWal,
      Prog.wp_zoom, Wal.read]
    unfold Finds at found
    cases pending : pager.wal.pending.lookup id with
    | some slot =>
      simp only [pending, Option.some_or, LogFile.pageAt, Option.map_eq_some_iff] at found
      obtain ⟨frame, present, same⟩ := found
      simpa [Prog.wp_bind, Wal.wp_readFrame present, wp_checkThat, same] using named
    | none =>
      cases committed : pager.wal.committed.lookup id with
      | some slot =>
        simp only [pending, committed, Option.none_or, LogFile.pageAt,
          Option.map_eq_some_iff] at found
        obtain ⟨frame, present, same⟩ := found
        simpa [Prog.wp_bind, Wal.wp_readFrame present, wp_checkThat, same] using named
      | none =>
        simp only [pending, committed, Option.none_or] at found
        by_cases inside : id < pager.filePages
        · rw [if_pos inside] at found
          simpa [wp_checkThat, inside, found] using named
        · rw [if_neg inside] at found
          simp [wp_checkThat, inside, found]
  have ran := Prog.run_of_wp_nil read
  generalize (readPage id).run [] pager disk = ended at ran ⊢
  rcases ended with ⟨_ | _ | _, _⟩
  · obtain ⟨rfl, rfl, rfl⟩ := ran
    rfl
  · exact ran.elim
  · exact ran.elim

/-- Opening what a process left of a sound database reads it. -/
theorem reopens_of_sound (sound : disk.files.Sound database) : disk.Reopens database := by
  intro draws
  have ran := Prog.run_of_wp_nil (@wp_construct _ False {} _ _ gentle_never sound nofun draws)
  generalize (construct draws).run [] {} disk = ended at ran ⊢
  rcases ended with ⟨⟨_, pager⟩ | _ | _, disk'⟩
  · exact ⟨pager, disk', rfl, Shows.reads ran.shows⟩
  · exact ran.elim
  · exact ran.elim

/-- The file alone holds the database; nothing is to be had from the log. -/
structure Filed (files : Files) (databaseId : Nat) (database : Database) : Prop where
  fields : (files.page 0).body = .record database.fields databaseId
  pages : ∀ id, id ≠ 0 → files.page id = database.page id
  sized : database.fields.pageCount ≤ files.pages.length
  counted : 0 < database.fields.pageCount
  named : database.Named

theorem Filed.congr {databaseId : Nat} (filed : Filed files databaseId database)
    (pages : files'.pages = files.pages) : Filed files' databaseId database := by
  have page : ∀ id, files'.page id = files.page id := by
    intro id
    simp only [Files.page, pages]
  exact ⟨page 0 ▸ filed.fields, fun id inside => (page id).trans (filed.pages id inside),
    pages ▸ filed.sized, filed.counted, filed.named⟩

/-- A pager whose log maps are empty reads the file. -/
theorem Filed.legible {databaseId : Nat} (filed : Filed files databaseId database)
    (meta_ : pager.meta_ = database.fields) (pending : pager.wal.pending = ∅)
    (committed : pager.wal.committed = ∅) (filePages : pager.filePages = files.pages.length) :
    pager.Legible files database := by
  refine ⟨meta_, fun id covers => ?_, filed.named⟩
  have same := filed.pages id covers.1
  refine finds_filed (by simp [pending, committed]) (Nat.le_of_eq filePages) same fun beyond => ?_
  rw [filePages] at beyond
  exact absurd (Nat.lt_of_lt_of_le covers.2 filed.sized) (Nat.not_lt.mpr beyond)

/-- A log whose header is torn is set aside, and the file read. -/
theorem Filed.reopens {databaseId : Nat} (filed : Filed disk.files databaseId database)
    (torn : disk.files.log.header = none) : disk.Reopens database := by
  intro draws
  have opened : Prog.wp Never (construct draws)
      (fun _ pager' disk' => pager'.Legible disk'.files database) (fun _ _ _ => False)
      (fun _ _ => True) {} disk := by
    have some_ := Nat.lt_of_lt_of_le filed.counted filed.sized
    cases pages : disk.files.pages with
    | nil => simp [pages] at some_
    | cons page rest =>
      have first : page.body = .record database.fields databaseId := by
        simpa [Files.page, pages] using filed.fields
      have sized := filed.sized
      simp only [construct, openLog, openDatabase, Prog.wp_bind, Prog.wp_look, pages, first,
        Prog.wp_pure, Prog.wp_set, onWal, Prog.wp_zoom, Wal.recover, Wal.construct, torn,
        Prog.wp_get, Bool.false_eq_true, if_false, Prog.wp_bind, Nat.lt_irrefl, wp_checkThat,
        decide_eq_true_eq]
      rw [pages] at sized
      rw [if_pos sized]
      exact filed.legible rfl rfl rfl (congrArg List.length pages).symm
  have ran := Prog.run_of_wp_nil opened
  generalize (construct draws).run [] {} disk = ended at ran ⊢
  rcases ended with ⟨⟨_, pager⟩ | _ | _, disk'⟩
  · exact ⟨pager, disk', rfl, Legible.reads ran⟩
  · exact ran.elim
  · exact ran.elim

/-- The pager after a rollback. -/
def rolledBack (pager : Pager) : Pager :=
  { pager with
    wal := { pager.wal with pending := ∅, end_ := pager.wal.commitEnd }
    meta_ := pager.committedMeta, metaDirty := false }

private theorem run_rollback_eq :
    rollback.run [] pager disk = (.returned () pager.rolledBack, disk) := rfl

/-- While the log is kept a rollback returns to what was committed last, whatever part
of it was copied into the file. -/
theorem Keeps.agrees (keeps : pager.Keeps files database) (log : disk.files.log = files.log)
    (stores : disk.files.Stores pager.databaseId database)
    (longer : files.pages.length ≤ disk.files.pages.length) :
    pager.rolledBack.Agrees disk database := by
  have holds := keeps.holds
  have sound : disk.files.Sound database :=
    .inr ⟨pager.wal, log ▸ holds, keeps.identity ▸ stores⟩
  refine ⟨Legible.reads ⟨keeps.committed, fun id covers => ?_, stores.named⟩, reopens_of_sound sound⟩
  have filed := stores.pages id covers.1
  have before := keeps.stores.pages id covers.1
  rw [log, holds.redo_eq] at filed
  rw [holds.redo_eq] at before
  cases committed : pager.wal.committed.lookup id with
  | some slot =>
    obtain ⟨_, frame, present, _⟩ := holds.committed_points committed
    simp only [committed, Option.bind_some, LogFile.pageAt, present, Option.map_some,
      Option.getD_some] at before
    refine finds_logged (by simpa [rolledBack] using committed) ?_
    simp only [LogFile.pageAt, log, present, Option.map_some, before]
  | none =>
    simp only [committed, Option.bind_none, Option.getD_none] at filed before
    refine finds_filed (by simpa [rolledBack] using committed) (keeps.filePages ▸ longer) filed ?_
    intro beyond
    have outside : files.pages.length ≤ id := keeps.filePages ▸ beyond
    simpa [Files.page, List.getD_eq_getElem?_getD, outside] using before.symm

/-- Any call may fail. -/
def Always : FileCall → Disk → Prop := fun _ _ => True

/-- What must hold where a checkpoint throws. -/
def Throws (database : Database) (_ : Error) (pager : Pager) (disk : Disk) : Prop :=
  pager.rolledBack.Agrees disk database

private theorem wp_raise_when {condition : Prop} [Decidable condition] {error : Error}
    {post : Unit → Pager → Disk → Prop} {raised : Error → Pager → Disk → Prop}
    {asks : FileCall → Disk → Prop} (thrown : raised error pager disk)
    (passed : post () pager disk) :
    Prog.wp Always (Prog.when condition (Prog.raise error)) post raised asks pager disk := by
  rw [Prog.wp_when]
  split
  · exact thrown
  · exact passed

private theorem wp_copyFramesUnder (faults : ReadFaults) {frames : List (PageId × Nat)}
    (keeps : pager.Keeps files current)
    (listed : ∀ entry ∈ frames, pager.wal.committed.lookup entry.1 = some entry.2)
    (copies : Copies files disk.files pager.databaseId current) :
    Prog.wp Always (copyFramesUnder faults frames)
      (fun _ pager' disk' => pager' = pager ∧ Copies files disk'.files pager.databaseId current ∧
        ∀ id page, files.log.redo id = some page →
          (∃ slot, (id, slot) ∈ frames) ∨ disk.files.page id = page → disk'.files.page id = page)
      (Throws current) (fun _ _ => True) pager disk := by
  induction frames generalizing disk with
  | nil =>
    refine ⟨rfl, copies, ?_⟩
    rintro id page _ (⟨slot, impossible⟩ | same)
    · cases impossible
    · exact same
  | cons entry rest ih =>
    obtain ⟨id, slot⟩ := entry
    have committed := listed (id, slot) (by simp)
    obtain ⟨_, frame, present, _⟩ := keeps.holds.committed_points committed
    have found : files.log.redo id = some frame.page := by
      simp [keeps.holds.redo_eq, committed, LogFile.pageAt, present]
    have thrown : ∀ error, Throws current error pager disk := fun _ =>
      keeps.agrees copies.log copies.stores copies.longer
    rw [← copies.log] at present
    unfold copyFramesUnder
    rw [Prog.wp_bind]
    refine wp_raise_when (thrown _) ?_
    simp only [onWal, Prog.wp_bind, Prog.wp_zoom, Wal.wp_readFrame present, Prog.wp_call]
    refine ⟨trivial, ?_, fun _ torn => ?_⟩
    · have after : Copies files (Device.perform (.writePage id frame.page) disk).files
          pager.databaseId current := copies.write found
      refine Prog.wp_mono (ih (fun entry member => listed entry (by simp [member])) after) ?_
        (fun _ _ _ thrown => thrown) fun _ _ _ => trivial
      rintro _ pager' disk' ⟨same, copied, done⟩
      refine ⟨same, copied, fun other page redone before => done other page redone ?_⟩
      have placed := getD_placeAt ({} : Page) disk.files.pages id other frame.page
      by_cases own : id = other
      · subst other
        rw [if_pos rfl] at placed
        exact .inr (placed.trans (Option.some.inj (found.symm.trans redone)))
      · rw [if_neg own] at placed
        rcases before with ⟨slot', member⟩ | same
        · rcases List.mem_cons.mp member with head | tail
          · cases head
            exact absurd rfl own
          · exact .inl ⟨slot', tail⟩
        · exact .inr (placed.trans same)
    · have longer := copies.longer
      rcases files_spoil (.writePage id frame.page) torn disk with whole | torn
      · exact keeps.agrees (whole ▸ copies.log) (whole ▸ copies.stores) (whole ▸ longer)
      · refine keeps.agrees (torn ▸ copies.log) ?_ ?_
        · rw [torn]
          exact copies.stores.overwrite (copies.log ▸ found) fun first => first ▸ copies.stores.filed.2
        · rw [torn, FileCall.debris, length_placeAt]
          omega

/-- A call that changes no content, done or not. -/
theorem wp_quiet_any {condition : Prop} [Decidable condition] {request : FileCall} {failure : Error}
    {post : Unit → Pager → Disk → Prop} {raised : Error → Pager → Disk → Prop}
    (quiet : request.effect disk.files = disk.files) (still : request.debris disk.files = disk.files)
    (passed : ∀ disk', disk'.files = disk.files → post () pager disk')
    (thrown : ∀ disk', disk'.files = disk.files → raised failure pager disk') :
    Prog.wp Always (Prog.when condition (Prog.call request failure)) post raised (fun _ _ => True)
      pager disk := by
  rw [Prog.wp_when]
  split
  · refine ⟨trivial, passed _ quiet, fun _ torn => thrown _ ?_⟩
    rcases files_spoil request torn disk with whole | torn
    · exact whole
    · exact torn.trans still
  · exact passed disk rfl

/-- The last call of a checkpoint: the file holds everything, whatever becomes of the
log's header. -/
theorem wp_resetUnder (keeps : pager.Keeps disk.files current)
    (pending : pager.wal.pending = ∅)
    (copied : ∀ id page, disk.files.log.redo id = some page → disk.files.page id = page)
    (sized : current.fields.pageCount ≤ disk.files.pages.length) :
    Prog.wp Always (onWal Wal.reset) (fun _ _ _ => True) (Throws current) (fun _ _ => True)
      pager disk := by
  have filed : Filed disk.files pager.databaseId current := by
    have same : ∀ id, (disk.files.log.redo id).getD (disk.files.page id) = disk.files.page id := by
      intro id
      cases found : disk.files.log.redo id with
      | none => rfl
      | some page => exact (copied id page found).symm
    refine ⟨?_, fun id inside => ?_, sized, keeps.stores.counted, keeps.stores.named⟩
    · rw [← same]
      exact keeps.stores.fields
    · rw [← same]
      exact keeps.stores.pages id inside
  rw [onWal, Prog.wp_zoom]
  simp only [Wal.reset, Wal.writeHeader, checkThat, pending, AList.empty_entries, List.isEmpty_nil,
    ↓reduceIte, Prog.wp_bind, Prog.wp_get, Prog.wp_pure, Prog.wp_modify, Prog.wp_call]
  refine ⟨trivial, trivial, fun _ torn => ?_⟩
  have spoiled := files_spoil (.writeLogHeader ⟨pager.wal.generation + 1, pager.wal.databaseId⟩) torn
    disk
  have pages : (Device.spoil (FileCall.writeLogHeader ⟨pager.wal.generation + 1,
      pager.wal.databaseId⟩) torn disk).files.pages = disk.files.pages := by
    rcases spoiled with whole | torn
    · rw [whole]
    · rw [torn, FileCall.debris]
  have filed' := filed.congr pages
  refine ⟨Legible.reads (filed'.legible keeps.committed rfl rfl ?_), ?_⟩
  · rw [pages]
    exact keeps.filePages
  · rcases spoiled with whole | torn
    · exact reopens_of_sound (whole ▸ keeps.sound)
    · exact filed'.reopens (by rw [torn, FileCall.debris])

/-- A checkpoint that throws leaves what was committed last to be read, in the log or
in the file. -/
theorem wp_checkpointUnder (faults : ReadFaults) (shows : pager.Shows disk.files current current)
    (idle : pager.inTransaction = false) :
    Prog.wp Always (checkpointUnder faults) (fun _ _ _ => True) (Throws current)
      (fun _ _ => True) pager disk := by
  have keeps := shows.toKeeps
  obtain ⟨pending, clean⟩ := inTransaction_eq_false.mp idle
  unfold checkpointUnder
  simp only [Prog.wp_bind, Prog.wp_get, wp_checkThat, idle, Bool.not_false, ↓reduceIte,
    Prog.wp_ite, Prog.wp_pure]
  split
  · trivial
  · rw [onWal_sync]
    refine wp_quiet_any rfl rfl ?_ fun disk' same =>
      keeps.agrees (same ▸ rfl) (same ▸ keeps.stores) (same ▸ Nat.le_refl _)
    intro disk' same
    rw [← same] at keeps shows
    rw [Prog.wp_bind]
    refine Prog.wp_mono (wp_copyFramesUnder faults keeps (fun entry => mem_committedFrames.mp)
      (Copies.refl keeps.stores)) ?_ (fun _ _ _ thrown => thrown) fun _ _ asked => asked
    rintro _ pager' disk'' ⟨same', copies, copied⟩
    obtain rfl : pager = pager' := same'.symm
    have thrown : ∀ (error : Error) (later : Disk), later.files = disk''.files →
        Throws current error pager later := fun _ later same =>
      keeps.agrees (same ▸ copies.log) (same ▸ copies.stores) (same ▸ copies.longer)
    rw [Prog.wp_bind]
    refine wp_raise_when (thrown _ _ rfl) ?_
    rw [Prog.wp_bind, Prog.wp_look, Prog.wp_bind]
    -- from the sync on, the file is as long as the database
    have finish : ∀ later : Disk, later.files.log = disk'.files.log →
        later.files.Stores pager.databaseId current →
        (∀ id page, later.files.log.redo id = some page → later.files.page id = page) →
        later.files.pages.length = max pager.filePages pager.meta_.pageCount →
        Prog.wp Always
          (do
            Prog.when (pager.durability ≠ .kOff) (Prog.call .syncFile (.sys "fsync"))
            Prog.modify fun pager =>
              { pager with filePages := max pager.filePages pager.meta_.pageCount }
            onWal Wal.reset)
          (fun _ _ _ => True) (Throws current) (fun _ _ => True) pager later := by
      intro later log stores copied length
      rw [Prog.wp_bind]
      refine wp_quiet_any rfl rfl ?_ fun later' same =>
        keeps.agrees (same ▸ log) (same ▸ stores) (same ▸ ?_)
      · intro later' same
        rw [← same] at log stores copied length
        rw [Prog.wp_bind, Prog.wp_modify]
        refine wp_resetUnder ⟨log ▸ keeps.holds, keeps.identity, stores, keeps.committed,
          length.symm⟩ pending copied ?_
        rw [length, ← shows.meta_]
        exact Nat.le_max_right ..
      · rw [length, ← keeps.filePages]
        exact Nat.le_max_left ..
    have longer := copies.longer
    have shorter := copies.shorter
    rw [← shows.meta_] at shorter
    rw [← keeps.filePages] at longer shorter
    have everything : ∀ id page, disk''.files.log.redo id = some page →
        disk''.files.page id = page := by
      intro id page found
      rw [copies.log] at found
      refine copied id page found (.inl ?_)
      rw [keeps.holds.redo_eq] at found
      obtain ⟨slot, committed, _⟩ := Option.bind_eq_some_iff.mp found
      exact ⟨slot, mem_committedFrames.mpr committed⟩
    rw [Prog.wp_when]
    split
    · rename_i short
      refine ⟨trivial, ?_, fun _ torn => thrown (.sys "ftruncate") _ ?_⟩
      · refine finish _ copies.log (copies.stores.resize (Nat.le_of_lt short)) ?_ ?_
        · intro id page found
          exact (getD_takeD ({} : Page) disk''.files.pages pager.meta_.pageCount id
            (Nat.le_of_lt short)).trans (everything id page found)
        · simp only [files_perform, FileCall.effect, List.takeD_length]
          omega
      · rcases files_spoil (.resizeFile pager.meta_.pageCount) torn disk'' with whole | torn
        · exact whole
        · exact torn
    · refine finish disk'' copies.log copies.stores everything ?_
      omega

/-- The memory of the log once the commit frame is written. -/
def committedWal (wal : Wal) : Wal :=
  { wal with
    headerOk := true, end_ := wal.end_ + 1, commitEnd := wal.end_ + 1, pending := ∅
    committed := (wal.pending ∪ wal.committed).insert 0 wal.end_ }

/-- What follows the commit frame. -/
def settleCommit (pager : Pager) : Action Disk FileCall (Except Error Unit × Pager) :=
  let written := { pager with wal := committedWal pager.wal }
  let done := (Except.ok (), { written with committedMeta := pager.meta_, metaDirty := false })
  if pager.durability = .kFull then
    .call .syncLog fun answer =>
      .ret (if answer then done else (.error (.sys "fsync"), written))
  else .ret done

/-- The commit frame and what follows it. -/
def writeCommit (pager : Pager) (wal : Wal) : Action Disk FileCall (Except Error Unit × Pager) :=
  .call (.writeFrame pager.wal.end_ (pager.wal.frameOf 0 true pager.metaPage)) fun answer =>
    if answer then settleCommit pager
    else .ret (.error (.sys "pwrite"), { pager with wal := { wal with end_ := wal.end_ + 1 } })

/-- The calls of a commit up to its checkpoint, written out. -/
theorem commitLog_eq : commitLog pager =
    if pager.wal.headerOk then writeCommit pager pager.wal
    else .call (.writeLogHeader ⟨pager.wal.generation, pager.wal.databaseId⟩) fun answer =>
      if answer then writeCommit pager { pager.wal with headerOk := true }
      else .ret (.error (.sys "pwrite"),
        { pager with wal := { pager.wal with end_ := pager.wal.end_ + 1 } }) := by
  obtain ⟨meta_, databaseId, committedMeta, metaDirty, filePages, wal, durability,
    checkpointFrames⟩ := pager
  obtain ⟨databaseId', generation, headerOk, end_, commitEnd, committed, pending⟩ := wal
  cases headerOk with
  | true =>
    refine congrArg (Action.call _) (funext fun answer => ?_)
    cases answer
    · rfl
    · cases durability
      · refine congrArg (Action.call _) (funext fun answer => ?_)
        cases answer <;> rfl
      · rfl
      · rfl
  | false =>
    refine congrArg (Action.call _) (funext fun answer => ?_)
    cases answer
    · rfl
    · refine congrArg (Action.call _) (funext fun answer => ?_)
      cases answer
      · rfl
      · cases durability
        · refine congrArg (Action.call _) (funext fun answer => ?_)
          cases answer <;> rfl
        · rfl
        · rfl
/-- What a commit goes on to. -/
def goOn (faults : ReadFaults) : Except Error Unit × Pager →
    Action Disk FileCall (Except Error Unit × Pager)
  | (.ok _, pager) =>
    Prog.when (pager.checkpointFrames ≤ pager.wal.end_) (checkpointUnder faults) pager
  | (.error error, pager) => .ret (.error error, pager)

private theorem commitUnder_eq (faults : ReadFaults) (busy : pager.inTransaction = true) :
    commitUnder faults pager = (commitLog pager).bind (goOn faults) := by
  have unfolded : commitUnder faults pager =
      (if pager.inTransaction then
        (do
          commitLog
          let pager ← Prog.get
          Prog.when (pager.checkpointFrames ≤ pager.wal.end_) (checkpointUnder faults))
      else pure () : PagerM Unit) pager := rfl
  rw [unfolded, if_pos busy]
  refine congrArg _ (funext fun ended => ?_)
  rcases ended with ⟨_ | _, _⟩ <;> rfl

private theorem run_when_checkpoint (faults : ReadFaults) {fates : List Fate} {error : Error}
    {pager' : Pager} {disk' : Disk} {condition : Prop} [Decidable condition]
    (shows : pager.Shows disk.files current current) (idle : pager.inTransaction = false)
    (ended : (Prog.when condition (checkpointUnder faults) pager).run fates disk =
      (some (.error error, pager'), disk')) : Throws current error pager' disk' := by
  have valid : Prog.wp Always (Prog.when condition (checkpointUnder faults)) (fun _ _ _ => True)
      (Throws current) (fun _ _ => True) pager disk := by
    rw [Prog.wp_when]
    split
    · exact wp_checkpointUnder faults shows idle
    · trivial
  have ran : Prog.Meets _ _ _ (Prog.run _ fates pager disk) := Prog.run_of_wp_any valid
  simpa only [Prog.run, ended, Prog.Meets] using ran

private theorem run_settleCommit (faults : ReadFaults) {fates : List Fate} {error : Error}
    {pager' : Pager} {disk' : Disk}
    (shows : Shows { pager with
      wal := committedWal pager.wal, committedMeta := pager.meta_, metaDirty := false }
        disk.files current current)
    (ended : ((settleCommit pager).bind (goOn faults)).run fates disk =
      (some (.error error, pager'), disk')) :
    (pager.durability = .kFull ∧ (∃ torn rest, fates = .fails torn :: rest) ∧
      pager' = { pager with wal := committedWal pager.wal } ∧ disk'.files = disk.files) ∨
    ¬ (pager.durability = .kFull ∧ ∃ torn rest, fates = .fails torn :: rest) ∧
      Throws current error pager' disk' := by
  have idle : inTransaction { pager with
      wal := committedWal pager.wal, committedMeta := pager.meta_, metaDirty := false } = false := rfl
  unfold settleCommit at ended
  split at ended
  · rename_i full
    rcases fates with _ | ⟨_ | torn | _, fates⟩
    · refine .inr ⟨by simp, run_when_checkpoint faults ?_ idle ended⟩
      exact shows
    · refine .inr ⟨by simp, run_when_checkpoint faults ?_ idle ended⟩
      exact shows
    · refine .inl ⟨full, ⟨torn, fates, rfl⟩, ?_⟩
      change (Action.ret (Except.error (Error.sys "fsync"),
        { pager with wal := committedWal pager.wal })).run fates _ = _ at ended
      obtain ⟨same, rfl⟩ := Action.run_ret ended
      cases same
      refine ⟨rfl, ?_⟩
      rcases files_spoil .syncLog torn disk with whole | torn
      · exact whole
      · exact torn
    · cases ended
  · rename_i notFull
    exact .inr ⟨fun both => notFull both.1, run_when_checkpoint faults shows idle ended⟩

/-- A pager that was only spared is rolled back to what was committed last. -/
theorem Keeps.throws (keeps : pager.Keeps disk.files acked) {error : Error} :
    Throws acked error pager disk :=
  keeps.agrees rfl keeps.stores (Nat.le_refl _)

private theorem run_writeCommit (faults : ReadFaults) {fates : List Fate} {error : Error}
    {pager' : Pager} {before disk' : Disk} (shows : pager.Shows before.files acked current)
    (headed : disk.files = pager.wal.headed before.files)
    (ended : ((writeCommit pager { pager.wal with headerOk := true }).bind (goOn faults)).run
      fates disk = (some (.error error, pager'), disk')) :
    (pager.durability = .kFull ∧ (∃ torn rest, fates = .done :: .fails torn :: rest) ∧
      pager' = { pager with wal := committedWal pager.wal } ∧
      Shows { pager with
        wal := committedWal pager.wal, committedMeta := pager.meta_, metaDirty := false }
          disk'.files current current) ∨
    ¬ (pager.durability = .kFull ∧ ∃ torn rest, fates = .done :: .fails torn :: rest) ∧
      (Throws acked error pager' disk' ∨ Throws current error pager' disk') := by
  let written := Device.perform
    (FileCall.writeFrame pager.wal.end_ (pager.wal.frameOf 0 true pager.metaPage)) disk
  have settled : Shows { pager with
      wal := committedWal pager.wal, committedMeta := pager.meta_, metaDirty := false }
        written.files current current := by
    refine shows.commits ?_
    have frame := shows.tracks.commits pager.metaPage
    rwa [← headed] at frame
  rcases fates with _ | ⟨_ | torn | _, fates⟩
  · rcases run_settleCommit faults settled ended with ⟨full, ⟨torn, rest, impossible⟩, _⟩ | ⟨_, thrown⟩
    · cases impossible
    · exact .inr ⟨by simp, .inr thrown⟩
  · rcases run_settleCommit faults settled ended with ⟨full, ⟨torn, rest, rfl⟩, same, files⟩ | ⟨fails, thrown⟩
    · exact .inl ⟨full, ⟨torn, rest, rfl⟩, same, files ▸ settled⟩
    · refine .inr ⟨?_, .inr thrown⟩
      rintro ⟨full, torn, rest, same⟩
      cases same
      exact fails ⟨full, torn, rest, rfl⟩
  · refine .inr ⟨by simp, .inl ?_⟩
    change (Action.ret (Except.error (Error.sys "pwrite"), { pager with
      wal := { pager.wal with headerOk := true, end_ := pager.wal.end_ + 1 } })).run fates _ = _ at ended
    obtain ⟨same, rfl⟩ := Action.run_ret ended
    cases same
    have ready := (Wal.Spares.moved shows.tracks).trans (Wal.Spares.headed shows.tracks.moved)
    refine Keeps.throws (shows.spares (ready.trans ?_))
    rcases files_spoil (.writeFrame pager.wal.end_ (pager.wal.frameOf 0 true pager.metaPage)) torn
      disk with whole | torn
    · rw [whole, headed]
      exact Wal.Spares.refl ready.holds
    · rw [torn, headed]
      exact Wal.Spares.place ready.holds rfl shows.tracks.ordered none (by simp)
  · cases ended

/-- The sync of the log after the commit frame fails. -/
def SyncFails (pager : Pager) (fates : List Fate) : Prop :=
  pager.durability = .kFull ∧ ∃ torn rest,
    fates = (if pager.wal.headerOk then [.done] else [.done, .done]) ++ .fails torn :: rest

/-- Where a commit throws: within the sync of the log, or so that a rollback undoes it. -/
theorem run_commitUnder (faults : ReadFaults) {fates : List Fate} {error : Error}
    {pager' : Pager} {disk' : Disk} (shows : pager.Shows disk.files acked current)
    (thrown : (commitUnder faults).run fates pager disk = (.raised error pager', disk')) :
    (pager.SyncFails fates ∧ pager' = { pager with wal := committedWal pager.wal } ∧
      Shows { pager with
        wal := committedWal pager.wal, committedMeta := pager.meta_, metaDirty := false }
          disk'.files current current) ∨
    ¬ pager.SyncFails fates ∧
      (Throws acked error pager' disk' ∨ Throws current error pager' disk') := by
  have ended : (commitUnder faults pager).run fates disk = (some (.error error, pager'), disk') := by
    revert thrown
    unfold Prog.run
    rcases (commitUnder faults pager).run fates disk with ⟨_ | ⟨_ | _, _⟩, _⟩ <;> intro thrown <;>
      cases thrown
    rfl
  cases busy : pager.inTransaction with
  | false =>
    have unfolded : commitUnder faults pager = .ret (.ok (), pager) := by
      have same : commitUnder faults pager = (if pager.inTransaction then _ else pure () :
        PagerM Unit) pager := rfl
      rw [same, if_neg (by simp [busy])]
      rfl
    rw [unfolded] at ended
    cases (Action.run_ret ended).1
  | true =>
    rw [commitUnder_eq faults busy, commitLog_eq] at ended
    unfold SyncFails
    cases ready : pager.wal.headerOk with
    | true =>
      rw [if_pos ready] at ended
      have same : { pager.wal with headerOk := true } = pager.wal := by rw [← ready]
      rw [← same] at ended
      simpa only [if_true, List.cons_append, List.nil_append, and_assoc] using
        run_writeCommit faults shows (shows.holds.headed_eq ready).symm ended
    | false =>
      rw [if_neg (by simp [ready])] at ended
      let headed := Device.perform
        (FileCall.writeLogHeader ⟨pager.wal.generation, pager.wal.databaseId⟩) disk
      have wrote : headed.files = pager.wal.headed disk.files := rfl
      rcases fates with _ | ⟨_ | torn | _, fates⟩
      · rcases run_writeCommit faults shows wrote ended with ⟨_, ⟨_, _, impossible⟩, _⟩ | ⟨_, undone⟩
        · cases impossible
        · exact .inr ⟨by simp, undone⟩
      · rcases run_writeCommit faults shows wrote ended with ⟨full, ⟨torn, rest, rfl⟩, after⟩ | ⟨fails, undone⟩
        · exact .inl ⟨⟨full, torn, rest, rfl⟩, after⟩
        · refine .inr ⟨?_, undone⟩
          rintro ⟨full, torn, rest, same⟩
          cases same
          exact fails ⟨full, torn, rest, rfl⟩
      · refine .inr ⟨by simp, .inl ?_⟩
        change (Action.ret (Except.error (Error.sys "pwrite"), { pager with
          wal := { pager.wal with end_ := pager.wal.end_ + 1 } })).run fates _ = _ at ended
        obtain ⟨same, rfl⟩ := Action.run_ret ended
        cases same
        have moved := shows.spares (Wal.Spares.moved shows.tracks)
        refine Keeps.throws ?_
        rcases files_spoil (.writeLogHeader ⟨pager.wal.generation, pager.wal.databaseId⟩) torn disk
          with whole | torn
        · rw [whole]
          exact moved
        · have empty := shows.holds.blank ready
          rw [torn, FileCall.debris, empty]
          have files : ({ disk.files with log := {} } : Files) = disk.files := by rw [← empty]
          rw [files]
          exact moved
      · cases ended

private theorem reopens_fields_eq {database' : Database} (first : disk.Reopens database)
    (second : disk.Reopens database') : database.fields = database'.fields := by
  obtain ⟨pager, after, opened, reads⟩ := first ⟨0, 0⟩
  obtain ⟨pager', after', opened', reads'⟩ := second ⟨0, 0⟩
  rw [opened] at opened'
  cases opened'
  exact reads.1.symm.trans reads'.1

/-- A transaction that allocates and writes page 1 of a new database. -/
def growing : System :=
  [Step.opens ⟨7, 1⟩ [], .performs .allocatePage [],
    .performs (.writePage 1 { id := 1, type := .kSlotted }) []].foldl System.step {}

/-- How many pages a process after this one finds. -/
def reopenedCount (disk : Disk) : Option Nat :=
  match (construct ⟨8, 2⟩).run [] {} disk with
  | (.returned _ pager, _) => some pager.meta_.pageCount
  | _ => none

private theorem reopens_count (reopens : disk.Reopens database) :
    reopenedCount disk = some database.fields.pageCount := by
  obtain ⟨pager, after, opened, fields, _⟩ := reopens ⟨8, 2⟩
  simp only [reopenedCount, opened, fields]

end Pager

end Labdb.Storage
