import Labdb.Storage.PagerSpec

/-! Commit, checkpoint, opening and closing: at every call the files store the
database committed last, or the one whose commit is in flight. -/

namespace Labdb.Storage.Pager

open Labdb.Program

variable {may : FileCall → Disk → Prop} {synced : Prop} {pager : Pager} {disk : Disk}
variable {acked current : Database}

theorem onWal_sync : onWal Wal.sync = Prog.call .syncLog (.sys "fsync") := by
  funext pager
  refine congrArg (Action.call FileCall.syncLog) (funext fun answer => ?_)
  cases answer <;> rfl

/-- A call that changes no content is not made, or is made and succeeds. -/
theorem wp_quiet {condition : Prop} [Decidable condition] {request : FileCall} {failure : Error}
    {post : Unit → Pager → Disk → Prop}
    {raised : Error → Pager → Disk → Prop} {asks : FileCall → Disk → Prop}
    (quiet : request.effect disk.files = disk.files) (never : ¬ may request disk)
    (asked : asks request disk) (after : ∀ disk', disk'.files = disk.files →
      (condition → disk' = Device.perform request disk) → (¬ condition → disk' = disk) →
      post () pager disk') :
    Prog.wp may (Prog.when condition (Prog.call request failure)) post raised asks pager disk := by
  rw [Prog.wp_when]
  split
  · rename_i made
    exact ⟨asked, after _ quiet (fun _ => rfl) fun skipped => absurd made skipped,
      fun allowed => absurd allowed never⟩
  · rename_i skipped
    exact after disk rfl (fun made => absurd made skipped) fun _ => rfl

theorem mem_committedFrames {wal : Wal} {entry : PageId × Nat} :
    entry ∈ wal.committedFrames ↔ wal.committed.lookup entry.1 = some entry.2 := by
  rw [Wal.committedFrames, List.mem_insertionSort, List.mem_map]
  constructor
  · rintro ⟨⟨id, slot⟩, member, rfl⟩
    exact AList.mem_lookup_iff.mpr member
  · intro found
    exact ⟨⟨entry.1, entry.2⟩, AList.mem_lookup_iff.mp found, rfl⟩

/-- The copying of a checkpoint so far: the log is as it was, nothing a recovery
reads has changed, and the file has not outgrown the database. -/
structure Copies (files files' : Files) (databaseId : Nat) (acked : Database) : Prop where
  log : files'.log = files.log
  stores : files'.Stores databaseId acked
  longer : files.pages.length ≤ files'.pages.length
  shorter : files'.pages.length ≤ max files.pages.length acked.fields.pageCount
  kept : ∀ id page, files.log.redo id = some page → files.page id = page → files'.page id = page

theorem Copies.refl {files : Files} {databaseId : Nat} (stores : files.Stores databaseId acked) :
    Copies files files databaseId acked :=
  ⟨rfl, stores, Nat.le_refl _, Nat.le_max_left .., fun _ _ _ same => same⟩

theorem Copies.write {files files' : Files} {databaseId : Nat}
    (copies : Copies files files' databaseId acked) {id : PageId} {page : Page}
    (found : files.log.redo id = some page) :
    Copies files ((FileCall.writePage id page).effect files') databaseId acked := by
  have redone : files'.log.redo id = some page := by rw [copies.log, found]
  have bounded := Nat.succ_le_of_lt (copies.stores.bounded id (by simp [redone]))
  have longer := copies.longer
  have shorter := copies.shorter
  refine ⟨copies.log, copies.stores.redo redone, ?_, ?_, ?_⟩
  · simp only [FileCall.effect, length_placeAt]
    omega
  · simp only [FileCall.effect, length_placeAt]
    omega
  · intro other page' found' before
    have after := copies.kept other page' found' before
    refine (getD_placeAt ({} : Page) files'.pages id other page).trans ?_
    split
    · subst other
      exact Option.some.inj (found.symm.trans found')
    · exact after

private theorem wp_copyFrames (gentle : Gentle may) {files : Files} {frames : List (PageId × Nat)}
    (covered : synced → disk.Vouched pager.wal.commitEnd) (holds : pager.wal.Holds files.log) (identity : pager.wal.databaseId = pager.databaseId)
    (listed : ∀ entry ∈ frames, pager.wal.committed.lookup entry.1 = some entry.2)
    (copies : Copies files disk.files pager.databaseId acked) :
    Prog.wp may (copyFrames frames)
      (fun _ pager' disk' => pager' = pager ∧ Copies files disk'.files pager.databaseId acked ∧
        (synced → disk'.Vouched pager.wal.commitEnd) ∧
        ∀ id page, files.log.redo id = some page →
          (∃ slot, (id, slot) ∈ frames) ∨ disk.files.page id = page → disk'.files.page id = page)
      (fun _ _ _ => False) (Asks synced acked) pager disk := by
  induction frames generalizing disk with
  | nil =>
    refine ⟨rfl, copies, covered, ?_⟩
    rintro id page _ (⟨slot, impossible⟩ | same)
    · cases impossible
    · exact same
  | cons entry rest ih =>
    obtain ⟨id, slot⟩ := entry
    have committed := listed (id, slot) (by simp)
    obtain ⟨_, frame, present, _⟩ := holds.committed_points committed
    have found : files.log.redo id = some frame.page := by
      simp [holds.redo_eq, committed, LogFile.pageAt, present]
    rw [← copies.log] at present
    simp only [copyFrames, onWal, Prog.wp_bind, Prog.wp_zoom, Wal.wp_readFrame present,
      Prog.wp_call]
    refine ⟨?_, ?_, fun allowed => absurd allowed (gentle.spares (by simp) (by simp))⟩
    · rw [← copies.log] at holds found
      exact ⟨.copy pager.wal holds covered found, .inr ⟨pager.wal, holds, identity ▸ copies.stores⟩⟩
    · have after : Copies files (Device.perform (.writePage id frame.page) disk).files
          pager.databaseId acked := copies.write found
      have covered' : synced →
          Disk.Vouched (Device.perform (.writePage id frame.page) disk) pager.wal.commitEnd :=
        fun syncs => (covered syncs).imp_right fun covered => covered.perform (by simp)
      refine Prog.wp_mono
        (ih covered' (fun entry member => listed entry (by simp [member])) after) ?_
        (fun _ _ _ impossible => impossible) fun _ _ asked => asked
      rintro _ pager' disk' ⟨same, copied, vouched, done⟩
      refine ⟨same, copied, vouched, ?_⟩
      intro other page redone before
      have placed := getD_placeAt ({} : Page) disk.files.pages id other frame.page
      refine done other page redone ?_
      by_cases own : id = other
      · subst other
        refine .inr ?_
        rw [if_pos rfl] at placed
        exact placed.trans (Option.some.inj (found.symm.trans redone))
      · rw [if_neg own] at placed
        rcases before with ⟨slot', member⟩ | same
        · rcases List.mem_cons.mp member with head | tail
          · cases head
            exact absurd rfl own
          · exact .inl ⟨slot', tail⟩
        · exact .inr (placed.trans same)

/-- Between transactions the pager shows what was committed last. -/
theorem shows_idle {files : Files} (tracks : pager.wal.Tracks files.log)
    (pending : pager.wal.pending = ∅) (identity : pager.wal.databaseId = pager.databaseId)
    (stores : files.Stores pager.databaseId acked) (meta_ : pager.meta_ = acked.fields)
    (committed : pager.committedMeta = acked.fields)
    (filePages : pager.filePages = files.pages.length) : pager.Shows files acked acked := by
  have version := Wal.Holds.version_eq_redo tracks.toHolds pending
  refine ⟨⟨tracks.toHolds, identity, stores, committed, filePages⟩, tracks, meta_, ?_, ?_,
    stores.counted, stores.named, fun _ => rfl⟩
  · intro id inside
    rw [version]
    exact stores.pages id inside
  · intro id found
    rw [version] at found
    exact stores.bounded id found

theorem inTransaction_eq_false :
    pager.inTransaction = false ↔ pager.wal.pending = ∅ ∧ pager.metaDirty = false := by
  simp only [inTransaction, Bool.or_eq_false_iff, Bool.not_eq_false']
  refine and_congr_left fun _ => ⟨Wal.slotMap_empty, ?_⟩
  intro empty
  simp [empty]

/-- A pager between transactions whose log holds no commit. -/
structure Settled (pager : Pager) (files : Files) (acked : Database) (durability : Durability) :
    Prop where
  shows : pager.Shows files acked acked
  idle : pager.inTransaction = false
  empty : pager.wal.commitEnd = 0
  setting : pager.durability = durability

/-- The last call of a checkpoint, once the file holds all there is. -/
theorem wp_resetLog (gentle : Gentle may) (shows : pager.Shows disk.files acked current)
    (ready : pager.wal.headerOk = true) (idle : pager.inTransaction = false)
    (copied : ∀ id page, disk.files.log.redo id = some page → disk.files.page id = page)
    (durable : synced → pager.wal.commitEnd = 0 ∨ disk.Vouched pager.wal.commitEnd ∧
      ∀ id, ∀ page ∈ disk.pageVersions id, page = disk.files.page id)
    (enough : acked.fields.pageCount ≤ disk.files.pages.length) :
    Prog.wp may (onWal Wal.reset)
      (fun _ pager' disk' => pager'.Settled disk'.files acked pager.durability)
      (fun _ _ _ => False) (Asks synced acked) pager disk := by
  obtain ⟨pending, clean⟩ := inTransaction_eq_false.mp idle
  have same := shows.idle idle
  rw [onWal, Prog.wp_zoom]
  refine Prog.wp_mono (Wal.wp_reset gentle shows.holds ready pending
    ⟨.reset pager.wal shows.holds ready copied durable, shows.sound⟩) ?_
    (fun _ _ _ impossible => impossible) fun _ _ asked => asked
  · intro _ wal disk' clears
    refine ⟨shows_idle clears.tracks clears.pending (clears.identity.trans shows.identity)
      (shows.stores.clear copied enough clears.pages clears.redo) ?_ shows.committed ?_, ?_,
      clears.commitEnd, rfl⟩
    · exact same ▸ shows.meta_
    · rw [clears.pages]
      exact shows.filePages
    · exact inTransaction_eq_false.mpr ⟨clears.pending, clean⟩

/-- The second half of a checkpoint: the file's size, its sync, the log's reset. -/
private theorem wp_settle (gentle : Gentle may) {files : Files}
    (shows : pager.Shows files acked acked) (ready : pager.wal.headerOk = true)
    (idle : pager.inTransaction = false)
    (durable : synced → pager.Durable disk) (copies : Copies files disk.files pager.databaseId acked)
    (copied : ∀ id page, disk.files.log.redo id = some page → disk.files.page id = page) :
    Prog.wp may
      (do
        let disk ← Prog.look
        Prog.when (disk.files.pages.length < pager.meta_.pageCount)
          (Prog.call (.resizeFile pager.meta_.pageCount) (.sys "ftruncate"))
        Prog.when (pager.durability ≠ .kOff) (Prog.call .syncFile (.sys "fsync"))
        Prog.modify fun pager =>
          { pager with filePages := max pager.filePages pager.meta_.pageCount }
        onWal Wal.reset)
      (fun _ pager' disk' => pager'.Settled disk'.files acked pager.durability)
      (fun _ _ _ => False) (Asks synced acked) pager disk := by
  obtain ⟨pending, clean⟩ := inTransaction_eq_false.mp idle
  have longer := copies.longer
  have shorter := copies.shorter
  have sized := shows.filePages
  -- from the sync on, the file is as long as the database
  have finish : ∀ disk' : Disk, disk'.files.log = files.log →
      (synced → pager.Durable disk') → disk'.files.Stores pager.databaseId acked →
      (∀ id page, disk'.files.log.redo id = some page → disk'.files.page id = page) →
      disk'.files.pages.length = max pager.filePages pager.meta_.pageCount →
      Prog.wp may
        (do
          Prog.when (pager.durability ≠ .kOff) (Prog.call .syncFile (.sys "fsync"))
          Prog.modify fun pager =>
            { pager with filePages := max pager.filePages pager.meta_.pageCount }
          onWal Wal.reset)
        (fun _ pager' disk' => pager'.Settled disk'.files acked pager.durability)
        (fun _ _ _ => False) (Asks synced acked) pager disk' := by
    intro disk' log durable stores copied length
    have tracks : pager.wal.Tracks disk'.files.log := log ▸ shows.tracks
    rw [Prog.wp_bind]
    refine wp_quiet rfl (gentle.spares (by simp) (by simp))
      ⟨.syncFile, .inr ⟨pager.wal, tracks.toHolds, shows.identity ▸ stores⟩⟩ ?_
    intro disk'' same made _
    rw [← same] at tracks stores copied length
    rw [Prog.wp_bind, Prog.wp_modify]
    have settled : ({ pager with filePages := max pager.filePages pager.meta_.pageCount } :
        Pager).Shows disk''.files acked acked :=
      shows_idle tracks pending shows.identity stores shows.meta_ shows.committed length.symm
    refine wp_resetLog gentle settled ready idle copied ?_ ?_
    · intro syncs
      obtain ⟨full, vouched⟩ := durable syncs
      have synced := made (by simp [full])
      refine .inr ⟨?_, fun id page member => ?_⟩
      · rw [synced]
        exact vouched.imp_right fun covered => covered.perform (by simp)
      · rw [synced] at member ⊢
        exact Disk.mem_versions_settle rfl member
    · rw [length, ← shows.meta_]
      exact Nat.le_max_right ..
  rw [Prog.wp_bind, Prog.wp_look, Prog.wp_bind, Prog.wp_when]
  rw [← shows.meta_] at shorter
  split
  · rename_i short
    refine ⟨⟨.resize (Nat.le_of_lt short), .inr ⟨pager.wal, copies.log ▸ shows.holds,
      shows.identity ▸ copies.stores⟩⟩, ?_, fun allowed => absurd allowed (gentle.spares (by simp) (by simp))⟩
    refine finish _ copies.log (fun syncs => ⟨(durable syncs).1, ?_⟩)
      (copies.stores.resize (Nat.le_of_lt short)) ?_ ?_
    · exact (durable syncs).2.imp_right fun covered => covered.perform (by simp)
    · intro id page found
      have same := getD_takeD ({} : Page) disk.files.pages pager.meta_.pageCount id
        (Nat.le_of_lt short)
      exact same.trans (copied id page found)
    · simp only [files_perform, FileCall.effect, List.takeD_length]
      omega
  · refine finish disk copies.log durable copies.stores copied ?_
    omega

/-- A checkpoint between transactions changes nothing that is read, before or
after a crash at any of its calls. -/
theorem wp_checkpoint (gentle : Gentle may) (shows : pager.Shows disk.files acked current)
    (idle : pager.inTransaction = false) (durable : synced → pager.Durable disk) :
    Prog.wp may checkpoint
      (fun _ pager' disk' => pager'.Settled disk'.files acked pager.durability)
      (fun _ _ _ => False) (Asks synced acked) pager disk := by
  obtain rfl := shows.idle idle
  unfold checkpoint
  simp only [Prog.wp_bind, Prog.wp_get, wp_checkThat, idle, Bool.not_false, ↓reduceIte,
    Prog.wp_ite, Prog.wp_pure]
  split
  · rename_i none
    refine ⟨shows, idle, ?_, rfl⟩
    by_contra commits
    obtain ⟨slot, found⟩ := shows.holds.committed_zero commits
    have member : ((0, slot) : PageId × Nat) ∈ pager.wal.committedFrames :=
      mem_committedFrames.mpr found
    rw [List.isEmpty_iff.mp none] at member
    cases member
  · rename_i some
    obtain ⟨entry, member⟩ := List.exists_mem_of_ne_nil _ (by simpa using some)
    have ready := shows.holds.ready (mem_committedFrames.mp member)
    rw [onWal_sync]
    refine wp_quiet rfl (gentle.spares (by simp) (by simp)) ⟨.syncLog, shows.sound⟩ ?_
    intro disk' same _ skipped
    rw [← same] at shows
    have vouched : synced → disk'.Vouched pager.wal.commitEnd := by
      intro syncs
      rw [skipped (by simp [(durable syncs).1])]
      exact (durable syncs).2
    rw [Prog.wp_bind]
    refine Prog.wp_mono (wp_copyFrames gentle vouched shows.holds shows.identity
      (fun entry => mem_committedFrames.mp) (Copies.refl shows.stores)) ?_
      (fun _ _ _ impossible => impossible) fun _ _ asked => asked
    rintro _ _ disk'' ⟨rfl, copies, vouched, copied⟩
    refine wp_settle gentle shows ready idle
      (fun syncs => ⟨(durable syncs).1, vouched syncs⟩) copies ?_
    intro id page found
    rw [copies.log] at found
    refine copied id page found (.inl ?_)
    rw [shows.holds.redo_eq] at found
    obtain ⟨slot, committed, _⟩ := Option.bind_eq_some_iff.mp found
    exact ⟨slot, mem_committedFrames.mpr committed⟩

/-- The commit of a transaction: the database shown becomes the one committed last. -/
theorem Shows.commits (shows : pager.Shows disk.files acked current) {wal : Wal} {disk' : Disk}
    (commits : Wal.Commits pager.wal disk.files pager.metaPage wal disk'.files) :
    { pager with wal, committedMeta := pager.meta_, metaDirty := false }.Shows disk'.files
      current current := by
  have page : ∀ id, disk'.files.page id = disk.files.page id := by
    intro id
    simp [Files.page, commits.pages]
  refine shows_idle commits.tracks commits.pending (commits.identity.trans shows.identity) ?_
    shows.meta_ shows.meta_ (by rw [commits.pages]; exact shows.filePages)
  refine ⟨?_, ?_, ?_, ?_, ?_, ?_, shows.counted, shows.named⟩
  · rw [commits.pages, page]
    exact shows.stores.filed
  · simp [commits.redo, metaPage, metaPageOf, shows.meta_]
  · intro id inside
    rw [commits.redo, if_neg inside, page]
    exact shows.pages id inside
  · intro none
    simp [commits.redo] at none
  · intro none
    simp [commits.redo] at none
  · intro id found
    rw [commits.redo] at found
    split at found
    · subst id
      exact shows.counted
    · exact shows.bounded id found

/-- A commit is in flight from its first call to its last. -/
theorem wp_commitLog (gentle : Gentle may) (shows : pager.Shows disk.files acked current)
    (durable : synced → pager.Durable disk) :
    Prog.wp may commitLog
      (fun _ pager' disk' => pager'.Shows disk'.files current current ∧
        pager'.inTransaction = false ∧ (synced → pager'.Durable disk'))
      (fun _ pager' disk' => (∃ request disk, may request disk) ∧
        pager'.Keeps disk'.files acked ∧ pager'.wal.pending = pager.wal.pending)
      (fun request disk' =>
        Asks synced acked request disk' ∨ Asks synced current request disk') pager disk := by
  unfold commitLog
  simp only [Prog.wp_bind, Prog.wp_get, onWal, Prog.wp_zoom]
  refine Prog.wp_mono (Wal.wp_commit synced gentle shows.tracks (fun _ => shows.owns)
    (fun syncs => (durable syncs).2) _ _) ?_ ?_ ?_
  · rintro _ wal disk' ⟨commits, vouched⟩
    refine ⟨shows.commits commits, inTransaction_eq_false.mpr ⟨commits.pending, rfl⟩, ?_⟩
    exact fun syncs => ⟨(durable syncs).1, vouched (by simp [(durable syncs).1])⟩
  · rintro _ wal disk' ⟨failed, spares, pending⟩
    exact ⟨failed, shows.spares spares, pending⟩
  · rintro request disk' ⟨legal, wal, spares | commits⟩
    · exact .inl ⟨legal, (shows.spares spares).sound⟩
    · exact .inr ⟨legal, (shows.commits commits).sound⟩

theorem wp_commit (gentle : Gentle may) (shows : pager.Shows disk.files acked current)
    (durable : synced → pager.Durable disk) :
    Prog.wp may commit
      (fun _ pager' disk' => pager'.Shows disk'.files current current ∧
        pager'.inTransaction = false ∧ (synced → pager'.Durable disk'))
      (fun _ pager' disk' => (∃ request disk, may request disk) ∧
        pager'.Keeps disk'.files acked ∧ pager'.wal.pending = pager.wal.pending)
      (fun request disk' =>
        Asks synced acked request disk' ∨ Asks synced current request disk') pager disk := by
  unfold commit
  simp only [Prog.wp_bind, Prog.wp_get, Prog.wp_ite, Prog.wp_pure]
  split
  · refine Prog.wp_mono (wp_commitLog gentle shows durable) ?_ (fun _ _ _ => id) fun _ _ => id
    rintro _ pager' disk' ⟨done, idle, durable'⟩
    rw [Prog.wp_bind, Prog.wp_get, Prog.wp_when]
    split
    · refine Prog.wp_mono (wp_checkpoint gentle done idle durable') ?_
        (fun _ _ _ impossible => impossible.elim) fun _ _ => .inr
      intro _ pager'' disk'' settled
      exact ⟨settled.shows, settled.idle,
        fun syncs => ⟨settled.setting.trans (durable' syncs).1, .inl settled.empty⟩⟩
    · exact ⟨done, idle, durable'⟩
  · rename_i idle
    have idle : pager.inTransaction = false := by simpa using idle
    obtain rfl := shows.idle idle
    exact ⟨shows, idle, durable⟩

/-- A database file that was just formatted. -/
theorem stores_initial (databaseId : Nat) :
    ({ pages := [metaPageOf {} databaseId] } : Files).Stores databaseId .initial := by
  have none : ∀ id, ({ pages := [metaPageOf {} databaseId] } : Files).log.redo id = none :=
    fun id => rfl
  refine ⟨⟨by simp, {}, rfl⟩, rfl, ?_, fun _ => Nat.le_refl _, fun _ => none, ?_, Nat.one_pos,
    Database.named_initial⟩
  · intro id inside
    rw [none]
    obtain ⟨id, rfl⟩ := Nat.exists_eq_succ_of_ne_zero inside
    rfl
  · intro id found
    exact absurd (none id) found

/-- Whatever a process left of a sound database, opening it finds its meta page. -/
theorem wp_openDatabase (gentle : Gentle may) (sound : disk.files.Sound acked) (draw : Nat) :
    Prog.wp may (openDatabase draw)
      (fun found _ disk' => ∃ wal : Wal, wal.Holds disk'.files.log ∧
        disk'.files.Stores wal.databaseId acked ∧ wal.databaseId = found.2 ∧
        (disk'.files.page 0).body = .record found.1 found.2 ∧
        (disk.files.pages ≠ [] → disk' = disk))
      (fun _ _ _ => False) (Asks synced acked) pager disk := by
  have never : ∀ {request : FileCall} {disk : Disk},
      (∀ slot frame, request ≠ .writeFrame slot frame) →
      (∀ header, request ≠ .writeLogHeader header) → ¬ may request disk :=
    fun frames headers => gentle.spares frames headers
  unfold openDatabase
  rw [Prog.wp_bind, Prog.wp_look]
  rcases sound with ⟨blank, rfl⟩ | ⟨wal, holds, stores⟩
  · have holds := (Wal.tracks_empty { databaseId := draw }).toHolds
    have stores := stores_initial draw
    have empty : (FileCall.resizeFile 0).effect disk.files = {} := by
      rw [blank]
      rfl
    have formatted : (FileCall.writePage 0 (metaPageOf {} draw)).effect {} =
        { pages := [metaPageOf {} draw] } := rfl
    have short : disk.files.pages.length ≤ 0 := by simp [blank]
    simp only [blank, Prog.wp_bind, Prog.wp_call, Prog.wp_pure]
    refine ⟨⟨.resize short, .inl ⟨blank, rfl⟩⟩, ⟨⟨.format (files_perform .. ▸ empty) _, .inl ⟨empty, rfl⟩⟩,
      ⟨⟨.syncFile, ?_⟩, ?_, fun allowed => ?_⟩, fun allowed => ?_⟩, fun allowed => ?_⟩
    · simp only [files_perform, empty, formatted]
      exact .inr ⟨_, holds, stores⟩
    · simp only [files_perform, empty, formatted]
      exact ⟨_, holds, stores, rfl, rfl, fun some => absurd rfl some⟩
    all_goals exact absurd allowed (never (by simp) (by simp))
  · obtain ⟨filed, fields, body⟩ := stores.filed
    cases pages : disk.files.pages with
    | nil => simp [pages] at filed
    | cons page rest =>
      have first : page.body = .record fields wal.databaseId := by
        simpa [Files.page, pages] using body
      simp only [first, Prog.wp_pure]
      exact ⟨wal, holds, stores, rfl, body, fun _ => trivial⟩

/-- After the scan of the log the pager shows what was committed last. -/
theorem wp_openLog (synced : Prop) (gentle : Gentle may) (sound : disk.files.Sound acked)
    (draws : Draws) :
    Prog.wp may (openLog draws)
      (fun report pager' disk' => pager'.Shows disk'.files acked acked ∧
        pager'.inTransaction = false ∧ (report.transactions = 0 ↔ pager'.wal.commitEnd = 0) ∧
        report.found = pager'.wal.headerOk ∧ pager'.durability = .kFull ∧
        (disk.files.pages ≠ [] → disk' = disk))
      (fun _ _ _ => False) (Asks synced acked) pager disk := by
  unfold openLog
  rw [Prog.wp_bind]
  refine Prog.wp_mono (wp_openDatabase gentle sound draws.databaseId) ?_
    (fun _ _ _ impossible => impossible) fun _ _ asked => asked
  rintro ⟨fields, databaseId⟩ _ disk' ⟨wal, holds, stores, rfl, body, still⟩
  simp only [Prog.wp_bind, Prog.wp_look, Prog.wp_set, onWal, Prog.wp_zoom]
  refine Wal.wp_recover holds draws.generation ?_
  intro report wal' recovers
  have version := Wal.Holds.version_eq_redo recovers.tracks.toHolds recovers.pending
  have counted := recovers.transactions
  rw [← recovers.commitEnd] at counted
  split
  · rename_i commits
    have some : wal'.commitEnd ≠ 0 := fun none => by
      have := counted.mpr none
      omega
    obtain ⟨slot, committed⟩ := recovers.tracks.committed_zero some
    obtain ⟨_, frame, present, _⟩ := recovers.tracks.committed_points committed
    have redo : disk'.files.log.redo 0 = .some frame.page := by
      simp [recovers.tracks.redo_eq, committed, LogFile.pageAt, present]
    have page := stores.fields
    rw [redo, Option.getD_some] at page
    simp only [Prog.wp_bind, Prog.wp_zoom, Wal.wp_read recovers.tracks, version, redo, loadMeta,
      page, Prog.wp_get, ↓reduceIte, Prog.wp_set, Prog.wp_modify, Prog.wp_pure]
    exact ⟨shows_idle recovers.tracks recovers.pending recovers.identity stores rfl rfl rfl,
      inTransaction_eq_false.mpr ⟨recovers.pending, rfl⟩, counted, recovers.found, trivial, still⟩
  · rename_i none
    have empty : wal'.commitEnd = 0 := counted.mp (by omega)
    have redo := recovers.tracks.redo_none empty
    have same : fields = acked.fields := by
      have page := stores.fields
      rw [redo 0, Option.getD_none, body] at page
      injection page
    exact ⟨shows_idle recovers.tracks recovers.pending recovers.identity stores same same rfl,
      inTransaction_eq_false.mpr ⟨recovers.pending, rfl⟩, counted, recovers.found, rfl, still⟩

/-- The constructor opens whatever a process that died left behind. -/
theorem wp_construct (gentle : Gentle may) (sound : disk.files.Sound acked)
    (covered : synced → disk.Vouched disk.files.log.scan.commitEnd ∧ disk.files.pages ≠ [])
    (draws : Draws) :
    Prog.wp may (construct draws)
      (fun _ pager' disk' => pager'.Settled disk'.files acked .kFull)
      (fun _ _ _ => False) (Asks synced acked) pager disk := by
  unfold construct
  rw [Prog.wp_bind]
  refine Prog.wp_mono (wp_openLog synced gentle sound draws) ?_
    (fun _ _ _ impossible => impossible) fun _ _ asked => asked
  rintro report pager' disk' ⟨shows, idle, counted, found, setting, same⟩
  have vouched : synced → disk'.Vouched pager'.wal.commitEnd := by
    intro syncs
    rw [← shows.holds.scan_eq.2.1, same (covered syncs).2]
    exact (covered syncs).1
  have finish : ∀ (pager' : Pager) (disk' : Disk), pager'.Settled disk'.files acked .kFull →
      Prog.wp may
        (Prog.get >>= fun pager : Pager => checkThat (pager.meta_.pageCount ≤ pager.filePages)
          "the database file is shorter than its meta page says")
        (fun _ pager' disk' => pager'.Settled disk'.files acked .kFull)
        (fun _ _ _ => False) (Asks synced acked) pager' disk' := by
    intro pager' disk' settled
    have shows := settled.shows
    have sized := shows.stores.sized (shows.holds.redo_none settled.empty 0)
    rw [← shows.meta_, ← shows.filePages] at sized
    simp only [Prog.wp_bind, Prog.wp_get, wp_checkThat, decide_eq_true_eq, if_pos sized]
    exact settled
  rw [← setting] at finish ⊢
  split
  · rw [Prog.wp_bind]
    exact Prog.wp_mono (wp_checkpoint gentle shows idle fun syncs => ⟨setting, vouched syncs⟩)
      (fun _ => finish) (fun _ _ _ impossible => impossible) fun _ _ asked => asked
  · rename_i none
    have empty : pager'.wal.commitEnd = 0 := counted.mp (by omega)
    have redo := shows.holds.redo_none empty
    split
    · rename_i headed
      rw [Prog.wp_bind]
      refine Prog.wp_mono (wp_resetLog gentle shows (found ▸ headed) idle ?_
        (fun _ => .inl empty) (shows.stores.sized (redo 0))) (fun _ => finish)
        (fun _ _ _ impossible => impossible) fun _ _ asked => asked
      intro id page redone
      rw [redo id] at redone
      cases redone
    · exact finish pager' disk' ⟨shows, idle, empty, rfl⟩

/-- The destructor commits; what it raises is dropped. -/
theorem wp_destroy (gentle : Gentle may) (shows : pager.Shows disk.files acked current)
    (durable : synced → pager.Durable disk) :
    Prog.wp may destroy
      (fun _ pager' disk' => pager'.Shows disk'.files current current ∧
          (synced → pager'.Durable disk') ∨
        ((∃ request disk, may request disk) ∧ pager'.Keeps disk'.files acked))
      (fun _ _ _ => False) (fun request disk' =>
        Asks synced acked request disk' ∨ Asks synced current request disk') pager disk := by
  unfold destroy
  rw [Prog.wp_swallow, Prog.wp_bind]
  refine Prog.wp_mono (wp_commit gentle shows durable) ?_
    (fun _ _ _ cut => .inr ⟨cut.1, cut.2.1⟩) fun _ _ asked => asked
  rintro _ committed afterCommit ⟨shows', idle, durable'⟩
  rw [Prog.wp_bind]
  refine Prog.wp_mono (wp_checkpoint gentle shows' idle durable') ?_
    (fun _ _ _ impossible => impossible.elim) fun _ _ => .inr
  rintro _ settled afterCheckpoint ⟨shows'', idle'', empty, setting⟩
  obtain ⟨pending, _⟩ := inTransaction_eq_false.mp idle''
  have redo := shows''.holds.redo_none empty
  rw [onWal, Prog.wp_zoom]
  refine Prog.wp_mono (Wal.wp_truncate gentle pending
    (.inr ⟨.truncate _ shows''.holds empty, shows''.sound⟩)) ?_
    (fun _ _ _ impossible => impossible.elim) fun _ _ asked => asked
  · intro _ wal after clears
    refine .inl ⟨shows_idle clears.tracks clears.pending (clears.identity.trans shows''.identity)
      (shows''.stores.clear ?_ (shows''.stores.sized (redo 0)) clears.pages clears.redo)
      shows''.meta_ shows''.committed ?_,
      fun syncs => ⟨setting.trans (durable' syncs).1, .inl clears.commitEnd⟩⟩
    · intro id page redone
      rw [redo id] at redone
      cases redone
    · rw [clears.pages]
      exact shows''.filePages

end Labdb.Storage.Pager
