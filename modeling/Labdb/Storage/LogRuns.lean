import Labdb.Program.Outcomes
import Labdb.Storage.Session

/-! What every process keeps of the log, whatever it counts: the log in memory is the log in
the file, and both belong to the database that the meta page names. -/

namespace Labdb.Storage

open Labdb.Program

/-- The calls of a process as far as the log is concerned. -/
inductive LogCall : FileCall → Disk → Prop where
  | header {disk : Disk} (wal : Wal) (holds : wal.Holds disk.files.log)
      (missing : wal.headerOk = false) :
      LogCall (.writeLogHeader ⟨wal.generation, wal.databaseId⟩) disk
  | frame {disk : Disk} (wal : Wal) (holds : wal.Holds disk.files.log)
      (ready : wal.headerOk = true) {slot : Nat} (behind : wal.commitEnd ≤ slot) (id : PageId)
      (page : Page) : LogCall (.writeFrame slot (wal.frameOf id false page)) disk
  | commit {disk : Disk} (wal : Wal) (tracks : wal.Tracks disk.files.log)
      (ready : wal.headerOk = true) (page : Page) :
      LogCall (.writeFrame wal.end_ (wal.frameOf 0 true page)) disk
  | reset {disk : Disk} (wal : Wal) (holds : wal.Holds disk.files.log) :
      LogCall (.writeLogHeader ⟨wal.generation + 1, wal.databaseId⟩) disk
  | truncate {disk : Disk} : LogCall .truncateLog disk
  | syncLog {disk : Disk} : LogCall .syncLog disk
  | writePage {disk : Disk} (id : PageId) (page : Page) : LogCall (.writePage id page) disk
  | resizeFile {disk : Disk} (count : Nat) : LogCall (.resizeFile count) disk
  | syncFile {disk : Disk} : LogCall .syncFile disk

theorem Legal.logged {synced : Prop} {request : FileCall} {disk : Disk}
    (legal : Legal synced request disk) : LogCall request disk := by
  cases legal with
  | header wal holds missing => exact .header wal holds missing
  | frame wal holds ready behind _ id page => exact .frame wal holds ready behind id page
  | commit wal tracks ready _ page => exact .commit wal tracks ready page
  | reset wal holds => exact .reset wal holds
  | truncate wal holds empty => exact .truncate
  | syncLog => exact .syncLog
  | format | copy => exact .writePage _ _
  | resize => exact .resizeFile _
  | syncFile => exact .syncFile

/-- The meta pages of the file and of the log name the log's database. -/
structure Wal.Based (wal : Wal) (files : Files) : Prop where
  filed : ∃ fields, (files.page 0).body = .record fields wal.databaseId
  logged : ∀ page, files.log.redo 0 = some page →
    ∃ fields, page.body = .record fields wal.databaseId

/-- Files that a process may open, whatever they count. -/
def Files.Followed (files : Files) : Prop :=
  files = {} ∨ ∃ wal : Wal, wal.Holds files.log ∧ wal.Based files

/-- A call over files that the next process may open. -/
def LogAsks (request : FileCall) (disk : Disk) : Prop :=
  LogCall request disk ∧ disk.files.Followed

/-- The pager's log is the file's. -/
structure Pager.Follows (pager : Pager) (files : Files) : Prop where
  tracks : pager.wal.Tracks files.log
  identity : pager.wal.databaseId = pager.databaseId
  based : pager.wal.Based files

section Logs

variable {wal wal' : Wal} {files files' : Files} {pager : Pager} {disk : Disk}

/-- The log redoes no other meta page over the same file. -/
theorem Wal.Based.congr (based : wal.Based files) (identity : wal'.databaseId = wal.databaseId)
    (pages : files'.pages = files.pages)
    (redo : ∀ page, files'.log.redo 0 = some page → files.log.redo 0 = some page) :
    wal'.Based files' := by
  refine ⟨?_, fun page found => ?_⟩
  · simpa only [Files.page, pages, identity] using based.filed
  · rw [identity]
    exact based.logged page (redo page found)

theorem Wal.Based.spares (based : wal.Based files) (spares : Wal.Spares wal files wal' files') :
    wal'.Based files' :=
  based.congr spares.identity spares.pages fun _ found => spares.redo 0 ▸ found

theorem Wal.Based.clears (based : wal.Based files) (clears : Wal.Clears wal files wal' files') :
    wal'.Based files' := by
  refine based.congr clears.identity clears.pages fun page found => ?_
  rw [clears.redo] at found
  cases found

theorem Wal.Based.commits (based : wal.Based files) {fields : Meta}
    (commits : Wal.Commits wal files (Pager.metaPageOf fields wal.databaseId) wal' files') :
    wal'.Based files' := by
  refine ⟨?_, fun page found => ?_⟩
  · simpa only [Files.page, commits.pages, commits.identity] using based.filed
  · rw [commits.redo, if_pos rfl] at found
    cases found
    exact ⟨fields, congrArg (Body.record fields) commits.identity.symm⟩

namespace Pager.Follows

theorem followed (follows : pager.Follows files) : files.Followed :=
  .inr ⟨pager.wal, follows.tracks.toHolds, follows.based⟩

theorem spared (follows : pager.Follows files)
    (spares : Wal.Spares pager.wal files wal' files') : files'.Followed :=
  .inr ⟨wal', spares.holds, follows.based.spares spares⟩

theorem writes (follows : pager.Follows files) {id : PageId} {page : Page}
    (writes : Wal.Writes pager.wal files id page wal' files') :
    { pager with wal := wal' }.Follows files' :=
  ⟨writes.tracks, writes.spares.identity.trans follows.identity,
    follows.based.spares writes.spares⟩

theorem commits (follows : pager.Follows files)
    (commits : Wal.Commits pager.wal files pager.metaPage wal' files') :
    { pager with wal := wal' }.Follows files' := by
  rw [metaPage, ← follows.identity] at commits
  exact ⟨commits.tracks, commits.identity.trans follows.identity, follows.based.commits commits⟩

theorem clears (follows : pager.Follows files)
    (clears : Wal.Clears pager.wal files wal' files') :
    { pager with wal := wal' }.Follows files' :=
  ⟨clears.tracks, clears.identity.trans follows.identity, follows.based.clears clears⟩

/-- A page of the database file is replaced, the meta page by one of the same database. -/
theorem writePage (follows : pager.Follows files) {id : PageId} {page : Page}
    (own : id = 0 → ∃ fields, page.body = .record fields pager.wal.databaseId) :
    pager.Follows ((FileCall.writePage id page).effect files) := by
  refine ⟨follows.tracks, follows.identity, ?_, follows.based.logged⟩
  have placed := getD_placeAt ({} : Page) files.pages id 0 page
  simp only [FileCall.effect, Files.page, placed]
  split
  · rename_i first
    exact own first
  · exact follows.based.filed

theorem resizeFile (follows : pager.Follows files) {count : Nat}
    (longer : files.pages.length ≤ count) :
    pager.Follows ((FileCall.resizeFile count).effect files) := by
  refine ⟨follows.tracks, follows.identity, ?_, follows.based.logged⟩
  have same := getD_takeD ({} : Page) files.pages count 0 longer
  simpa only [FileCall.effect, Files.page, same] using follows.based.filed

end Pager.Follows

end Logs

namespace Pager

/-- However the program ends, the pager's log is the file's again, and each of its calls is over
files that the next process may open. -/
abbrev Trails {α : Type} (program : PagerM α) : Prop :=
  Prog.Keeps Never LogAsks (fun pager disk => pager.Follows disk.files) program

variable {α : Type} {pager : Pager} {disk : Disk}

private theorem trails_checkThat (ok : Bool) (what : String) : Trails (checkThat ok what) := by
  intro pager disk follows
  rw [wp_checkThat]
  split
  · exact follows
  · exact follows

theorem trails_modify {update : Pager → Pager} (wal : ∀ pager, (update pager).wal = pager.wal)
    (identity : ∀ pager, (update pager).databaseId = pager.databaseId) :
    Trails (Prog.modify update) := by
  refine .modify fun pager disk follows => ⟨?_, ?_, ?_⟩
  · exact wal pager ▸ follows.tracks
  · rw [wal, identity]
    exact follows.identity
  · exact wal pager ▸ follows.based

private theorem trails_syncFile (failure : Error) : Trails (Prog.call .syncFile failure) :=
  fun _ _ follows => ⟨⟨.syncFile, follows.followed⟩, follows, fun impossible => impossible.elim⟩

private theorem trails_read (id : PageId) : Trails (onWal (Wal.read id)) := by
  intro pager disk follows
  rw [onWal, Prog.wp_zoom, Wal.wp_read follows.tracks]
  exact follows

private theorem trails_readPage (id : PageId) : Trails (readPage id) := by
  -- what is read may be a page of another id, which is raised
  have named : ∀ page : Page, Trails
      (do
        checkThat (page.id = id ∨ page.type = .kInvalid)
          "read_page: page header claims a different id (corruption?)"
        pure page) :=
    fun page => (trails_checkThat _ _).bind fun _ => Prog.Keeps.ret page
  refine Prog.Keeps.get.bind fun pager => (trails_checkThat _ _).bind fun _ =>
    (trails_read id).bind fun found => Prog.Keeps.look.bind fun disk => ?_
  cases found with
  | some page => exact named page
  | none =>
    refine Prog.Keeps.ite ?_ (named {})
    cases disk.files.pages[id]? with
    | some page => exact named page
    | none => exact .raise _

private theorem trails_write (id : PageId) (page : Page) : Trails (onWal (Wal.write id page)) := by
  intro pager disk follows
  rw [onWal, Prog.wp_zoom]
  refine Prog.wp_mono (Wal.wp_write False follows.tracks False.elim False.elim id page) ?_ ?_ ?_
  · rintro _ wal disk' ⟨writes, _⟩
    exact follows.writes writes
  · rintro _ wal disk' ⟨⟨_, _, impossible⟩, _⟩
    exact impossible.elim
  · rintro request disk' ⟨legal, wal, spares⟩
    exact ⟨legal.logged, follows.spared spares⟩

private theorem trails_writePage (id : PageId) (page : Page) : Trails (writePage id page) :=
  Prog.Keeps.get.bind fun _ => (trails_checkThat _ _).bind fun _ =>
    (trails_checkThat _ _).bind fun _ => trails_write id page

/-- Whatever an allocation makes of the count, the log is not concerned. -/
theorem trails_allocatePage : Trails allocatePage := by
  intro pager disk follows
  unfold allocatePage
  rw [Prog.wp_bind, Prog.wp_get, Prog.wp_ite]
  split
  · exact ⟨follows.tracks, follows.identity, follows.based⟩
  · have popped := fun page : Page => @trails_modify (fun pager => { pager with
      meta_ := { pager.meta_ with freelistHead := page.nextPage }, metaDirty := true })
      (fun _ => rfl) fun _ => rfl
    exact ((trails_readPage _).bind fun page => (trails_checkThat _ _).bind fun _ =>
      (popped page).bind fun _ => .ret _) pager disk follows

private theorem trails_freePage (id : PageId) : Trails (freePage id) :=
  Prog.Keeps.get.bind fun _ => (trails_checkThat _ _).bind fun _ => (trails_readPage id).bind fun _ =>
    (trails_checkThat _ _).bind fun _ => (trails_writePage _ _).bind fun _ =>
      trails_modify (fun _ => rfl) fun _ => rfl

private theorem trails_rollback : Trails rollback := by
  intro pager disk follows
  simp only [rollback, Wal.rollback, onWal, Prog.wp_bind, Prog.wp_zoom, Prog.wp_modify]
  exact ⟨follows.tracks.toHolds.rollback, follows.identity, follows.based.filed,
    follows.based.logged⟩

/-- What a checkpoint copies is in the log, and its meta page names the database. -/
theorem wp_copyFrames_follows (follows : pager.Follows disk.files) {frames : List (PageId × Nat)}
    (listed : ∀ entry ∈ frames, pager.wal.committed.lookup entry.1 = some entry.2) :
    Prog.wp Never (copyFrames frames)
      (fun _ pager' disk' => pager' = pager ∧ pager.Follows disk'.files)
      (fun _ _ _ => False) LogAsks pager disk := by
  induction frames generalizing disk with
  | nil => exact ⟨rfl, follows⟩
  | cons entry rest ih =>
    obtain ⟨id, slot⟩ := entry
    have committed := listed (id, slot) (by simp)
    obtain ⟨_, frame, present, _⟩ := follows.tracks.committed_points committed
    simp only [copyFrames, onWal, Prog.wp_bind, Prog.wp_zoom, Wal.wp_readFrame present,
      Prog.wp_call]
    refine ⟨⟨.writePage id frame.page, follows.followed⟩, ?_, fun impossible => impossible.elim⟩
    refine ih (follows.writePage fun first => ?_) fun entry member => listed entry (by simp [member])
    subst first
    refine follows.based.logged frame.page ?_
    simp [follows.tracks.redo_eq, committed, LogFile.pageAt, present]

theorem wp_reset_follows (ready : pager.wal.headerOk = true) (follows : pager.Follows disk.files) :
    Prog.wp Never (onWal Wal.reset) (fun _ pager' disk' => pager'.Follows disk'.files)
      (fun _ pager' disk' => pager'.Follows disk'.files) LogAsks pager disk := by
  rw [onWal, Prog.wp_zoom]
  by_cases idle : pager.wal.pending = ∅
  · refine Prog.wp_mono (Wal.wp_reset gentle_never follows.tracks.toHolds ready idle
      ⟨.reset pager.wal follows.tracks.toHolds, follows.followed⟩) ?_
      (fun _ _ _ impossible => impossible.elim) fun _ _ => id
    exact fun _ wal disk' clears => follows.clears clears
  · have busy : pager.wal.pending.entries.isEmpty = false := by
      by_contra empty
      exact idle (Wal.slotMap_empty (by simpa using empty))
    simp only [Wal.reset, checkThat, busy, Prog.wp_bind, Prog.wp_get]
    exact follows

private theorem trails_truncate : Trails (onWal Wal.truncate) := by
  intro pager disk follows
  rw [onWal, Prog.wp_zoom]
  by_cases idle : pager.wal.pending = ∅
  · refine Prog.wp_mono (Wal.wp_truncate gentle_never idle ⟨.truncate, follows.followed⟩) ?_
      (fun _ _ _ impossible => impossible.elim) fun _ _ => id
    exact fun _ wal disk' clears => follows.clears clears
  · have busy : pager.wal.pending.entries.isEmpty = false := by
      by_contra empty
      exact idle (Wal.slotMap_empty (by simpa using empty))
    simp only [Wal.truncate, checkThat, busy, Prog.wp_bind, Prog.wp_get]
    exact follows

/-- A checkpoint resets a log that holds a frame, and so has its header. -/
theorem trails_checkpoint : Trails checkpoint := by
  intro pager disk follows
  unfold checkpoint
  rw [Prog.wp_bind, Prog.wp_get, Prog.wp_bind, wp_checkThat]
  split
  · rw [Prog.wp_ite]
    split
    · exact follows
    · rename_i some
      obtain ⟨entry, member⟩ := List.exists_mem_of_ne_nil _ (by simpa using some)
      have ready := follows.tracks.ready (mem_committedFrames.mp member)
      rw [Prog.wp_bind, onWal_sync]
      refine wp_quiet rfl (fun impossible => impossible.elim) ⟨.syncLog, follows.followed⟩ ?_
      intro disk' same _ _
      rw [← same] at follows
      rw [Prog.wp_bind]
      refine Prog.wp_mono (wp_copyFrames_follows follows fun entry => mem_committedFrames.mp) ?_
        (fun _ _ _ impossible => impossible.elim) fun _ _ => id
      rintro _ _ disk'' ⟨same, follows⟩
      rw [same]
      -- from the sync of the file on, only the count of its pages in memory changes
      have finish : ∀ disk : Disk, pager.Follows disk.files → Prog.wp Never
          (do
            Prog.when (pager.durability ≠ .kOff) (Prog.call .syncFile (.sys "fsync"))
            Prog.modify fun pager' =>
              { pager' with filePages := max pager'.filePages pager'.meta_.pageCount }
            onWal Wal.reset)
          (fun _ pager' disk' => pager'.Follows disk'.files)
          (fun _ pager' disk' => pager'.Follows disk'.files) LogAsks pager disk := by
        intro disk follows
        rw [Prog.wp_bind]
        refine wp_quiet rfl (fun impossible => impossible.elim) ⟨.syncFile, follows.followed⟩ ?_
        intro disk' same _ _
        rw [← same] at follows
        rw [Prog.wp_bind, Prog.wp_modify]
        exact wp_reset_follows ready ⟨follows.tracks, follows.identity, follows.based⟩
      rw [Prog.wp_bind, Prog.wp_look, Prog.wp_bind, Prog.wp_when]
      split
      · rename_i short
        exact ⟨⟨.resizeFile _, follows.followed⟩,
          finish _ (follows.resizeFile (Nat.le_of_lt short)), fun impossible => impossible.elim⟩
      · exact finish disk'' follows
  · exact follows

theorem trails_commitLog : Trails commitLog := by
  intro pager disk follows
  unfold commitLog
  rw [Prog.wp_bind, Prog.wp_get, Prog.wp_bind, onWal, Prog.wp_zoom]
  refine Prog.wp_mono (Wal.wp_commit False gentle_never follows.tracks False.elim False.elim pager.metaPage
    (pager.durability = .kFull)) ?_ ?_ ?_
  · rintro _ wal disk' ⟨commits, _⟩
    have after := follows.commits commits
    exact ⟨after.tracks, after.identity, after.based⟩
  · rintro _ wal disk' ⟨⟨_, _, impossible⟩, _⟩
    exact impossible.elim
  · rintro request disk' ⟨legal, wal, spares | commits⟩
    · exact ⟨legal.logged, follows.spared spares⟩
    · exact ⟨legal.logged, (follows.commits commits).followed⟩

theorem trails_commit : Trails commit := by
  refine Prog.Keeps.get.bind fun pager => Prog.Keeps.ite ?_ (.ret ())
  refine trails_commitLog.bind fun _ => Prog.Keeps.get.bind fun pager => ?_
  exact trails_checkpoint.when

private theorem trails_program (op : Op) : Trails op.program := by
  cases op with
  | readPage id => exact (trails_readPage id).bind fun _ => .ret ()
  | writePage id page => exact trails_writePage id page
  | allocatePage => exact trails_allocatePage.bind fun _ => .ret ()
  | freePage id => exact trails_freePage id
  | setBtreeRoot | setHeapHead | setCatalogRoot | setDurability | setCheckpointFrames =>
    exact trails_modify (fun _ => rfl) fun _ => rfl
  | commit => exact trails_commit
  | rollback => exact trails_rollback
  | checkpoint => exact trails_checkpoint
  | sync =>
    exact trails_commit.bind fun _ => trails_checkpoint.bind fun _ => trails_syncFile _

/-- The database file names a database, and so do both the log in memory and the next one's. -/
theorem wp_openDatabase_followed (followed : disk.files.Followed) (draw : Nat) :
    Prog.wp Never (openDatabase draw)
      (fun found _ disk' => ∃ wal : Wal, wal.Holds disk'.files.log ∧ wal.Based disk'.files ∧
        wal.databaseId = found.2)
      (fun _ _ _ => False) LogAsks pager disk := by
  unfold openDatabase
  rw [Prog.wp_bind, Prog.wp_look]
  rcases followed with blank | ⟨wal, holds, based⟩
  · have fresh := (Wal.tracks_empty { databaseId := draw }).toHolds
    have empty : (FileCall.resizeFile 0).effect disk.files = {} := by
      rw [blank]
      rfl
    have formatted : (FileCall.writePage 0 (metaPageOf {} draw)).effect {} =
        { pages := [metaPageOf {} draw] } := rfl
    have named : ({ databaseId := draw } : Wal).Based { pages := [metaPageOf {} draw] } :=
      ⟨⟨{}, rfl⟩, fun _ found => by cases found⟩
    simp only [blank, Prog.wp_bind, Prog.wp_call, Prog.wp_pure]
    refine ⟨⟨.resizeFile 0, .inl blank⟩, ⟨⟨.writePage 0 _, .inl empty⟩, ⟨⟨.syncFile, ?_⟩, ?_,
      fun impossible => impossible.elim⟩, fun impossible => impossible.elim⟩,
      fun impossible => impossible.elim⟩
    · simp only [files_perform, empty, formatted]
      exact .inr ⟨_, fresh, named⟩
    · simp only [files_perform, empty, formatted]
      exact ⟨_, fresh, named, rfl⟩
  · obtain ⟨fields, body⟩ := based.filed
    cases pages : disk.files.pages with
    | nil => simp [Files.page, pages] at body
    | cons page rest =>
      have first : page.body = .record fields wal.databaseId := by
        simpa [Files.page, pages] using body
      simp only [first, Prog.wp_pure]
      exact ⟨wal, holds, based, rfl⟩

theorem wp_openLog_follows (followed : disk.files.Followed) (draws : Draws) :
    Prog.wp Never (openLog draws)
      (fun report pager' disk' => pager'.Follows disk'.files ∧
        report.found = pager'.wal.headerOk)
      (fun _ _ disk' => disk'.files.Followed) LogAsks pager disk := by
  unfold openLog
  rw [Prog.wp_bind]
  refine Prog.wp_mono (wp_openDatabase_followed followed draws.databaseId) ?_
    (fun _ _ _ impossible => impossible.elim) fun _ _ => id
  rintro ⟨fields, databaseId⟩ _ disk' ⟨wal, holds, based, rfl⟩
  simp only [Prog.wp_bind, Prog.wp_look, Prog.wp_set, onWal, Prog.wp_zoom]
  refine Wal.wp_recover holds draws.generation ?_
  intro report wal' recovers
  have based' : wal'.Based disk'.files :=
    based.congr recovers.identity rfl fun _ found => found
  have followed' : disk'.files.Followed := .inr ⟨wal', recovers.tracks.toHolds, based'⟩
  split
  · simp only [Prog.wp_bind, Prog.wp_zoom, Wal.wp_read recovers.tracks]
    cases wal'.version disk'.files.log 0 with
    | none => exact followed'
    | some page =>
      simp only [loadMeta, Prog.wp_bind, Prog.wp_get]
      cases page.body with
      | bytes content => exact followed'
      | record committed owner =>
        simp only [Prog.wp_ite]
        split
        · exact ⟨⟨recovers.tracks, recovers.identity, based'⟩, recovers.found⟩
        · exact followed'
  · exact ⟨⟨recovers.tracks, recovers.identity, based'⟩, recovers.found⟩

private theorem wp_construct_follows (followed : disk.files.Followed) (draws : Draws) :
    Prog.wp Never (construct draws) (fun _ pager' disk' => pager'.Follows disk'.files)
      (fun _ _ disk' => disk'.files.Followed) LogAsks pager disk := by
  -- a trailing program that raises leaves files to open
  have ends : ∀ {program : PagerM Unit} {pager : Pager} {disk : Disk},
      Prog.wp Never program (fun _ pager' disk' => pager'.Follows disk'.files)
        (fun _ pager' disk' => pager'.Follows disk'.files) LogAsks pager disk →
      Prog.wp Never
        (do
          program
          let pager ← Prog.get
          checkThat (pager.meta_.pageCount ≤ pager.filePages)
            "the database file is shorter than its meta page says")
        (fun _ pager' disk' => pager'.Follows disk'.files)
        (fun _ _ disk' => disk'.files.Followed) LogAsks pager disk := by
    intro program pager disk runs
    rw [Prog.wp_bind]
    refine Prog.wp_mono runs (fun _ pager' disk' follows => ?_)
      (fun _ _ _ follows => follows.followed) fun _ _ => id
    rw [Prog.wp_bind, Prog.wp_get, wp_checkThat]
    split
    · exact follows
    · exact follows.followed
  unfold construct
  rw [Prog.wp_bind]
  refine Prog.wp_mono (wp_openLog_follows followed draws) ?_ (fun _ _ _ => id) fun _ _ => id
  rintro report pager' disk' ⟨follows, found⟩
  split
  · exact ends (trails_checkpoint pager' disk' follows)
  · split
    · rename_i headed
      exact ends (wp_reset_follows (found ▸ headed) follows)
    · exact @ends (pure ()) _ _ follows

private theorem wp_destroy_followed (follows : pager.Follows disk.files) :
    Prog.wp Never destroy (fun _ _ disk' => disk'.files.Followed)
      (fun _ _ disk' => disk'.files.Followed) LogAsks pager disk := by
  have closes := trails_commit.bind fun _ => trails_checkpoint.bind fun _ => trails_truncate
  rw [destroy, Prog.wp_swallow]
  exact Prog.wp_mono (closes pager disk follows) (fun _ _ _ after => after.followed)
    (fun _ _ _ after => after.followed) fun _ _ => id

end Pager

/-- An open pager has the log of its files; files without one can be opened. -/
def System.Followed (system : System) : Prop :=
  match system.pager with
  | some pager => pager.Follows system.disk.files
  | none => system.disk.files.Followed

/-- From one disk to another by calls that a process may make. -/
abbrev Reaches : Disk → Disk → Prop := Relation.ReflTransGen (Action.Moves LogAsks)

/-- Each event keeps the log, by calls that its process may make. -/
theorem System.step_follows {system : System} {step : Step} (calm : step.Calm)
    (followed : system.Followed) :
    (system.step step).Followed ∧ Reaches system.disk (system.step step).disk := by
  obtain ⟨disk, open_, ledger⟩ := system
  cases step with
  | opens draws fates =>
    cases open_ with
    | some pager => exact ⟨followed, .refl⟩
    | none =>
      have opened := @Pager.wp_construct_follows {} disk followed draws
      have reached := Prog.reaches_of_wp opened calm
      have ran := Prog.run_of_wp_calm opened calm (fun _ _ _ follows => follows.followed)
        (fun _ _ _ => id) fun _ _ asked => asked.2
      simp only [System.step]
      generalize (Pager.construct draws).run fates {} disk = ended at reached ran ⊢
      rcases ended with ⟨_ | _ | _, after⟩ <;> exact ⟨ran, reached⟩
  | performs op fates =>
    cases open_ with
    | none => exact ⟨followed, .refl⟩
    | some pager =>
      have performed := Pager.trails_program op pager disk followed
      have reached := Prog.reaches_of_wp performed calm
      have ran := Prog.run_of_wp_calm performed calm (fun _ _ _ follows => follows.followed)
        (fun _ _ _ follows => follows.followed) fun _ _ asked => asked.2
      simp only [System.step]
      generalize op.program.run fates pager disk = ended at reached ran ⊢
      rcases ended with ⟨_ | _ | _, after⟩ <;> exact ⟨ran, reached⟩
  | closes fates =>
    cases open_ with
    | none => exact ⟨followed, .refl⟩
    | some pager =>
      have closed := Pager.wp_destroy_followed followed
      have reached := Prog.reaches_of_wp closed calm
      have ran := Prog.run_of_wp_calm closed calm (fun _ _ _ => id) (fun _ _ _ => id)
        fun _ _ asked => asked.2
      simp only [System.step]
      generalize Pager.destroy.run fates pager disk = ended at reached ran ⊢
      rcases ended with ⟨_ | _ | _, after⟩ <;> exact ⟨ran, reached⟩
  | dies =>
    cases open_ with
    | none => exact ⟨followed, .refl⟩
    | some pager => exact ⟨Pager.Follows.followed followed, .refl⟩

theorem System.run_follows {history : List Step} (calm : ∀ step ∈ history, step.Calm) :
    (history.foldl System.step {}).Followed ∧
      Reaches {} (history.foldl System.step {}).disk := by
  suffices ∀ system : System, system.Followed →
      (history.foldl System.step system).Followed ∧
        Reaches system.disk (history.foldl System.step system).disk from
    this {} (.inl rfl)
  induction history with
  | nil => exact fun _ followed => ⟨followed, .refl⟩
  | cons step rest ih =>
    intro system followed
    obtain ⟨followed', first⟩ := System.step_follows (calm step (by simp)) followed
    obtain ⟨kept, later⟩ := ih (fun later member => calm later (by simp [member])) _ followed'
    exact ⟨kept, first.trans later⟩

end Labdb.Storage
