import Labdb.Storage.LogRuns

/-! The write-ahead rule: whether a checkpoint copies frames that a sync of the log
covers. It asks for one only under `kNormal`; under `kFull` it trusts the commits. -/

namespace Labdb.Storage

open Labdb.Program

/-- The commit frames of the log's generation are newer than the frames before them. -/
def Disk.Ordered (disk : Disk) : Prop :=
  ∀ header index frame, disk.files.log.header = some header →
    disk.files.log.slot index = some frame → frame.commit = true →
    frame.generation = header.generation →
    ∀ slot < index, disk.Covered index → disk.Covered slot

/-- Every call that a process makes keeps them so. -/
theorem Disk.Ordered.moves {request : FileCall} {disk : Disk} (ordered : disk.Ordered)
    (called : LogCall request disk) :
    Disk.Ordered (Device.perform request disk) := by
  intro header index frame headed present commit own slot low covered
  -- a write behind the last commit leaves the commit frames before it as they were
  have behind : ∀ {wal : Wal} {at_ : Nat} {placed : Frame}, wal.Holds disk.files.log →
      wal.headerOk = true → wal.commitEnd ≤ at_ →
      (Device.perform (FileCall.writeFrame at_ placed) disk).files.log.header = some header →
      (Device.perform (FileCall.writeFrame at_ placed) disk).files.log.slot index = some frame →
      at_ ≠ index → Disk.Covered (Device.perform (.writeFrame at_ placed) disk) index →
      Disk.Covered (Device.perform (.writeFrame at_ placed) disk) slot := by
    intro wal at_ placed holds ready high headed present apart covered
    replace headed : disk.files.log.header = some header := headed
    rw [files_perform, FileCall.effect, LogFile.slot_place, if_neg apart] at present
    have same := (holds.header ready).symm.trans headed
    have early : index < wal.commitEnd := by
      by_contra late
      have plain := holds.quiet index frame (by omega) present (by
        rw [own, ← Option.some.inj same])
      rw [plain] at commit
      cases commit
    exact covered_writeFrame.mpr ⟨by omega,
      ordered header index frame headed present commit own slot low
        (covered_writeFrame.mp covered).2⟩
  cases called with
  | header wal holds missing =>
    have blank := holds.blank missing
    simp [FileCall.effect, blank, LogFile.slot] at present
  | frame wal holds ready high id page =>
    refine behind holds ready high headed present ?_ covered
    rintro rfl
    simp only [files_perform, FileCall.effect, LogFile.slot_place, ↓reduceIte] at present
    cases present
    cases commit
  | commit wal tracks ready page =>
    exact behind tracks.toHolds ready tracks.ordered headed present
      (covered_writeFrame.mp covered).1 covered
  | reset wal holds =>
    cases headed
    have old := holds.fresh index frame present
    simp only at own
    omega
  | truncate => simp [FileCall.effect] at headed
  | syncLog => exact covered_syncLog
  | writePage | resizeFile | syncFile =>
    exact (ordered header index frame headed present commit own slot low
      (covered_of_perform (by simp) covered)).perform (by simp)

theorem Disk.Ordered.reaches {disk disk' : Disk} (ordered : disk.Ordered)
    (reached : Reaches disk disk') : disk'.Ordered := by
  induction reached with
  | refl => exact ordered
  | tail _ move ih =>
    obtain ⟨request, asked, rfl⟩ := move
    exact ih.moves asked.1

/-- `checkpoint` writes no page of the database file before every frame that it
copies is covered, whichever of its calls fail. -/
def WriteAhead (pager : Pager) (disk : Disk) : Prop :=
  pager.durability ≠ .kOff →
    Prog.wp (fun _ _ => True) Pager.checkpoint (fun _ _ _ => True) (fun _ _ _ => True)
      (fun request disk' => (∃ id page, request = .writePage id page) →
        ∀ entry ∈ pager.wal.committedFrames, disk'.Covered entry.2) pager disk

/-- The states in which a step enters `checkpoint`. -/
inductive System.Enters (system : System) : Pager → Disk → Prop where
  | opens {draws : Draws} {fates : List Fate} {report : RecoveryReport} {pager : Pager}
      {disk : Disk} (closed : system.pager = none) (calm : Program.Calm fates)
      (ran : (Pager.openLog draws).run fates {} system.disk = (.returned report pager, disk))
      (redoes : 0 < report.transactions) : system.Enters pager disk
  | commits {fates : List Fate} {pager pager' : Pager} {disk : Disk}
      (open_ : system.pager = some pager) (calm : Program.Calm fates)
      (changed : pager.inTransaction = true)
      (ran : Pager.commitLog.run fates pager system.disk = (.returned () pager', disk))
      (full : pager'.checkpointFrames ≤ pager'.wal.end_) : system.Enters pager' disk
  | checkpoints {pager : Pager} (open_ : system.pager = some pager) :
      system.Enters pager system.disk
  /-- As `sync` and the destructor do. -/
  | follows {fates : List Fate} {pager pager' : Pager} {disk : Disk}
      (open_ : system.pager = some pager) (calm : Program.Calm fates)
      (ran : Pager.commit.run fates pager system.disk = (.returned () pager', disk)) :
      system.Enters pager' disk

section WriteAhead

variable {pager : Pager} {disk : Disk}

private theorem wp_copyFrames_covered {frames copied : List (PageId × Nat)}
    (covered : ∀ entry ∈ frames, disk.Covered entry.2) :
    Prog.wp (fun _ _ => True) (Pager.copyFrames copied)
      (fun _ _ _ => True) (fun _ _ _ => True)
      (fun request disk' => (∃ id page, request = .writePage id page) →
        ∀ entry ∈ frames, disk'.Covered entry.2) pager disk := by
  induction copied generalizing disk with
  | nil => trivial
  | cons entry rest ih =>
    simp only [Pager.copyFrames, Pager.onWal, Wal.readFrame, Prog.wp_bind, Prog.wp_zoom,
      Prog.wp_look]
    cases disk.files.log.slot entry.2 with
    | none => trivial
    | some frame =>
      refine ⟨fun _ => covered, ?_, fun _ _ => trivial⟩
      exact ih fun entry member => (covered entry member).perform (by simp)

/-- What follows the copying writes no page. -/
theorem wp_settle_covered {covered : Disk → Prop} {count : Nat} {durability : Durability}
    {grow : Pager → Pager} :
    Prog.wp (fun _ _ => True)
      (do
        let disk ← Prog.look
        Prog.when (disk.files.pages.length < count)
          (Prog.call (.resizeFile count) (.sys "ftruncate"))
        Prog.when (durability ≠ .kOff) (Prog.call .syncFile (.sys "fsync"))
        Prog.modify grow
        Pager.onWal Wal.reset)
      (fun _ _ _ => True) (fun _ _ _ => True)
      (fun request disk' => (∃ id page, request = .writePage id page) → covered disk')
      pager disk := by
  have resets : ∀ (pager : Pager) (disk : Disk), Prog.wp (fun _ _ => True) (Pager.onWal Wal.reset)
      (fun _ _ _ => True) (fun _ _ _ => True)
      (fun request disk' => (∃ id page, request = .writePage id page) → covered disk')
      pager disk := by
    intro pager disk
    simp only [Pager.onWal, Wal.reset, Wal.writeHeader, checkThat, Prog.wp_zoom, Prog.wp_bind,
      Prog.wp_get, Prog.wp_ite]
    split
    · exact ⟨by simp, trivial, fun _ _ => trivial⟩
    · trivial
  have syncs : ∀ disk : Disk, Prog.wp (fun _ _ => True)
      (do
        Prog.when (durability ≠ .kOff) (Prog.call .syncFile (.sys "fsync"))
        Prog.modify grow
        Pager.onWal Wal.reset)
      (fun _ _ _ => True) (fun _ _ _ => True)
      (fun request disk' => (∃ id page, request = .writePage id page) → covered disk')
      pager disk := by
    intro disk
    rw [Prog.wp_bind, Prog.wp_when]
    split
    · exact ⟨by simp, resets _ _, fun _ _ => trivial⟩
    · exact resets _ _
  rw [Prog.wp_bind, Prog.wp_look, Prog.wp_bind, Prog.wp_when]
  split
  · exact ⟨by simp, syncs _, fun _ _ => trivial⟩
  · exact syncs _

/-- From a state in which the frames are covered, or will be by its own sync, a
checkpoint copies covered frames. -/
theorem wp_checkpoint_covered
    (covered : pager.durability ≠ .kNormal → pager.inTransaction = false →
      ∀ entry ∈ pager.wal.committedFrames, disk.Covered entry.2) :
    Prog.wp (fun _ _ => True) Pager.checkpoint (fun _ _ _ => True) (fun _ _ _ => True)
      (fun request disk' => (∃ id page, request = .writePage id page) →
        ∀ entry ∈ pager.wal.committedFrames, disk'.Covered entry.2) pager disk := by
  unfold Pager.checkpoint
  rw [Prog.wp_bind, Prog.wp_get, Prog.wp_bind, Pager.wp_checkThat]
  cases idle : pager.inTransaction with
  | true => trivial
  | false =>
    rw [Bool.not_false, if_pos rfl, Prog.wp_ite]
    split
    · trivial
    · rw [Prog.wp_bind, Prog.wp_when, Pager.onWal_sync]
      split
      · refine ⟨by simp, ?_, fun _ _ => trivial⟩
        refine Prog.wp_bind.mpr (Prog.wp_mono (wp_copyFrames_covered fun _ _ => covered_syncLog) ?_
          (fun _ _ _ => id) fun _ _ => id)
        exact fun _ pager' disk' _ => wp_settle_covered
      · rename_i unsynced
        refine Prog.wp_bind.mpr (Prog.wp_mono (wp_copyFrames_covered (covered unsynced idle)) ?_
          (fun _ _ _ => id) fun _ _ => id)
        exact fun _ pager' disk' _ => wp_settle_covered

/-- At every entry the rule comes down to the slot of the last commit frame. -/
theorem writeAhead_iff (holds : pager.wal.Holds disk.files.log) (ordered : disk.Ordered) :
    WriteAhead pager disk ↔
      pager.durability ≠ .kFull ∨ pager.inTransaction = true ∨ pager.wal.commitEnd = 0 ∨
        disk.Covered (pager.wal.commitEnd - 1) := by
  constructor
  · intro ahead
    by_contra broken
    simp only [not_or, not_not, Bool.not_eq_true] at broken
    obtain ⟨full, idle, commits, uncovered⟩ := broken
    obtain ⟨last, commits⟩ := Nat.exists_eq_succ_of_ne_zero commits
    obtain ⟨frame, present, _, _, found⟩ := holds.committed_last commits
    -- the first page that is copied is written before any sync
    have called := ahead (by simp [full])
    have listed : ((0, last) : PageId × Nat) ∈ pager.wal.committedFrames :=
      Pager.mem_committedFrames.mpr found
    unfold Pager.checkpoint at called
    rw [Prog.wp_bind, Prog.wp_get, Prog.wp_bind, Pager.wp_checkThat, idle, Bool.not_false,
      if_pos rfl, Prog.wp_ite] at called
    split at called
    · rename_i none
      rw [List.isEmpty_iff.mp none] at listed
      cases listed
    · rw [Prog.wp_bind, Prog.wp_when, if_neg (by simp [full]), Prog.wp_bind] at called
      cases frames : pager.wal.committedFrames with
      | nil => simp [frames] at listed
      | cons entry rest =>
        have member : entry ∈ pager.wal.committedFrames := by simp [frames]
        obtain ⟨_, frame, present, _⟩ :=
          holds.committed_points (Pager.mem_committedFrames.mp member)
        rw [frames] at called
        simp only [Pager.copyFrames, Pager.onWal, Prog.wp_bind, Prog.wp_zoom,
          Wal.wp_readFrame present] at called
        have covered := called.1 ⟨_, _, rfl⟩ _ (frames ▸ listed)
        simp only [commits, Nat.succ_sub_one] at uncovered
        exact uncovered covered
  · intro safe waits
    refine wp_checkpoint_covered fun unsynced idle entry member => ?_
    have committed := Pager.mem_committedFrames.mp member
    obtain ⟨low, _⟩ := holds.committed_points committed
    rcases safe with other | inside | none | covered
    · cases setting : pager.durability <;> simp_all
    · rw [idle] at inside
      cases inside
    · omega
    · obtain ⟨last, commits⟩ := Nat.exists_eq_succ_of_ne_zero (Nat.ne_of_gt (Nat.zero_lt_of_lt low))
      obtain ⟨frame, present, commit, own, _⟩ := holds.committed_last commits
      simp only [commits, Nat.succ_sub_one] at covered
      rcases Nat.lt_succ_iff_lt_or_eq.mp (commits ▸ low) with earlier | same
      · exact ordered _ last frame (holds.header (holds.ready committed)) present commit own _
          earlier covered
      · exact same ▸ covered

/-- What is entered after a run of a program that keeps the log. -/
private theorem ends_following {α : Type} {program : PagerM α} {start pager' : Pager}
    {disk disk' : Disk} {value : α} {fates : List Fate} {post : α → Pager → Disk → Prop}
    {raised : Error → Pager → Disk → Prop}
    (valid : Prog.wp Never program post raised LogAsks start disk) (calm : Program.Calm fates)
    (ran : program.run fates start disk = (.returned value pager', disk')) :
    post value pager' disk' ∧ Reaches disk disk' := by
  have met := Prog.run_of_wp_calm valid calm (fun _ _ _ _ => trivial) (fun _ _ _ _ => trivial)
    fun _ _ _ => trivial
  have reached := Prog.reaches_of_wp valid calm
  rw [ran] at met reached
  exact ⟨met, reached⟩

theorem System.Enters.reached {system : System} (followed : system.Followed)
    (enters : system.Enters pager disk) :
    pager.Follows disk.files ∧ Reaches system.disk disk := by
  obtain ⟨start, open_, ledger⟩ := system
  cases enters with
  | opens closed calm ran =>
    cases closed
    obtain ⟨⟨follows, _⟩, reached⟩ :=
      ends_following (Pager.wp_openLog_follows followed _) calm ran
    exact ⟨follows, reached⟩
  | commits running calm _ ran =>
    cases running
    exact ends_following (Pager.trails_commitLog _ _ followed) calm ran
  | checkpoints running =>
    cases running
    exact ⟨followed, .refl⟩
  | follows running calm ran =>
    cases running
    exact ends_following (Pager.trails_commit _ _ followed) calm ran

theorem System.Enters.ordered {history : List Step} (calm : ∀ step ∈ history, step.Calm)
    (enters : (history.foldl System.step {}).Enters pager disk) :
    pager.wal.Holds disk.files.log ∧ disk.Ordered := by
  obtain ⟨followed, reached⟩ := System.run_follows calm
  obtain ⟨follows, later⟩ := enters.reached followed
  refine ⟨follows.tracks.toHolds, Disk.Ordered.reaches ?_ (reached.trans later)⟩
  intro header index frame headed
  cases headed

/-- Every checkpoint of every run, recoveries included, copies covered frames only,
exactly if under `kFull` the log was synced after its last commit frame. -/
theorem checkpoint_writes_ahead_iff {history : List Step}
    (calm : ∀ step ∈ history, step.Calm)
    (enters : (history.foldl System.step {}).Enters pager disk) :
    WriteAhead pager disk ↔
      pager.durability ≠ .kFull ∨ pager.inTransaction = true ∨ pager.wal.commitEnd = 0 ∨
        disk.Covered (pager.wal.commitEnd - 1) :=
  writeAhead_iff (enters.ordered calm).1 (enters.ordered calm).2

end WriteAhead

section Examples

/-- A process that commits one page under a durability and then asks for `kFull`. -/
def commitUnder (durability : Durability) : List Step :=
  [.opens ⟨7, 1⟩ [], .performs .allocatePage [],
    .performs (.writePage 1 { id := 1, type := .kSlotted }) [],
    .performs (.setDurability durability) [], .performs .commit [],
    .performs (.setDurability .kFull) []]

private theorem calm_commitUnder (durability : Durability) :
    ∀ step ∈ commitUnder durability, step.Calm := by
  simp [commitUnder, Step.Calm, Program.Calm]

theorem checkpoint_writes_ahead_full :
    ∃ pager, ((commitUnder .kFull).foldl System.step {}).pager = some pager ∧
      WriteAhead pager ((commitUnder .kFull).foldl System.step {}).disk := by
  obtain ⟨pager, open_⟩ : ∃ pager, ((commitUnder .kFull).foldl System.step {}).pager = some pager :=
    Option.isSome_iff_exists.mp (by decide +kernel)
  have covered : ((commitUnder .kFull).foldl System.step {}).pager.all fun pager =>
      decide (((commitUnder .kFull).foldl System.step {}).disk.Covered
        (pager.wal.commitEnd - 1)) := by decide +kernel
  rw [open_] at covered
  refine ⟨pager, open_, (checkpoint_writes_ahead_iff (calm_commitUnder .kFull)
    (.checkpoints open_)).mpr ?_⟩
  exact .inr (.inr (.inr (by simpa using covered)))

/-- Committed under `kOff`, copied under `kFull`: no sync of the log in between. -/
theorem checkpoint_copies_uncovered_frames :
    ¬ ∀ (history : List Step) (pager : Pager) (disk : Disk), (∀ step ∈ history, step.Calm) →
      (history.foldl System.step {}).Enters pager disk → WriteAhead pager disk := by
  intro always
  obtain ⟨pager, open_⟩ : ∃ pager, ((commitUnder .kOff).foldl System.step {}).pager = some pager :=
    Option.isSome_iff_exists.mp (by decide +kernel)
  have enters := System.Enters.checkpoints open_
  have calm := calm_commitUnder .kOff
  have safe := (writeAhead_iff (enters.ordered calm).1 (enters.ordered calm).2).mp
    (always _ _ _ calm enters)
  have broken : ((commitUnder .kOff).foldl System.step {}).pager.all fun pager =>
      decide (pager.durability = .kFull ∧ pager.inTransaction = false ∧
        pager.wal.commitEnd ≠ 0 ∧ ¬ ((commitUnder .kOff).foldl System.step {}).disk.Covered
          (pager.wal.commitEnd - 1)) := by decide +kernel
  rw [open_] at broken
  simp only [Option.all_some, decide_eq_true_eq] at broken
  obtain ⟨full, idle, commits, uncovered⟩ := broken
  rcases safe with other | inside | none | covered
  · exact other full
  · rw [idle] at inside
    cases inside
  · exact commits none
  · exact uncovered covered

end Examples

end Labdb.Storage
