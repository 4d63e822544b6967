import Labdb.Storage.SealedCalls
import Labdb.Storage.Session

/-! Power cuts across checkpoints, for processes that sync their commits: what comes back is the
last commit, or the one that was in flight. -/

namespace Labdb.Storage

open Labdb.Program

/-- The next process to open these files restores this version of a page: the one
its recovery redoes, or else the file's. -/
def Files.Restores (files : Files) (id : PageId) (page : Page) : Prop :=
  ∃ fields databaseId, (files.page 0).body = .record fields databaseId ∧ ∀ draw,
    ∃ found wal, (do let _ ← Wal.recover; Wal.read id).run []
      (Wal.construct databaseId draw files.log) { base := files } =
        (.returned found wal, { base := files }) ∧ page = found.getD (files.page id)

/-- The version of a page, the meta page included, that belongs to a database. -/
def Database.IsVersion (database : Database) (databaseId : Nat) (id : PageId) (page : Page) :
    Prop :=
  if id = 0 then page.body = .record database.fields databaseId else page = database.page id

/-- Every call of the step meets a rule. -/
def Step.Obeys (rule : FileCall → Disk → Prop) (system : System) : Step → Prop
  | .opens draws fates =>
      system.pager = none → Prog.Obeys rule (Pager.construct draws) fates {} system.disk
  | .performs op fates => ∀ pager ∈ system.pager, Prog.Obeys rule op.program fates pager system.disk
  | .closes fates => ∀ pager ∈ system.pager, Prog.Obeys rule Pager.destroy fates pager system.disk
  | .dies => True

/-- What a step must find: a process that opens the database, a log that was synced after its
last commit. -/
def Step.Seals (system : System) (step : Step) : Prop :=
  (match step with
    | .opens _ _ => system.pager = none → system.disk.Vouched system.disk.files.log.scan.commitEnd
    | _ => True) ∧ step.Obeys FileCall.Reuses system

def System.Seals (system : System) : List Step → Prop
  | [] => True
  | step :: rest => step.Seals system ∧ (system.step step).Seals rest

instance (rule : FileCall → Disk → Prop) [∀ request disk, Decidable (rule request disk)]
    (system : System) : (step : Step) → Decidable (step.Obeys rule system)
  | .opens _ _ => inferInstanceAs (Decidable (system.pager = none → _))
  | .performs _ _ => inferInstanceAs (Decidable (∀ pager ∈ system.pager, _))
  | .closes _ => inferInstanceAs (Decidable (∀ pager ∈ system.pager, _))
  | .dies => isTrue trivial

instance (disk : Disk) (commitEnd : Nat) : Decidable (disk.Vouched commitEnd) :=
  inferInstanceAs (Decidable (_ ∨ _))

instance Step.decidableSeals (system : System) : (step : Step) → Decidable (step.Seals system)
  | .opens _ _ => inferInstanceAs (Decidable ((system.pager = none → _) ∧ _))
  | .performs _ _ | .closes _ | .dies => inferInstanceAs (Decidable (True ∧ _))

instance System.decidableSeals :
    (system : System) → (history : List Step) → Decidable (system.Seals history)
  | _, [] => isTrue trivial
  | system, step :: rest =>
      have := System.decidableSeals (system.step step) rest
      inferInstanceAs (Decidable (step.Seals system ∧ _))

/-- A step of a process that syncs its commits. -/
def Step.Full : Step → Prop
  | .performs op _ => op.Full
  | .opens _ _ | .closes _ | .dies => True

/-- A process opens a database, or a new file, that is at rest. -/
structure System.Opening (start : System) (step : Step) : Prop where
  rest : start.disk.trace = []
  closed : start.pager = none
  sound : start.disk.files.Sound start.ledger.acked
  opens : ∃ draws fates, step = .opens draws fates
  calm : step.Calm
  opened : (start.step step).pager ≠ none

/-- Whatever a power cut leaves, the next process restores a database that is owed. -/
def System.CutSafe (system : System) : Prop :=
  ∀ left, system.disk.Leaves left → ∃ database databaseId, system.ledger.Owes database ∧
    ∀ id, ∃ page, left.Restores id page ∧ database.IsVersion databaseId id page

section Restores

variable {files : Files} {id : PageId} {databaseId : Nat}

private theorem Files.restores_version {fields : Meta}
    (filed : (files.page 0).body = .record fields databaseId)
    (own : ∀ header, files.log.header = some header → header.databaseId = databaseId) :
    files.Restores id (files.version id) := by
  refine ⟨fields, databaseId, filed, fun draw => ?_⟩
  obtain ⟨wal, ran⟩ := Wal.recover_read databaseId draw { base := files } id own
  exact ⟨files.log.redo id, wal, ran, rfl⟩

/-- There is one version that is restored. -/
theorem Files.Restores.eq {page page' : Page} (restores : files.Restores id page)
    (restores' : files.Restores id page') : page = page' := by
  obtain ⟨fields, databaseId, filed, found⟩ := restores
  obtain ⟨_, _, filed', found'⟩ := restores'
  cases filed.symm.trans filed'
  obtain ⟨first, _, ran, rfl⟩ := found 0
  obtain ⟨second, _, ran', rfl⟩ := found' 0
  have ended := (congrArg Prod.fst ran).symm.trans (congrArg Prod.fst ran')
  cases ended
  rfl

private theorem Files.Stores.isVersion {database : Database}
    (stores : files.Stores databaseId database) (id : PageId) :
    database.IsVersion databaseId id (files.version id) := by
  unfold Database.IsVersion
  split
  · subst id
    exact stores.fields
  · exact stores.pages id ‹_›

end Restores

section Secure

variable {disk : Disk} {ledger : Ledger} {pager : Pager}

/-- The disk is sealed for a database that is owed. -/
def Ledger.Sealed (ledger : Ledger) (disk : Disk) : Prop :=
  ∃ database committed databaseId, ledger.Owes database ∧
    (∀ id, database.IsVersion databaseId id (committed id)) ∧
    ∃ generation commitEnd, Storage.Sealed committed databaseId generation commitEnd disk

/-- What sealed files read is of the database that they store. -/
theorem Sealed.isVersion {committed : PageId → Page} {databaseId generation commitEnd : Nat}
    (safe : Storage.Sealed committed databaseId generation commitEnd disk) {database : Database}
    (sound : disk.files.Sound database) (id : PageId) :
    database.IsVersion databaseId id (disk.files.version id) := by
  obtain ⟨_, filed⟩ := safe.formatted
  rcases sound with ⟨blank, _⟩ | ⟨memory, holds, stores⟩
  · rw [blank] at filed
    cases filed
  · obtain ⟨_, _, filed'⟩ := stores.filed
    cases filed.symm.trans filed'
    exact stores.isVersion id

theorem Ledger.Sealed.moves (safe : ledger.Sealed disk) {request : FileCall}
    (asked : ledger.Asks True request disk) (reuses : request.Reuses disk) :
    ledger.Sealed (Device.perform request disk) := by
  obtain ⟨_, committed, databaseId, owed, reads, generation, commitEnd, safe⟩ := safe
  obtain ⟨legal, database, owed', sound⟩ := asked
  obtain ⟨committed', same | ⟨rfl, _⟩, sealed'⟩ := safe.moves legal reuses sound
  · exact ⟨_, committed', databaseId, owed, same ▸ reads, sealed'⟩
  · exact ⟨database, _, databaseId, owed', fun id => safe.isVersion sound id, sealed'⟩

/-- A process that has synced its last commit: the disk is sealed for it. -/
theorem Ledger.Sealed.acked {ledger' : Ledger} (safe : ledger'.Sealed disk)
    (shown : ledger.Shown True pager disk) :
    ∃ databaseId generation commitEnd,
      Storage.Sealed disk.files.version databaseId generation commitEnd disk := by
  obtain ⟨_, committed, databaseId, _, _, generation, commitEnd, safe⟩ := safe
  obtain ⟨shows, durable⟩ := shown
  have same := safe.committed_eq shows.holds (durable trivial).2
  exact ⟨databaseId, generation, commitEnd, same ▸ safe⟩

private theorem Ledger.sealed_of_shown {ledger' : Ledger} (shown : ledger.Shown True pager disk)
    (owed : ledger'.Owes ledger.acked) {databaseId generation commitEnd : Nat}
    (safe : Storage.Sealed disk.files.version databaseId generation commitEnd disk) :
    ledger'.Sealed disk := by
  exact ⟨ledger.acked, _, databaseId, owed, safe.isVersion shown.1.sound, generation, commitEnd,
    safe⟩

/-- The disk is sealed for a database that is owed, and a process that is open shows what it
owes. -/
def System.Secure (system : System) : Prop :=
  system.ledger.Sealed system.disk ∧
    match system.pager with
    | some pager => system.ledger.Shown True pager system.disk
    | none => system.ledger.Safe system.disk

theorem System.Secure.safe {system : System} (secure : system.Secure) :
    system.ledger.Safe system.disk := by
  obtain ⟨disk, _ | pager, ledger⟩ := system
  · exact secure.2
  · exact ⟨ledger.acked, .inl rfl, secure.2.1.sound⟩

/-- What a power cut leaves restores a database that is owed. -/
theorem System.Secure.cut {system : System} (secure : system.Secure) : system.CutSafe := by
  intro left leaves
  obtain ⟨database, committed, databaseId, owed, reads, generation, commitEnd, safe⟩ := secure.1
  have restores : ∀ id, left.Restores id (left.version id) := by
    intro id
    obtain ⟨fields, filed⟩ := safe.named _ (leaves.pages 0)
    refine Files.restores_version filed fun header found => ?_
    have member := leaves.log.header
    rw [found] at member
    by_cases own : header = ⟨generation, databaseId⟩
    · rw [own]
    · exact (safe.headers header member.some own).1
  rcases safe.cut leaves with same | same
  · refine ⟨database, databaseId, owed, fun id => ⟨_, restores id, ?_⟩⟩
    rw [same]
    exact reads id
  · obtain ⟨database', owed', sound⟩ := secure.safe
    refine ⟨database', databaseId, owed', fun id => ⟨_, restores id, ?_⟩⟩
    rw [same]
    exact safe.isVersion sound id

theorem Ledger.owes_died (ledger : Ledger) (op : Op) : (ledger.died op).Owes ledger.acked := by
  cases op <;> exact .inl rfl

/-- A process that has just opened the database: the disk is sealed for what it shows. -/
private theorem Ledger.Sealed.opened {ledger' : Ledger} (safe : ledger'.Sealed disk)
    {database : Database} (settled : pager.Settled disk.files database .kFull) :
    let found := pager.view disk.files
    System.Secure ⟨disk, some pager, { acked := found, current := found }⟩ := by
  have shows := settled.shows
  have shown : Ledger.Shown { acked := pager.view disk.files, current := pager.view disk.files }
      True pager disk := by
    refine ⟨?_, fun _ => ⟨settled.setting, .inl settled.empty⟩⟩
    rw [shows.view_eq]
    exact shows
  obtain ⟨_, _, _, safe'⟩ := safe.acked shown
  exact ⟨Ledger.sealed_of_shown shown (.inl rfl) safe', shown⟩

private theorem Ledger.Sealed.filed (safe : ledger.Sealed disk) : disk.files.pages ≠ [] := by
  obtain ⟨_, _, _, _, _, _, _, safe⟩ := safe
  obtain ⟨_, filed⟩ := safe.formatted
  intro blank
  rw [Files.page, blank] at filed
  cases filed

/-- A process that opens a sealed disk whose log was synced after its last commit. -/
private theorem System.opens_secure {draws : Draws} {fates : List Fate} (calm : Program.Calm fates)
    (sealed_ : ledger.Sealed disk) (safe : ledger.Safe disk)
    (seals : (Step.opens draws fates).Seals ⟨disk, none, ledger⟩) :
    (System.step ⟨disk, none, ledger⟩ (.opens draws fates)).Secure := by
  have valid := wp_opens True safe (fun _ => ⟨seals.1 rfl, sealed_.filed⟩) draws
  have ran := Prog.run_of_wp_calm valid calm (fun _ pager after ⟨database, owed, settled⟩ =>
    (⟨database, owed, settled.shows.sound⟩ : ledger.Safe after))
    (fun _ _ _ impossible => impossible.elim) fun _ _ asked => asked.2
  have kept := Prog.invariant_of_wp valid calm (seals.2 rfl) sealed_
    fun request disk asked reuses safe => safe.moves asked reuses
  simp only [System.step]
  generalize (Pager.construct draws).run fates {} disk = ended at ran kept ⊢
  rcases ended with ⟨⟨_, pager⟩ | _ | _, after⟩
  · obtain ⟨_, _, settled⟩ := ran
    exact kept.opened settled
  · exact ran.elim
  · exact ⟨kept, ran⟩

/-- Each step of processes that sync their commits keeps the disk sealed. -/
theorem System.step_secure {system : System} {step : Step} (calm : step.Calm) (full : step.Full)
    (fits : step.Fits system) (seals : step.Seals system) (secure : system.Secure) :
    (system.step step).Secure := by
  obtain ⟨disk, open_, ledger⟩ := system
  cases step with
  | opens draws fates =>
    cases open_ with
    | some pager => exact secure
    | none => exact System.opens_secure calm secure.1 secure.2 seals
  | closes fates =>
    cases open_ with
    | none => exact secure
    | some pager =>
      obtain ⟨sealed_, shown⟩ := secure
      obtain ⟨_, _, _, safe⟩ := sealed_.acked shown
      have valid := wp_closes True shown
      have ran := Prog.run_of_wp_calm valid calm (fun _ _ after shown =>
        (⟨ledger.current, .inr rfl, shown.1.sound⟩ : ledger.cut.Safe after))
        (fun _ _ _ impossible => impossible.elim) fun _ _ asked => asked.2
      have kept := Prog.invariant_of_wp valid calm (seals.2 pager rfl)
        (Ledger.sealed_of_shown shown (.inl rfl : ledger.cut.Owes ledger.acked) safe)
        fun request disk asked reuses safe => safe.moves asked reuses
      simp only [System.step]
      generalize Pager.destroy.run fates pager disk = ended at ran kept ⊢
      rcases ended with ⟨⟨_, pager'⟩ | _ | _, after⟩
      · obtain ⟨_, _, _, safe'⟩ := kept.acked ran
        exact ⟨Ledger.sealed_of_shown ran (.inl rfl) safe',
          ledger.current, .inl rfl, ran.1.sound⟩
      · exact ran.elim
      · exact ⟨kept, ran⟩
  | dies =>
    cases open_ with
    | none => exact secure
    | some pager =>
      obtain ⟨sealed_, shown⟩ := secure
      obtain ⟨databaseId, generation, commitEnd, safe⟩ := sealed_.acked shown
      exact ⟨Ledger.sealed_of_shown shown (.inl rfl) safe, Ledger.safe_lost shown.1.sound⟩
  | performs op fates =>
    cases open_ with
    | none => exact secure
    | some pager =>
      obtain ⟨sealed_, shown⟩ := secure
      obtain ⟨_, _, _, safe⟩ := sealed_.acked shown
      have valid := wp_program True shown op (fits pager rfl) fun _ => full
      have ran := Prog.run_of_wp_calm valid calm (fun _ _ _ _ => trivial) (fun _ _ _ _ => trivial)
        fun _ _ _ => trivial
      have died := run_program calm shown.1 op (fits pager rfl)
      have kept := Prog.invariant_of_wp valid calm (seals.2 pager rfl)
        (Ledger.sealed_of_shown shown (ledger.owes_died op) safe)
        fun request disk asked reuses safe => safe.moves asked reuses
      simp only [System.step]
      generalize op.program.run fates pager disk = ended at ran died kept ⊢
      rcases ended with ⟨⟨_, pager'⟩ | ⟨_, pager'⟩ | _, after⟩
      · obtain ⟨_, _, _, safe'⟩ := kept.acked ran
        exact ⟨Ledger.sealed_of_shown ran (.inl rfl) safe', ran⟩
      · obtain ⟨_, _, _, safe'⟩ := kept.acked ran
        exact ⟨Ledger.sealed_of_shown ran (.inl rfl) safe', ran⟩
      · exact ⟨kept, died⟩

private theorem System.run_secure {system : System} {history : List Step}
    (calm : ∀ step ∈ history, step.Calm) (full : ∀ step ∈ history, step.Full)
    (fits : system.Fits history) (seals : system.Seals history) (secure : system.Secure) :
    (history.foldl System.step system).Secure := by
  induction history generalizing system with
  | nil => exact secure
  | cons step rest ih =>
    obtain ⟨first, later⟩ := seals
    exact ih (fun step member => calm step (by simp [member]))
      (fun step member => full step (by simp [member])) fits.2 later
      (System.step_secure (calm step (by simp)) (full step (by simp)) fits.1 first secure)

/-- Files at rest are sealed. -/
theorem sealed_at_rest {files : Files} {database : Database} (sound : files.Sound database)
    (some : files.pages ≠ []) (owed : ledger.Owes database) :
    ledger.Sealed { base := files } := by
  rcases sound with ⟨rfl, _⟩ | ⟨memory, holds, stores⟩
  · exact absurd rfl some
  · have named : ∀ page ∈ Disk.pageVersions { base := files } 0, ∃ fields,
        page.body = .record fields memory.databaseId := by
      intro page member
      rw [List.mem_singleton.mp member]
      exact stores.filed.2
    have rest := sealed_of_settled { base := files } holds (fun _ => rfl) named rfl rfl
      (fun _ member => List.mem_singleton.mp member)
      (fun _ _ member => List.mem_singleton.mp member)
      fun _ _ _ member => List.mem_singleton.mp member
    exact ⟨database, _, _, owed, stores.isVersion, _, _, rest⟩

/-- The disk with a new database on it. -/
def newDisk (databaseId : Nat) : Disk :=
  Device.perform .syncFile (Device.perform (.writePage 0 (Pager.metaPageOf {} databaseId))
    (Device.perform (.resizeFile 0) {}))

private theorem wp_openDatabase_new {draw : Nat} :
    Prog.wp Never (Pager.openDatabase draw)
      (fun found _ disk => found = ({}, draw) ∧ disk = newDisk draw)
      (fun _ _ _ => False) (fun _ _ => True) ({} : Pager) {} := by
  rw [Pager.openDatabase, Prog.wp_bind, Prog.wp_look]
  exact ⟨trivial, ⟨trivial, ⟨trivial, ⟨rfl, rfl⟩, nofun⟩, nofun⟩, nofun⟩

private theorem run_construct_new {draws : Draws} {fates : List Fate} (calm : Program.Calm fates)
    {value : Unit} {disk : Disk}
    (ran : (Pager.construct draws).run fates {} {} = (.returned value pager, disk)) :
    disk = newDisk draws.databaseId := by
  have valid : Prog.wp Never (Pager.construct draws)
      (fun _ _ disk => disk = newDisk draws.databaseId)
      (fun _ _ _ => False) (fun _ _ => True) {} {} := by
    rw [Pager.construct, Pager.openLog, Prog.wp_bind, Prog.wp_bind]
    refine Prog.wp_mono wp_openDatabase_new ?_ (fun _ _ _ => id) fun _ _ => id
    rintro _ _ _ ⟨rfl, rfl⟩
    have files : (newDisk draws.databaseId).files =
        { pages := [Pager.metaPageOf {} draws.databaseId] } := rfl
    simp [Wal.construct, Wal.recover, Pager.onWal, Prog.wp_zoom, Pager.wp_checkThat, files]
  have met := Prog.run_of_wp_calm valid calm (fun _ _ _ _ => trivial) (fun _ _ _ _ => trivial)
    fun _ _ _ => trivial
  rwa [ran] at met

private theorem sealed_new (databaseId : Nat) (owed : ledger.Owes .initial) :
    ledger.Sealed (newDisk databaseId) := by
  have stores := Pager.stores_initial databaseId
  have holds := (Wal.tracks_empty { databaseId }).toHolds
  have named : ∀ page ∈ (newDisk databaseId).pageVersions 0, ∃ fields,
      page.body = .record fields databaseId := by
    intro page member
    rw [Disk.mem_versions_settle rfl member]
    exact ⟨{}, rfl⟩
  have headers : (newDisk databaseId).headerVersions = List.replicate 4 none := rfl
  have slots : ∀ slot, (newDisk databaseId).slotVersions slot = List.replicate 4 none :=
    fun _ => rfl
  have rest := sealed_of_settled (newDisk databaseId) holds (fun _ => rfl) named rfl rfl
    (fun _ member => List.eq_of_mem_replicate (headers ▸ member))
    (fun slot _ member => List.eq_of_mem_replicate (slots slot ▸ member))
    fun _ _ _ member => Disk.mem_versions_settle rfl member
  exact ⟨.initial, _, _, owed, stores.isVersion, _, _, rest⟩

/-- A process that has opened a database at rest is secure. -/
theorem System.Opening.secure {start : System} {step : Step} (opening : start.Opening step)
    (seals : step.Seals start) : (start.step step).Secure := by
  obtain ⟨disk, open_, ledger⟩ := start
  obtain ⟨rest, closed, sound, ⟨draws, fates, rfl⟩, calm, opened⟩ := opening
  cases closed
  obtain ⟨files, trace⟩ := disk
  cases rest
  have safe : ledger.Safe { base := files } := ⟨ledger.acked, .inl rfl, sound⟩
  by_cases blank : files.pages = []
  · -- a new file is formatted and synced
    have settled := Prog.run_of_wp_calm (wp_opens False safe nofun draws) calm
      (fun _ _ _ _ => trivial) (fun _ _ _ _ => trivial) fun _ _ _ => trivial
    rcases sound with ⟨rfl, initial⟩ | ⟨_, _, stores⟩
    · simp only [System.step] at opened ⊢
      generalize ran : (Pager.construct draws).run fates {} { base := {} } = ended
        at opened settled ⊢
      rcases ended with ⟨⟨_, pager⟩ | _ | _, after⟩
      · obtain ⟨database, owed, settled⟩ := settled
        have new := run_construct_new calm ran
        subst new
        exact (sealed_new draws.databaseId (.inl initial.symm : ledger.Owes .initial)).opened settled
      · exact settled.elim
      · exact absurd rfl opened
    · have filed : 0 < files.pages.length := stores.filed.1
      rw [blank] at filed
      cases filed
  · exact System.opens_secure calm (sealed_at_rest sound blank (.inl rfl)) safe seals

end Secure

section Examples

def filled (id : PageId) (byte : UInt8) : Page := { id, type := .kSlotted, body := .bytes [byte] }

def performed (ops : List Op) : List Step := ops.map fun op => .performs op []

private theorem calm_performed (ops : List Op) : ∀ step ∈ performed ops, step.Calm := by
  intro step member
  obtain ⟨op, _, rfl⟩ := List.mem_map.mp member
  exact calm_nil

private theorem opening_new : System.Opening {} (.opens ⟨7, 1⟩ []) :=
  ⟨rfl, rfl, .inl ⟨rfl, rfl⟩, ⟨⟨7, 1⟩, [], rfl⟩, calm_nil, by decide +kernel⟩

/-- A commit, a checkpoint and a clean close, and the next process, which dies in its commit before
the sync. -/
def reopened : List Step :=
  performed [.allocatePage, .writePage 1 (filled 1 1), .commit, .checkpoint] ++ .closes [] ::
    .opens ⟨8, 5⟩ [] :: performed [.writePage 1 (filled 1 2)] ++ [.performs .commit [.done, .dies]]

/-- Two commits and a checkpoint, then frames over the log it left. -/
def reusedLog : System :=
  List.foldl System.step {} <| .opens ⟨7, 1⟩ [] :: performed
    [.allocatePage, .writePage 1 (filled 1 1), .commit, .writePage 1 (filled 1 2), .commit,
      .checkpoint, .writePage 1 (filled 1 3), .allocatePage, .writePage 2 (filled 2 4),
      .allocatePage, .writePage 3 (filled 3 5)]

/-- Of the log, the old header and the first commit before the newest frame. -/
def firstCommit : Files where
  pages := reusedLog.disk.files.pages
  log :=
    { header := some ⟨1, 7⟩
      frames := [some ⟨1, false, 1, 7, filled 1 1⟩,
        some ⟨0, true, 1, 7, Pager.metaPageOf { pageCount := 2 } 7⟩,
        some ⟨3, false, 2, 7, filled 3 5⟩,
        some ⟨0, true, 1, 7, Pager.metaPageOf { pageCount := 2 } 7⟩] }

end Examples

end Labdb.Storage
