import Labdb.Storage.Recovery

/-! Processes one after the other over one database. Each opens it, works on it,
and closes it or dies at one of its file calls or between two of them. -/

namespace Labdb.Storage

open Labdb.Program

/-- What a user asks of a pager. -/
inductive Op where
  | readPage (id : PageId)
  | writePage (id : PageId) (page : Page)
  | allocatePage
  | freePage (id : PageId)
  | setBtreeRoot (id : PageId)
  | setHeapHead (id : PageId)
  | setCatalogRoot (id : PageId)
  | setDurability (durability : Durability)
  | setCheckpointFrames (count : Nat)
  | commit
  | rollback
  | checkpoint
  | sync
  deriving DecidableEq, Repr

def Op.program : Op → PagerM Unit
  | .readPage id => do let _ ← Pager.readPage id
  | .writePage id page => Pager.writePage id page
  | .allocatePage => do let _ ← Pager.allocatePage
  | .freePage id => Pager.freePage id
  | .setBtreeRoot id => Pager.setBtreeRoot id
  | .setHeapHead id => Pager.setHeapHead id
  | .setCatalogRoot id => Pager.setCatalogRoot id
  | .setDurability durability => Pager.setDurability durability
  | .setCheckpointFrames count => Pager.setCheckpointFrames count
  | .commit => Pager.commit
  | .rollback => Pager.rollback
  | .checkpoint => Pager.checkpoint
  | .sync => Pager.sync

/-- The operation leaves every commit to be synced. -/
def Op.Full : Op → Prop
  | .setDurability durability => durability = .kFull
  | _ => True

/-- An operation that allocates a page finds room for its id. -/
def Op.Fits (fields : Meta) : Op → Prop
  | .allocatePage => fields.Fits
  | _ => True

instance Op.decidableFits (fields : Meta) : (op : Op) → Decidable (op.Fits fields)
  | .allocatePage => inferInstanceAs (Decidable fields.Fits)
  | .readPage _ | .writePage _ _ | .freePage _ | .setBtreeRoot _ | .setHeapHead _
  | .setCatalogRoot _ | .setDurability _ | .setCheckpointFrames _ | .commit | .rollback
  | .checkpoint | .sync => isTrue trivial

/-- What the users of a database are owed: the state as of the last commit that
returned, the state of the transaction in progress, and the state of a commit
that a death cut off. -/
structure Ledger where
  acked : Database := .initial
  current : Database := .initial
  inFlight : Option Database := none

namespace Ledger

/-- A change within the transaction; one that is refused changes nothing. -/
def update (ledger : Ledger) (change : Database → Option Database) : Ledger :=
  { ledger with current := (change ledger.current).getD ledger.current }

def commit (ledger : Ledger) : Ledger := { ledger with acked := ledger.current }

/-- What an operation that came back has done. -/
def after (ledger : Ledger) : Op → Ledger
  | .readPage _ | .setDurability _ | .setCheckpointFrames _ | .checkpoint => ledger
  | .writePage id page => ledger.update (·.write id page)
  | .allocatePage => ledger.update fun database => database.allocate.map Prod.snd
  | .freePage id => ledger.update (·.free id)
  | .setBtreeRoot id => ledger.update fun database => some { database with fields.btreeRoot := id }
  | .setHeapHead id => ledger.update fun database => some { database with fields.heapHead := id }
  | .setCatalogRoot id =>
      ledger.update fun database => some { database with fields.catalogRoot := id }
  | .commit | .sync => ledger.commit
  | .rollback => { ledger with current := ledger.acked }

/-- The process is gone, and with it the transaction. -/
def lost (ledger : Ledger) : Ledger := { ledger with current := ledger.acked }

/-- The process died inside a commit. -/
def cut (ledger : Ledger) : Ledger := { ledger.lost with inFlight := some ledger.current }

/-- What a death inside an operation leaves. -/
def died (ledger : Ledger) : Op → Ledger
  | .commit | .sync => ledger.cut
  | _ => ledger.lost

/-- A database that the next process may find. -/
def Owes (ledger : Ledger) (database : Database) : Prop :=
  database = ledger.acked ∨ ledger.inFlight = some database

end Ledger

/-- The database as the pager shows it. -/
def Pager.view (pager : Pager) (files : Files) : Database where
  fields := pager.meta_
  page id := if id = 0 then {} else (pager.wal.version files.log id).getD (files.page id)

/-- One event in the life of a database, with the fates of the calls it makes. -/
inductive Step where
  | opens (draws : Draws) (fates : List Fate)
  | performs (op : Op) (fates : List Fate)
  | closes (fates : List Fate)
  | dies
  deriving DecidableEq, Repr

/-- The disk, the process that has it open, and what is owed. -/
structure System where
  disk : Disk := {}
  pager : Option Pager := none
  ledger : Ledger := {}

def System.step (system : System) : Step → System
  | .opens draws fates =>
    match system.pager with
    | some _ => system
    | none =>
      match (Pager.construct draws).run fates {} system.disk with
      | (.returned _ pager, disk) =>
        let found := pager.view disk.files
        { disk, pager := some pager, ledger := { acked := found, current := found } }
      | (_, disk) => { system with disk }
  | .performs op fates =>
    match system.pager with
    | none => system
    | some pager =>
      match op.program.run fates pager system.disk with
      | (.returned _ pager, disk) =>
        { disk, pager := some pager, ledger := system.ledger.after op }
      | (.raised _ pager, disk) => { system with disk, pager := some pager }
      | (.died, disk) => { disk, pager := none, ledger := system.ledger.died op }
  | .closes fates =>
    match system.pager with
    | none => system
    | some pager =>
      match Pager.destroy.run fates pager system.disk with
      | (.died, disk) => { disk, pager := none, ledger := system.ledger.cut }
      | (_, disk) => { disk, pager := none, ledger := system.ledger.commit }
  | .dies =>
    match system.pager with
    | none => system
    | some _ => { system with pager := none, ledger := system.ledger.lost }

/-- Every call of the step is done, up to a death. -/
def Step.Calm : Step → Prop
  | .opens _ fates | .performs _ fates | .closes fates => Program.Calm fates
  | .dies => True

/-- A step that allocates a page finds room for its id. -/
def Step.Fits (system : System) : Step → Prop
  | .performs op _ => ∀ pager ∈ system.pager, op.Fits pager.meta_
  | _ => True

/-- Page ids fit in 32 bits all along a history. -/
def System.Fits (system : System) : List Step → Prop
  | [] => True
  | step :: rest => step.Fits system ∧ (system.step step).Fits rest

instance Step.decidableFits (system : System) : (step : Step) → Decidable (step.Fits system)
  | .performs op _ => inferInstanceAs (Decidable (∀ pager ∈ system.pager, op.Fits pager.meta_))
  | .opens _ _ | .closes _ | .dies => isTrue trivial

instance System.decidableFits :
    (system : System) → (history : List Step) → Decidable (system.Fits history)
  | _, [] => isTrue trivial
  | system, step :: rest =>
      have := System.decidableFits (system.step step) rest
      inferInstanceAs (Decidable (step.Fits system ∧ _))

section Calm

variable (synced : Prop) {pager : Pager} {disk : Disk} {ledger : Ledger}

/-- What the next process may find on the disk is what it is owed. -/
def Ledger.Safe (ledger : Ledger) (disk : Disk) : Prop :=
  ∃ database, ledger.Owes database ∧ disk.files.Sound database

/-- A call that may be made, over files in which the next process finds what it is owed. -/
def Ledger.Asks (ledger : Ledger) (synced : Prop) (request : FileCall) (disk : Disk) : Prop :=
  Legal synced request disk ∧ ledger.Safe disk

theorem Ledger.safe_lost (sound : disk.files.Sound ledger.acked) : ledger.lost.Safe disk :=
  ⟨ledger.acked, .inl rfl, sound⟩

private theorem Ledger.safe_cut
    (sound : disk.files.Sound ledger.acked ∨ disk.files.Sound ledger.current) :
    ledger.cut.Safe disk := by
  rcases sound with before | after
  · exact ⟨ledger.acked, .inl rfl, before⟩
  · exact ⟨ledger.current, .inr rfl, after⟩

theorem Ledger.asks_lost {synced : Prop} {request : FileCall} (asked : Storage.Asks synced ledger.acked request disk) :
    ledger.lost.Asks synced request disk :=
  ⟨asked.1, safe_lost asked.2⟩

private theorem Ledger.asks_cut {synced : Prop} {request : FileCall}
    (asked : Storage.Asks synced ledger.acked request disk ∨
      Storage.Asks synced ledger.current request disk) : ledger.cut.Asks synced request disk := by
  rcases asked with before | after
  · exact ⟨before.1, safe_cut (.inl before.2)⟩
  · exact ⟨after.1, safe_cut (.inr after.2)⟩

/-- The process shows what it owes, and one that syncs has synced its last commit. -/
def Ledger.Shown (ledger : Ledger) (synced : Prop) (pager : Pager) (disk : Disk) : Prop :=
  pager.Shows disk.files ledger.acked ledger.current ∧ (synced → pager.Durable disk)

/-- An operation of the transaction changes the database in progress as it should. -/
theorem wp_serves {α : Type} {program : PagerM α} {spec : Database → Option (α × Database)}
    (serves : Pager.Serves Never synced program spec) {change : Database → Option Database}
    (agrees : ∀ database, (spec database).map Prod.snd = change database)
    (shown : ledger.Shown synced pager disk) :
    Prog.wp Never program (fun _ => (ledger.update change).Shown synced)
      (fun _ => ledger.Shown synced) (ledger.lost.Asks synced) pager disk := by
  refine Prog.wp_mono (serves shown.1 shown.2) ?_ ?_ fun _ _ => Ledger.asks_lost
  · rintro value pager' disk' ⟨current', found, shows', durable'⟩
    exact ⟨by simpa [Ledger.update, ← agrees, found] using shows', durable'⟩
  · rintro _ pager' disk' (⟨_, shows', durable'⟩ | ⟨⟨_, _, impossible⟩, _⟩)
    · exact ⟨shows', durable'⟩
    · exact impossible.elim

theorem wp_program (shown : ledger.Shown synced pager disk) (op : Op)
    (fits : op.Fits pager.meta_) (full : synced → op.Full) :
    Prog.wp Never op.program (fun _ => (ledger.after op).Shown synced)
      (fun _ => ledger.Shown synced) ((ledger.died op).Asks synced) pager disk := by
  have map_unit : ∀ result : Option Database, (result.map ((), ·)).map Prod.snd = result := by
    intro result
    cases result <;> rfl
  obtain ⟨shows, durable⟩ := shown
  cases op with
  | readPage id =>
    rw [Op.program, Prog.wp_bind]
    refine Prog.wp_mono (Pager.serves_readPage id shows durable) ?_ ?_ fun _ _ => Ledger.asks_lost
    · rintro page pager' disk' ⟨current', found, shows', durable'⟩
      obtain ⟨_, _, same⟩ := Option.map_eq_some_iff.mp found
      cases same
      exact ⟨shows', durable'⟩
    · rintro _ pager' disk' (⟨_, shows', durable'⟩ | ⟨⟨_, _, impossible⟩, _⟩)
      · exact ⟨shows', durable'⟩
      · exact impossible.elim
  | writePage id page =>
    exact wp_serves synced (Pager.serves_writePage id page) (fun _ => map_unit _) ⟨shows, durable⟩
  | allocatePage =>
    rw [Op.program, Prog.wp_bind]
    refine Prog.wp_mono (Pager.wp_allocatePage shows (shows.meta_ ▸ fits)) ?_ ?_ fun _ _ => id
    · rintro id pager' disk' ⟨rfl, _, fields, allocated, rfl, shows'⟩
      rw [Ledger.after, Ledger.update, allocated]
      exact ⟨shows', durable⟩
    · rintro _ pager' disk' ⟨rfl, rfl, _⟩
      exact ⟨shows, durable⟩
  | freePage id =>
    exact wp_serves synced (Pager.serves_freePage id) (fun _ => map_unit _) ⟨shows, durable⟩
  | setBtreeRoot id =>
    have served := wp_serves synced (Pager.serves_setBtreeRoot id) (fun _ => rfl) ⟨shows, durable⟩
    exact served
  | setHeapHead id =>
    have served := wp_serves synced (Pager.serves_setHeapHead id) (fun _ => rfl) ⟨shows, durable⟩
    exact served
  | setCatalogRoot id =>
    have served :=
      wp_serves synced (Pager.serves_setCatalogRoot id) (fun _ => rfl) ⟨shows, durable⟩
    exact served
  | setDurability durability =>
    exact wp_serves synced (Pager.serves_setDurability durability full) (fun _ => rfl)
      ⟨shows, durable⟩
  | setCheckpointFrames count =>
    exact wp_serves synced (Pager.serves_setCheckpointFrames count) (fun _ => rfl)
      ⟨shows, durable⟩
  | commit =>
    refine Prog.wp_mono (Pager.wp_commit gentle_never shows durable)
      (fun _ _ _ done => ⟨done.1, done.2.2⟩) ?_ fun _ _ => Ledger.asks_cut
    rintro _ pager' disk' ⟨⟨_, _, impossible⟩, _⟩
    exact impossible.elim
  | rollback =>
    refine Prog.wp_mono (Pager.wp_rollback shows.toKeeps) ?_
      (fun _ _ _ impossible => impossible) fun _ _ => id
    rintro _ pager' disk' ⟨_, shows', _, durable'⟩
    exact ⟨shows', fun syncs => durable' (durable syncs)⟩
  | checkpoint =>
    cases idle : pager.inTransaction with
    | false =>
      have same := shows.idle idle
      refine Prog.wp_mono (Pager.wp_checkpoint gentle_never shows idle durable) ?_
        (fun _ _ _ impossible => impossible.elim) fun _ _ => Ledger.asks_lost
      intro _ pager' disk' settled
      refine ⟨by simpa only [Ledger.after, same] using settled.shows, fun syncs => ?_⟩
      exact ⟨settled.setting.trans (durable syncs).1, .inl settled.empty⟩
    | true =>
      simp only [Op.program, Pager.checkpoint, Prog.wp_bind, Prog.wp_get, Pager.wp_checkThat, idle]
      exact ⟨shows, durable⟩
  | sync =>
    rw [Op.program, Pager.sync, Prog.wp_bind]
    refine Prog.wp_mono (Pager.wp_commit gentle_never shows durable) ?_ ?_
      fun _ _ => Ledger.asks_cut
    · rintro _ pager' disk' ⟨shows', idle, durable'⟩
      rw [Prog.wp_bind]
      refine Prog.wp_mono (Pager.wp_checkpoint gentle_never shows' idle durable') ?_
        (fun _ _ _ impossible => impossible.elim) fun _ _ asked => Ledger.asks_cut (.inr asked)
      rintro _ pager'' disk'' ⟨shows'', _, empty, setting⟩
      refine ⟨Ledger.asks_cut (.inr ⟨.syncFile, shows''.sound⟩), ⟨shows'', fun syncs => ?_⟩,
        fun impossible => impossible.elim⟩
      exact ⟨setting.trans (durable' syncs).1, .inl empty⟩
    · rintro _ pager' disk' ⟨⟨_, _, impossible⟩, _⟩
      exact impossible.elim

/-- A process that is open shows what is owed; a disk without one stores it. -/
def System.Valid (system : System) : Prop :=
  match system.pager with
  | some pager => system.ledger.inFlight = none ∧
      pager.Shows system.disk.files system.ledger.acked system.ledger.current
  | none => system.ledger.Safe system.disk

theorem Pager.Shows.view_eq {files : Files} {acked current : Database}
    (shows : pager.Shows files acked current) : pager.view files = current := by
  have page : (pager.view files).page = current.page := by
    funext id
    simp only [Pager.view]
    split
    · subst id
      exact shows.named.meta_.symm
    · rename_i inside
      exact shows.pages id inside
  cases current
  simp only [Pager.view, shows.meta_] at page ⊢
  rw [page]

theorem Ledger.inFlight_after (ledger : Ledger) (op : Op) :
    (ledger.after op).inFlight = ledger.inFlight := by
  cases op <;> rfl

/-- The constructor shows one of the databases that are owed. -/
theorem wp_opens (safe : ledger.Safe disk)
    (covered : synced → disk.Vouched disk.files.log.scan.commitEnd ∧ disk.files.pages ≠ [])
    (draws : Draws) :
    Prog.wp Never (Pager.construct draws)
      (fun _ pager' disk' => ∃ database, ledger.Owes database ∧
        pager'.Settled disk'.files database .kFull)
      (fun _ _ _ => False) (ledger.Asks synced) ({} : Pager) disk := by
  obtain ⟨database, owed, sound⟩ := safe
  refine Prog.wp_mono (Pager.wp_construct gentle_never sound covered draws) ?_ (fun _ _ _ => id) ?_
  · exact fun _ pager' disk' settled => ⟨database, owed, settled⟩
  · exact fun request disk' asked => ⟨asked.1, database, owed, asked.2⟩

theorem wp_closes (shown : ledger.Shown synced pager disk) :
    Prog.wp Never Pager.destroy
      (fun _ => Ledger.Shown { acked := ledger.current, current := ledger.current } synced)
      (fun _ _ _ => False) (ledger.cut.Asks synced) pager disk := by
  refine Prog.wp_mono (Pager.wp_destroy gentle_never shown.1 shown.2) ?_ (fun _ _ _ => id)
    fun _ _ => Ledger.asks_cut
  rintro _ pager' disk' (shown' | ⟨⟨_, _, impossible⟩, _⟩)
  · exact shown'
  · exact impossible.elim

/-- The constructor, left alone, comes to an end. -/
theorem construct_returns (safe : ledger.Safe disk) (draws : Draws) :
    ∃ pager after database,
      (Pager.construct draws).run [] {} disk = (.returned () pager, after) ∧
      ledger.Owes database ∧ pager.Shows after.files database database := by
  have ran := Prog.run_of_wp_nil (wp_opens False safe nofun draws)
  rcases ended : (Pager.construct draws).run [] {} disk with ⟨⟨_, pager⟩ | _ | _, after⟩ <;>
    rw [ended] at ran
  · obtain ⟨database, owed, settled⟩ := ran
    exact ⟨pager, after, database, rfl, owed, settled.shows⟩
  · exact ran.elim
  · exact ran.elim

private theorem run_construct {fates : List Fate} (calm : Program.Calm fates)
    (safe : ledger.Safe disk) (draws : Draws) :
    Prog.Meets (fun _ pager after => ∃ database, ledger.Owes database ∧
        pager.Settled after.files database .kFull)
      (fun _ _ _ => False) ledger.Safe ((Pager.construct draws).run fates {} disk) := by
  refine Prog.run_of_wp_calm (wp_opens False safe nofun draws) calm ?_
    (fun _ _ _ impossible => impossible.elim) fun _ _ asked => asked.2
  exact fun _ pager after ⟨database, owed, settled⟩ => ⟨database, owed, settled.shows.sound⟩

theorem run_program {fates : List Fate} (calm : Program.Calm fates)
    (shows : pager.Shows disk.files ledger.acked ledger.current) (op : Op)
    (fits : op.Fits pager.meta_) :
    Prog.Meets
      (fun _ pager' after =>
        pager'.Shows after.files (ledger.after op).acked (ledger.after op).current)
      (fun _ pager' after => pager'.Shows after.files ledger.acked ledger.current)
      (ledger.died op).Safe (op.program.run fates pager disk) := by
  refine Prog.run_of_wp_calm (Prog.wp_mono (wp_program False ⟨shows, nofun⟩ op fits nofun)
    (fun _ _ _ shown => shown.1) (fun _ _ _ shown => shown.1) fun _ _ => id) calm ?_ ?_
    fun _ _ asked => asked.2
  · intro _ pager' disk' shows'
    cases op <;> first
      | exact Ledger.safe_lost shows'.sound
      | exact Ledger.safe_cut (.inr shows'.sound)
  · intro _ pager' disk' shows'
    cases op <;> first
      | exact Ledger.safe_lost shows'.sound
      | exact Ledger.safe_cut (.inl shows'.sound)

private theorem run_destroy {fates : List Fate} (calm : Program.Calm fates)
    (shows : pager.Shows disk.files ledger.acked ledger.current) :
    Prog.Meets (fun _ _ after => after.files.Sound ledger.current) (fun _ _ _ => False)
      ledger.cut.Safe (Pager.destroy.run fates pager disk) :=
  Prog.run_of_wp_calm (Prog.wp_mono (wp_closes False ⟨shows, nofun⟩)
    (fun _ _ _ shown => shown.1.sound) (fun _ _ _ => id) fun _ _ => id) calm
    (fun _ _ _ sound => Ledger.safe_cut (.inr sound)) (fun _ _ _ impossible => impossible.elim)
    fun _ _ asked => asked.2

/-- Each event keeps what is owed. -/
theorem System.step_valid {system : System} {step : Step} (calm : step.Calm)
    (fits : step.Fits system) (valid : system.Valid) : (system.step step).Valid := by
  obtain ⟨disk, open_, ledger⟩ := system
  cases step with
  | opens draws fates =>
    cases open_ with
    | some pager => exact valid
    | none =>
      have ran : Prog.Meets _ _ _ ((Pager.construct draws).run fates {} disk) :=
        run_construct calm valid draws
      simp only [System.step]
      generalize (Pager.construct draws).run fates {} disk = ended at ran ⊢
      rcases ended with ⟨⟨_, pager⟩ | _ | _, after⟩
      · obtain ⟨database, _, settled⟩ := ran
        have shows := settled.shows
        have same := shows.view_eq
        simp only [System.Valid, same]
        exact ⟨trivial, shows⟩
      · exact ran.elim
      · exact ran
  | performs op fates =>
    cases open_ with
    | none => exact valid
    | some pager =>
      have ran : Prog.Meets _ _ _ (op.program.run fates pager disk) :=
        run_program calm valid.2 op (fits pager rfl)
      simp only [System.step]
      generalize op.program.run fates pager disk = ended at ran ⊢
      rcases ended with ⟨⟨_, pager'⟩ | ⟨_, pager'⟩ | _, after⟩
      · exact ⟨(ledger.inFlight_after op).trans valid.1, ran⟩
      · exact ⟨valid.1, ran⟩
      · exact ran
  | closes fates =>
    cases open_ with
    | none => exact valid
    | some pager =>
      have ran : Prog.Meets _ _ _ (Pager.destroy.run fates pager disk) :=
        run_destroy calm valid.2
      simp only [System.step]
      generalize Pager.destroy.run fates pager disk = ended at ran ⊢
      rcases ended with ⟨_ | _ | _, after⟩
      · exact ⟨ledger.current, .inl rfl, ran⟩
      · exact ran.elim
      · exact ran
  | dies =>
    cases open_ with
    | none => exact valid
    | some pager => exact Ledger.safe_lost valid.2.sound

theorem System.Valid.safe {system : System} (valid : system.Valid) :
    system.ledger.Safe system.disk := by
  obtain ⟨disk, _ | pager, ledger⟩ := system
  · exact valid
  · exact ⟨ledger.acked, .inl rfl, valid.2.sound⟩

/-- Whatever has happened to a new database, what is owed is there. -/
theorem System.run_valid {history : List Step} (calm : ∀ step ∈ history, step.Calm)
    (fits : System.Fits {} history) : (history.foldl System.step {}).Valid := by
  suffices ∀ system : System, system.Fits history → system.Valid →
      (history.foldl System.step system).Valid from
    this {} fits ⟨.initial, .inl rfl, .inl ⟨rfl, rfl⟩⟩
  clear fits
  induction history with
  | nil => exact fun _ _ valid => valid
  | cons step rest ih =>
    intro system fits valid
    exact ih (fun later member => calm later (by simp [member])) _ fits.2
      (System.step_valid (calm step (by simp)) fits.1 valid)

theorem run_readPage {acked current : Database} {id : PageId}
    (shows : pager.Shows disk.files acked current) (covers : current.Covers id) :
    (Pager.readPage id).run [] pager disk = (.returned (current.page id) pager, disk) := by
  refine @Prog.run_eq_of_wp _ _ _ _ _ _ Never _ (fun _ _ => True) _ _ _ _ _ ?_
  rw [Pager.wp_readPage shows, Database.read, if_pos covers]
  exact ⟨rfl, rfl, rfl⟩

/-- Process crash: after any history of operations and deaths, the next process to
open the database reads the state of the last commit that returned, or of the one
that was in flight, as long as page ids fit in 32 bits. -/
theorem process_crash (history : List Step) (calm : ∀ step ∈ history, step.Calm)
    (fits : System.Fits {} history) (draws : Draws) :
    let system := history.foldl System.step {}
    ∃ pager disk database,
      (Pager.construct draws).run [] {} system.disk = (.returned () pager, disk) ∧
      system.ledger.Owes database ∧ pager.meta_ = database.fields ∧
      ∀ id, database.Covers id →
        (Pager.readPage id).run [] pager disk = (.returned (database.page id) pager, disk) := by
  intro system
  obtain ⟨pager, disk, database, returned, owed, shows⟩ :=
    construct_returns (System.run_valid calm fits).safe draws
  exact ⟨pager, disk, database, returned, owed, shows.meta_, fun id => run_readPage shows⟩

/-- A process that dies inside its first commit, and another that dies recovering. -/
theorem process_crash_in_commit :
    let system := [Step.opens ⟨7, 1⟩ [], .performs .allocatePage [],
      .performs (.writePage 1 { id := 1, type := .kSlotted }) [],
      .performs .commit [.done, .dies], .opens ⟨8, 2⟩ [.done, .dies]].foldl System.step {}
    ∃ pager disk database,
      (Pager.construct ⟨9, 3⟩).run [] {} system.disk = (.returned () pager, disk) ∧
      system.ledger.Owes database ∧ pager.meta_ = database.fields ∧
      ∀ id, database.Covers id →
        (Pager.readPage id).run [] pager disk = (.returned (database.page id) pager, disk) :=
  process_crash _ (by simp [Step.Calm, Program.Calm]) (by decide +kernel) ⟨9, 3⟩

end Calm

section Wrap

variable {system system' : System} {pager : Pager} {disk : Disk}

/-- Allocations by a process, one after the other. -/
def allocations (count : Nat) : List Step := List.replicate count (.performs .allocatePage [])

private theorem calm_allocations (count : Nat) : ∀ step ∈ allocations count, step.Calm := by
  intro step member
  rw [List.eq_of_mem_replicate member]
  exact calm_nil

/-- The pager after an allocation that finds no free page. -/
def Pager.grown (pager : Pager) : Pager := { pager with
  meta_ := { pager.meta_ with pageCount := (pager.meta_.pageCount + 1) % UInt32.size }
  metaDirty := true }

/-- Without a free page an allocation hands out the page count and counts on, modulo `2 ^ 32`. -/
theorem wp_allocatePage_grown (empty : pager.meta_.freelistHead = kNullPage) :
    Prog.wp Never Pager.allocatePage
      (fun id pager' disk' => id = pager.meta_.pageCount ∧ pager' = pager.grown ∧ disk' = disk)
      (fun _ _ _ => False) (fun _ _ => True) pager disk := by
  rw [Pager.allocatePage, Prog.wp_bind, Prog.wp_get, Prog.wp_ite, if_pos empty]
  exact ⟨rfl, rfl, rfl⟩

theorem run_grows (empty : pager.meta_.freelistHead = kNullPage) :
    Op.allocatePage.program.run [] pager disk = (.returned () pager.grown, disk) := by
  refine @Prog.run_eq_of_wp _ _ _ _ _ _ Never _ (fun _ _ => True) _ _ _ _ _ ?_
  rw [Op.program, Prog.wp_bind]
  refine Prog.wp_mono (wp_allocatePage_grown empty) ?_ (fun _ _ _ => id) fun _ _ => id
  exact fun _ _ _ ended => ⟨rfl, ended.2⟩

theorem System.step_allocatePage (opened : system.pager = some pager)
    (empty : pager.meta_.freelistHead = kNullPage) :
    system.step (.performs .allocatePage []) =
      ⟨system.disk, some pager.grown, system.ledger.after .allocatePage⟩ := by
  obtain ⟨disk, _, ledger⟩ := system
  cases opened
  simp only [System.step, run_grows empty]

/-- Allocations count the pages modulo `2 ^ 32` and leave the disk alone. -/
theorem System.run_allocations (count : Nat) (opened : system.pager = some pager)
    (empty : pager.meta_.freelistHead = kNullPage) :
    ∃ ledger, (allocations (count + 1)).foldl System.step system = ⟨system.disk, some { pager with
      meta_ := { pager.meta_ with pageCount := (pager.meta_.pageCount + count + 1) % UInt32.size }
      metaDirty := true }, ledger⟩ := by
  induction count generalizing system pager with
  | zero => exact ⟨_, System.step_allocatePage opened empty⟩
  | succ count ih =>
    have first := System.step_allocatePage opened empty
    obtain ⟨ledger, rest⟩ := @ih (system.step (.performs .allocatePage [])) pager.grown
      (by rw [first]) empty
    refine ⟨ledger, ?_⟩
    rw [allocations, List.replicate_succ, List.foldl_cons]
    rw [allocations] at rest
    rw [rest, first, Pager.grown]
    simp only [Nat.mod_add_mod, Nat.add_assoc, Nat.add_comm 1]

/-- What is owed has no part in what a step does to the disk and the process. -/
theorem System.step_congr (disk : system.disk = system'.disk) (pager : system.pager = system'.pager)
    (step : Step) : (system.step step).disk = (system'.step step).disk ∧
      (system.step step).pager = (system'.step step).pager := by
  obtain ⟨files, open_, ledger⟩ := system
  obtain ⟨_, _, ledger'⟩ := system'
  cases disk
  cases pager
  cases step with
  | opens draws fates =>
    cases open_ with
    | some _ => exact ⟨rfl, rfl⟩
    | none =>
      simp only [System.step]
      rcases (Pager.construct draws).run fates {} files with ⟨_ | _ | _, _⟩ <;> exact ⟨rfl, rfl⟩
  | performs op fates =>
    cases open_ with
    | none => exact ⟨rfl, rfl⟩
    | some pager =>
      simp only [System.step]
      rcases op.program.run fates pager files with ⟨_ | _ | _, _⟩ <;> exact ⟨rfl, rfl⟩
  | closes fates =>
    cases open_ with
    | none => exact ⟨rfl, rfl⟩
    | some pager =>
      simp only [System.step]
      rcases Pager.destroy.run fates pager files with ⟨_ | _ | _, _⟩ <;> exact ⟨rfl, rfl⟩
  | dies => cases open_ <;> exact ⟨rfl, rfl⟩

private theorem System.run_congr {history : List Step} (disk : system.disk = system'.disk)
    (pager : system.pager = system'.pager) :
    (history.foldl System.step system).disk = (history.foldl System.step system').disk ∧
      (history.foldl System.step system).pager = (history.foldl System.step system').pager := by
  induction history generalizing system system' with
  | nil => exact ⟨disk, pager⟩
  | cons step rest ih =>
    obtain ⟨disk, pager⟩ := System.step_congr disk pager step
    exact ih disk pager

/-- A process commits page 1. -/
def writing : List Step :=
  [.opens ⟨7, 1⟩ [], .performs .allocatePage [],
    .performs (.writePage 1 { id := 1, type := .kSlotted }) [], .performs .commit []]

/-- What it does when the page count has come round to 1. -/
def rewriting : List Step :=
  [.performs .commit [], .performs .checkpoint [], .performs .allocatePage [], .performs .commit []]

def wrapped : System where
  disk := (writing.foldl System.step {}).disk
  pager := (writing.foldl System.step {}).pager.map fun pager => { pager with
    meta_ := { pager.meta_ with pageCount := 1 }, metaDirty := true }

private theorem run_wrapped {count : Nat} (round : (2 + count + 1) % UInt32.size = 1) :
    ((writing ++ allocations (count + 1) ++ rewriting).foldl System.step {}).disk =
        (rewriting.foldl System.step wrapped).disk ∧
      ((writing ++ allocations (count + 1) ++ rewriting).foldl System.step {}).pager =
        (rewriting.foldl System.step wrapped).pager := by
  obtain ⟨pager, opened⟩ : ∃ pager, (writing.foldl System.step {}).pager = some pager :=
    Option.isSome_iff_exists.mp (by decide +kernel)
  have fields : (writing.foldl System.step {}).pager.all fun pager =>
      decide (pager.meta_ = { pageCount := 2 }) := by decide +kernel
  rw [opened, Option.all_some, decide_eq_true_eq] at fields
  obtain ⟨ledger, counted⟩ := System.run_allocations count opened (by rw [fields])
  rw [fields] at counted
  rw [List.foldl_append, List.foldl_append, counted, round]
  refine System.run_congr ?_ ?_
  · rw [wrapped]
  · rw [wrapped, opened, Option.map_some, fields]

/-- Once the page count has wrapped, a checkpoint writes page 1 behind the end of the file as the
process counts it: the process reads the page as blank, and the next one reads what was written.
Between transactions both should read the state as of the last commit. -/
theorem process_crash_after_wrap :
    ¬ ∀ (history : List Step) (draws : Draws) (pager : Pager) (id : PageId) (page : Page),
      (∀ step ∈ history, step.Calm) → (history.foldl System.step {}).pager = some pager →
      pager.inTransaction = false →
      ((Pager.readPage id).run [] pager (history.foldl System.step {}).disk).1.value? = some page →
      ((do Pager.construct draws; Pager.readPage id : PagerM Page).run [] {}
        (history.foldl System.step {}).disk).1.value? = some page := by
  intro always
  have differs : (rewriting.foldl System.step wrapped).pager.any fun pager => decide <|
      pager.inTransaction = false ∧
      ((Pager.readPage 1).run [] pager (rewriting.foldl System.step wrapped).disk).1.value? =
        some {} ∧
      ((do Pager.construct ⟨9, 3⟩; Pager.readPage 1 : PagerM Page).run [] {}
        (rewriting.foldl System.step wrapped).disk).1.value? ≠ some {} := by decide +kernel
  obtain ⟨pager, opened, facts⟩ := (Option.any_eq_true _ _).mp differs
  rw [decide_eq_true_eq] at facts
  obtain ⟨idle, blank, other⟩ := facts
  obtain ⟨count, round⟩ : ∃ count, (2 + count + 1) % UInt32.size = 1 := ⟨UInt32.size - 2, rfl⟩
  obtain ⟨disk, open_⟩ := run_wrapped round
  rw [← disk] at blank other
  refine other (always _ _ pager 1 {} ?_ (open_.trans opened) idle blank)
  intro step member
  rw [List.mem_append, List.mem_append] at member
  rcases member with (first | round) | last
  · revert step
    simp [writing, Step.Calm, Program.Calm]
  · exact calm_allocations _ step round
  · revert step
    simp [rewriting, Step.Calm, Program.Calm]

end Wrap

end Labdb.Storage
