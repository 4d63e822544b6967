import Labdb.Storage.Wal

/-! The pager, as `src/pager.cpp` has it: pages by name over one database file and
its log. The counters that only tests read are left out. -/

namespace Labdb.Storage

open Labdb.Program

/-- What a commit waits for. -/
inductive Durability where
  | kFull
  | kNormal
  | kOff
  deriving DecidableEq, Repr

structure Pager where
  /-- As the transaction in progress sees it. -/
  meta_ : Meta := {}
  databaseId : Nat := 0
  /-- As of the last commit: what a rollback restores. -/
  committedMeta : Meta := {}
  metaDirty : Bool := false
  /-- Pages in the database file itself. -/
  filePages : Nat := 0
  wal : Wal := {}
  durability : Durability := .kFull
  checkpointFrames : Nat := 1000
  deriving DecidableEq

abbrev PagerM := Prog Disk FileCall Error Pager

/-- The random draws of one constructor run. -/
structure Draws where
  databaseId : Nat
  generation : Nat
  deriving DecidableEq, Repr

namespace Pager

def onWal {α : Type} (program : WalM α) : PagerM α :=
  Prog.zoom Pager.wal (fun wal pager => { pager with wal }) program

/-- The meta page of a database with these fields. -/
def metaPageOf (fields : Meta) (databaseId : Nat) : Page :=
  { id := 0, type := .kMeta, nextPage := kNullPage, body := .record fields databaseId }

def metaPage (pager : Pager) : Page := metaPageOf pager.meta_ pager.databaseId

def inTransaction (pager : Pager) : Bool :=
  !pager.wal.pending.entries.isEmpty || pager.metaDirty

/-- Read the meta page; an empty file is formatted and synced first. -/
def openDatabase (draw : Nat) : PagerM (Meta × Nat) := do
  let disk ← Prog.look
  match disk.files.pages with
  | [] => do
    Prog.call (.resizeFile 0) (.sys "ftruncate")
    Prog.call (.writePage 0 (metaPageOf {} draw)) (.sys "pwrite")
    Prog.call .syncFile (.sys "fsync")
    pure ({}, draw)
  | page :: _ =>
    match page.body with
    | .record fields databaseId => pure (fields, databaseId)
    | .bytes _ => Prog.raise (.invariant "bad magic: this is not a labdb file")

def loadMeta (page : Page) : PagerM Unit := do
  let pager ← Prog.get
  match page.body with
  | .record fields databaseId =>
      if databaseId = pager.databaseId then Prog.set { pager with meta_ := fields }
      else Prog.raise (.invariant "recovery: the log's meta page is not this database's")
  | .bytes _ => Prog.raise (.invariant "recovery: the log's meta page is not this database's")

/-- Copy frames from the log into the database file. -/
def copyFrames : List (PageId × Nat) → PagerM Unit
  | [] => pure ()
  | (id, slot) :: rest => do
    let page ← onWal (Wal.readFrame slot)
    Prog.call (.writePage id page) (.sys "pwrite")
    copyFrames rest

def checkpoint : PagerM Unit := do
  let pager ← Prog.get
  checkThat (!pager.inTransaction) "checkpoint inside a transaction"
  let frames := pager.wal.committedFrames
  if frames.isEmpty then pure () else do
    Prog.when (pager.durability = .kNormal) (onWal Wal.sync)
    copyFrames frames
    let disk ← Prog.look
    Prog.when (disk.files.pages.length < pager.meta_.pageCount)
      (Prog.call (.resizeFile pager.meta_.pageCount) (.sys "ftruncate"))
    Prog.when (pager.durability ≠ .kOff) (Prog.call .syncFile (.sys "fsync"))
    Prog.modify fun pager => { pager with filePages := max pager.filePages pager.meta_.pageCount }
    onWal Wal.reset

/-- The constructor up to its checkpoint: read the file's meta page and scan the
log, whose last committed meta page then counts. -/
def openLog (draws : Draws) : PagerM RecoveryReport := do
  let (fields, databaseId) ← openDatabase draws.databaseId
  let disk ← Prog.look
  Prog.set {
    meta_ := fields, databaseId, committedMeta := fields, filePages := disk.files.pages.length
    wal := Wal.construct databaseId draws.generation disk.files.log }
  let recovery ← onWal Wal.recover
  if 0 < recovery.transactions then do
    match ← onWal (Wal.read 0) with
    | some page => loadMeta page
    | none => Prog.raise (.invariant "recovery: the log's commits hold no meta page")
    Prog.modify fun pager => { pager with committedMeta := pager.meta_ }
    pure recovery
  else pure recovery

/-- The constructor. Its recovery redoes into the database file what the log holds
a commit for; either way the log then starts a new generation. -/
def construct (draws : Draws) : PagerM Unit := do
  let recovery ← openLog draws
  if 0 < recovery.transactions then checkpoint
  else if recovery.found then onWal Wal.reset else pure ()
  let pager ← Prog.get
  checkThat (pager.meta_.pageCount ≤ pager.filePages)
    "the database file is shorter than its meta page says"

def readPage (id : PageId) : PagerM Page := do
  let pager ← Prog.get
  checkThat (id ≠ 0 ∧ id < pager.meta_.pageCount) "read_page: page id out of range"
  let found ← onWal (Wal.read id)
  let disk ← Prog.look
  let page ← match found with
    | some page => pure page
    | none =>
      if id < pager.filePages then
        match disk.files.pages[id]? with
        | some page => pure page
        | none => Prog.raise (.invariant "pread hit end of file (truncated database?)")
      else pure {}
  checkThat (page.id = id ∨ page.type = .kInvalid)
    "read_page: page header claims a different id (corruption?)"
  pure page

def writePage (id : PageId) (page : Page) : PagerM Unit := do
  let pager ← Prog.get
  checkThat (id ≠ 0 ∧ id < pager.meta_.pageCount) "write_page: page id out of range"
  checkThat (page.id = id) "write_page: page header id does not match destination"
  onWal (Wal.write id page)

def allocatePage : PagerM PageId := do
  let pager ← Prog.get
  if pager.meta_.freelistHead = kNullPage then do
    -- the free list is empty: the database grows, the file does not yet
    let id := pager.meta_.pageCount
    Prog.set { pager with
      meta_ := { pager.meta_ with pageCount := (id + 1) % UInt32.size }, metaDirty := true }
    pure id
  else do
    let id := pager.meta_.freelistHead
    let page ← readPage id
    checkThat (page.type = .kFree) "free-list contains a page not marked free"
    Prog.modify fun pager => { pager with
      meta_ := { pager.meta_ with freelistHead := page.nextPage }, metaDirty := true }
    pure id

/-- A page on the free list. -/
def freePageOf (id next : PageId) : Page := { id, type := .kFree, nextPage := next }

def freePage (id : PageId) : PagerM Unit := do
  let pager ← Prog.get
  checkThat (id ≠ 0 ∧ id < pager.meta_.pageCount) "free_page: page id out of range"
  let current ← readPage id
  checkThat (current.type ≠ .kFree) "free_page: double free (page is already on the free list)"
  writePage id (freePageOf id pager.meta_.freelistHead)
  Prog.modify fun pager => { pager with
    meta_ := { pager.meta_ with freelistHead := id }, metaDirty := true }

/-- The walk of `freelistLength`: `count` pages were met, and there may be `room` more. -/
def countFree (room count : Nat) (id : PageId) : PagerM Nat :=
  if id = kNullPage then pure count
  else
    match room with
    | 0 => Prog.raise (.invariant "free list contains a cycle")
    | room + 1 => do
      let page ← readPage id
      checkThat (page.type = .kFree) "free-list contains a page not marked free"
      countFree room (count + 1) page.nextPage

def freelistLength : PagerM Nat := do
  let pager ← Prog.get
  countFree pager.meta_.pageCount 0 pager.meta_.freelistHead

def setBtreeRoot (id : PageId) : PagerM Unit :=
  Prog.modify fun pager => { pager with
    meta_ := { pager.meta_ with btreeRoot := id }, metaDirty := true }

def setHeapHead (id : PageId) : PagerM Unit :=
  Prog.modify fun pager => { pager with
    meta_ := { pager.meta_ with heapHead := id }, metaDirty := true }

def setCatalogRoot (id : PageId) : PagerM Unit :=
  Prog.modify fun pager => { pager with
    meta_ := { pager.meta_ with catalogRoot := id }, metaDirty := true }

def setDurability (durability : Durability) : PagerM Unit :=
  Prog.modify fun pager => { pager with durability }

def setCheckpointFrames (count : Nat) : PagerM Unit :=
  Prog.modify fun pager => { pager with checkpointFrames := count }

/-- A commit up to the checkpoint it may trigger. -/
def commitLog : PagerM Unit := do
  let pager ← Prog.get
  onWal (Wal.commit pager.metaPage (pager.durability = .kFull))
  Prog.modify fun pager => { pager with committedMeta := pager.meta_, metaDirty := false }

def commit : PagerM Unit := do
  let pager ← Prog.get
  if pager.inTransaction then do
    commitLog
    let pager ← Prog.get
    Prog.when (pager.checkpointFrames ≤ pager.wal.end_) checkpoint
  else pure ()

def rollback : PagerM Unit := do
  onWal Wal.rollback
  Prog.modify fun pager => { pager with meta_ := pager.committedMeta, metaDirty := false }

def sync : PagerM Unit := do
  commit
  checkpoint
  Prog.call .syncFile (.sys "fsync")

/-- The destructor, which drops whatever exception it meets. -/
def destroy : PagerM Unit :=
  Prog.swallow do
    commit
    checkpoint
    onWal Wal.truncate

end Pager

end Labdb.Storage
