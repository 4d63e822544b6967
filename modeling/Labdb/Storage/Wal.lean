import Labdb.Program.Prog
import Labdb.Storage.Files
import Mathlib.Data.List.AList
import Mathlib.Data.List.Sort

/-! The write-ahead log, as `src/wal.cpp` has it. -/

namespace Labdb.Storage

open Labdb.Program

/-- An exception: a system call that failed, or a broken invariant. -/
inductive Error where
  | sys (what : String)
  | invariant (what : String)
  deriving DecidableEq, Repr

def checkThat {σ : Type} (ok : Bool) (what : String) : Prog Disk FileCall Error σ Unit :=
  if ok then pure () else Prog.raise (.invariant what)

/-- Frame slots by page. -/
abbrev SlotMap := AList fun _ : PageId => Nat

structure Wal where
  databaseId : Nat := 0
  generation : Nat := 0
  headerOk : Bool := false
  /-- The next free slot. -/
  end_ : Nat := 0
  /-- The slot after the last commit frame. -/
  commitEnd : Nat := 0
  committed : SlotMap := ∅
  pending : SlotMap := ∅
  deriving DecidableEq

abbrev WalM := Prog Disk FileCall Error Wal

/-- What recovery found. -/
structure RecoveryReport where
  found : Bool := false
  frames : Nat := 0
  transactions : Nat := 0
  pages : Nat := 0
  discarded : Nat := 0
  deriving DecidableEq, Repr

namespace Wal

/-- The constructor: a header that is missing, torn or another database's is set
aside for a generation freshly drawn. -/
def construct (databaseId draw : Nat) (log : LogFile) : Wal :=
  match log.header with
  | some header =>
      if header.databaseId = databaseId then
        { databaseId, generation := header.generation, headerOk := true }
      else { databaseId, generation := draw }
  | none => { databaseId, generation := draw }

def writeHeader : WalM Unit := do
  let wal ← Prog.get
  Prog.call (.writeLogHeader ⟨wal.generation, wal.databaseId⟩) (.sys "pwrite")
  Prog.modify fun wal => { wal with headerOk := true }

def writeFrame (slot : Nat) (id : PageId) (commit : Bool) (page : Page) : WalM Unit := do
  let wal ← Prog.get
  Prog.when (wal.headerOk = false) writeHeader
  Prog.call (.writeFrame slot ⟨id, commit, wal.generation, wal.databaseId, page⟩) (.sys "pwrite")

/-- The accumulators of the recovery loop. -/
structure Scan where
  committed : SlotMap := ∅
  pending : SlotMap := ∅
  commitEnd : Nat := 0
  frames : Nat := 0
  transactions : Nat := 0
  deriving DecidableEq

/-- One accepted frame of the recovery loop. -/
def Scan.accept (scan : Scan) (slot : Nat) (frame : Frame) : Scan :=
  let pending := scan.pending.insert frame.id slot
  if frame.commit then
    { committed := pending ∪ scan.committed, pending := ∅, commitEnd := slot + 1,
      frames := scan.frames + 1, transactions := scan.transactions + 1 }
  else { scan with pending, frames := scan.frames + 1 }

/-- The recovery loop: stop at the end of the log, at a frame of another
generation, and at one whose checksum fails. -/
def scanFrom (generation databaseId : Nat) : List Slot → Nat → Scan → Scan
  | [], _, scan => scan
  | none :: _, _, scan => scan
  | some frame :: rest, slot, scan =>
      if frame.generation = generation ∧ frame.databaseId = databaseId then
        scanFrom generation databaseId rest (slot + 1) (scan.accept slot frame)
      else scan

def recover : WalM RecoveryReport := do
  let wal ← Prog.get
  let cleared := { wal with committed := ∅, pending := ∅, end_ := 0, commitEnd := 0 }
  if wal.headerOk then
    let disk ← Prog.look
    let scan := scanFrom wal.generation wal.databaseId disk.files.log.frames 0 {}
    Prog.set { cleared with
      committed := scan.committed, end_ := scan.commitEnd, commitEnd := scan.commitEnd }
    pure {
      found := true, frames := scan.frames, transactions := scan.transactions
      pages := scan.committed.entries.length, discarded := scan.frames - scan.commitEnd }
  else do
    Prog.set cleared
    pure {}

/-- The page of the frame in a slot. -/
def readFrame (slot : Nat) : WalM Page := do
  let disk ← Prog.look
  match disk.files.log.slot slot with
  | some frame => pure frame.page
  | none => Prog.raise (.invariant "pread hit end of file (truncated database?)")

/-- The log's latest version of a page: the pending one first, else the committed. -/
def read (id : PageId) : WalM (Option Page) := do
  let wal ← Prog.get
  match wal.pending.lookup id with
  | some slot => do return some (← readFrame slot)
  | none =>
    match wal.committed.lookup id with
    | some slot => do return some (← readFrame slot)
    | none => pure none

def write (id : PageId) (page : Page) : WalM Unit := do
  let wal ← Prog.get
  let slot := (wal.pending.lookup id).getD wal.end_
  Prog.set { wal with end_ := if (wal.pending.lookup id).isSome then wal.end_ else wal.end_ + 1 }
  writeFrame slot id false page
  Prog.modify fun wal => { wal with pending := wal.pending.insert id slot }

def sync : WalM Unit := Prog.call .syncLog (.sys "fsync")

def commit (metaPage : Page) (sync : Bool) : WalM Unit := do
  let wal ← Prog.get
  let slot := wal.end_
  Prog.set { wal with end_ := wal.end_ + 1 }
  writeFrame slot 0 true metaPage
  Prog.modify fun wal => { wal with
    committed := (wal.pending ∪ wal.committed).insert 0 slot
    pending := ∅
    commitEnd := wal.end_ }
  Prog.when sync Wal.sync

def rollback : WalM Unit :=
  Prog.modify fun wal => { wal with pending := ∅, end_ := wal.commitEnd }

/-- The committed frames by page, in order: what a checkpoint copies. -/
def committedFrames (wal : Wal) : List (PageId × Nat) :=
  (wal.committed.entries.map fun entry => (entry.1, entry.2)).insertionSort
    fun first second => first.1 ≤ second.1

/-- After a checkpoint: a new generation, no frames. The file is not cut. -/
def reset : WalM Unit := do
  let wal ← Prog.get
  checkThat (wal.pending.entries.isEmpty) "log reset inside a transaction"
  Prog.modify fun wal => { wal with
    committed := ∅, end_ := 0, commitEnd := 0, generation := wal.generation + 1 }
  writeHeader

/-- At a clean close: no frames, no header, an empty file. -/
def truncate : WalM Unit := do
  let wal ← Prog.get
  checkThat (wal.pending.entries.isEmpty) "log truncated inside a transaction"
  Prog.modify fun wal => { wal with committed := ∅, end_ := 0, commitEnd := 0 }
  Prog.call .truncateLog (.sys "ftruncate")
  Prog.modify fun wal => { wal with headerOk := false, generation := wal.generation + 1 }

end Wal

end Labdb.Storage
