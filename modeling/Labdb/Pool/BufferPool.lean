import Labdb.Program.Clock
import Labdb.Storage.Pager

/-! The buffer pool, as `src/buffer_pool.cpp` has it: a fixed set of page frames over
a pager. Counters and the demonstration switch are left out. -/

namespace Labdb.Pool

open Labdb.Program Labdb.Storage

/-- The largest `int`. -/
def intMax : Nat := 2147483647

structure BufferPool.Frame where
  page : Page := {}
  /-- The page held here, or `kNullPage` if the frame is empty. -/
  id : PageId := kNullPage
  /-- An `int`, which the results about runs keep from passing `intMax`. -/
  pins : Nat := 0
  dirty : Bool := false
  /-- The clock's "recently used" bit. -/
  ref : Bool := false
  deriving DecidableEq

structure BufferPool where
  pager : Pager := {}
  frames : List BufferPool.Frame := []
  table : AList (fun _ : PageId => Nat) := ∅
  /-- Frames dirtied since the last commit; one may be listed twice. -/
  dirtyList : List Nat := []
  hand : Nat := 0

abbrev PoolM := Prog Disk FileCall Error BufferPool

namespace BufferPool

def onPager {α : Type} (program : PagerM α) : PoolM α :=
  Prog.zoom BufferPool.pager (fun pager pool => { pool with pager }) program

def construct (pager : Pager) (capacity : Nat) : BufferPool where
  pager
  frames := List.replicate capacity {}

def frame (pool : BufferPool) (fi : Nat) : Frame := pool.frames.getD fi {}

def put (pool : BufferPool) (fi : Nat) (frame : Frame) : BufferPool :=
  { pool with frames := pool.frames.set fi frame }

def Frame.cool (frame : Frame) : Frame := { frame with ref := false }

/-- A frame that is not pinned, by the clock. -/
def chooseVictim : PoolM Nat := do
  let pool ← Prog.get
  let (taken, frames, hand) := Clock.sweep (fun frame : Frame => 0 < frame.pins)
    Frame.ref Frame.cool (2 * pool.frames.length + 1) pool.frames pool.hand
  Prog.set { pool with frames, hand }
  match taken with
  | some fi => pure fi
  | none => Prog.raise (.invariant "buffer pool exhausted: every frame is pinned (capacity is smaller than the working pin set)")

/-- Forget the page of a frame, written or not. -/
def drop (fi : Nat) : PoolM Unit := do
  let pool ← Prog.get
  let frame := pool.frame fi
  Prog.set { pool with
    frames := pool.frames.set fi { frame with id := kNullPage, dirty := false, ref := false }
    table := pool.table.erase frame.id }

def evict (fi : Nat) : PoolM Unit := do
  let pool ← Prog.get
  let frame := pool.frame fi
  if frame.id = kNullPage then pure ()
  else do
    Prog.when (frame.dirty = true) (onPager (Pager.writePage frame.id frame.page))
    drop fi

/-- A frame for a page that is not resident: an empty one, or a victim's. -/
def freeFrame : PoolM Nat := do
  let pool ← Prog.get
  match pool.frames.findIdx? fun frame => decide (frame.id = kNullPage ∧ frame.pins = 0) with
  | some fi => pure fi
  | none => do
    let fi ← chooseVictim
    evict fi
    pure fi

/-- Find or make a pinned frame for a page. -/
def obtain (id : PageId) (loadFromDisk : Bool) : PoolM Nat := do
  let pool ← Prog.get
  match pool.table.lookup id with
  | some fi => do
    let frame := pool.frame fi
    Prog.set (pool.put fi { frame with pins := frame.pins + 1, ref := true })
    pure fi
  | none => do
    let fi ← freeFrame
    let page ← if loadFromDisk then onPager (Pager.readPage id) else pure { id }
    Prog.modify fun pool => { pool with
      frames := pool.frames.set fi { page, id, pins := 1, dirty := false, ref := true }
      table := pool.table.insert id fi }
    pure fi

def markDirty (fi : Nat) : PoolM Unit := do
  let pool ← Prog.get
  let frame := pool.frame fi
  Prog.when (frame.dirty = false) <| Prog.set { pool with
    frames := pool.frames.set fi { frame with dirty := true }
    dirtyList := pool.dirtyList ++ [fi] }

def release (fi : Nat) : PoolM Unit :=
  Prog.modify fun pool => pool.put fi { pool.frame fi with pins := (pool.frame fi).pins - 1 }

def fetchPin (id : PageId) : PoolM Page := do
  let fi ← obtain id true
  let pool ← Prog.get
  pure (pool.frame fi).page

/-- What a caller does with the reference that `fetchPin` gave it. -/
def assign (id : PageId) (page : Page) : PoolM Unit := do
  let pool ← Prog.get
  match pool.table.lookup id with
  | some fi => Prog.set (pool.put fi { pool.frame fi with page })
  | none => pure ()

def unpin (id : PageId) (dirty : Bool) : PoolM Unit := do
  let pool ← Prog.get
  match pool.table.lookup id with
  | none => Prog.raise (.invariant "unpin of a page that is not resident")
  | some fi => do
    checkThat (0 < (pool.frame fi).pins) "unpin of a frame that is not pinned"
    Prog.when (dirty = true) (markDirty fi)
    release fi

def readPage (id : PageId) : PoolM Page := do
  let fi ← obtain id true
  let pool ← Prog.get
  release fi
  pure (pool.frame fi).page

def writePage (id : PageId) (page : Page) : PoolM Unit := do
  let pool ← Prog.get
  let fi ← obtain id (pool.table.lookup id).isSome
  Prog.modify fun pool => pool.put fi { pool.frame fi with page }
  markDirty fi
  release fi

def allocatePage : PoolM PageId := do
  let id ← onPager Pager.allocatePage
  let fi ← obtain id false
  markDirty fi
  release fi
  pure id

def freePage (id : PageId) : PoolM Unit := do
  let pool ← Prog.get
  match pool.table.lookup id with
  | some fi => do
    checkThat ((pool.frame fi).pins = 0) "free_page of a pinned page"
    Prog.set (pool.put fi { pool.frame fi with page := {} })
    drop fi
  | none => pure ()
  onPager (Pager.freePage id)

/-- Write back the listed frames that are still dirty. -/
def writeBack : List Nat → PoolM Unit
  | [] => pure ()
  | fi :: rest => do
    let pool ← Prog.get
    let frame := pool.frame fi
    Prog.when (frame.id ≠ kNullPage ∧ frame.dirty = true) do
      onPager (Pager.writePage frame.id frame.page)
      Prog.modify fun pool => pool.put fi { pool.frame fi with dirty := false }
    writeBack rest

def commit : PoolM Unit := do
  let pool ← Prog.get
  writeBack pool.dirtyList
  Prog.modify fun pool => { pool with dirtyList := [] }
  onPager Pager.commit

/-- Drop the listed frames that are still dirty. -/
def dropDirty : List Nat → PoolM Unit
  | [] => pure ()
  | fi :: rest => do
    let pool ← Prog.get
    let frame := pool.frame fi
    Prog.when (frame.id ≠ kNullPage ∧ frame.dirty = true) do
      checkThat (frame.pins = 0) "rollback with a changed page still pinned"
      drop fi
    dropDirty rest

/-- Drop the clean copies of pages that the transaction has written. -/
def dropPending : List PageId → PoolM Unit
  | [] => pure ()
  | id :: rest => do
    let pool ← Prog.get
    match pool.table.lookup id with
    | none => pure ()
    | some fi => do
      checkThat ((pool.frame fi).pins = 0) "rollback with a changed page still pinned"
      drop fi
    dropPending rest

def rollback : PoolM Unit := do
  let pool ← Prog.get
  dropDirty pool.dirtyList
  Prog.modify fun pool => { pool with dirtyList := [] }
  let pool ← Prog.get
  dropPending pool.pager.wal.pending.keys
  onPager Pager.rollback

def sync : PoolM Unit := do
  commit
  onPager Pager.sync

def setBtreeRoot (id : PageId) : PoolM Unit := onPager (Pager.setBtreeRoot id)

def setHeapHead (id : PageId) : PoolM Unit := onPager (Pager.setHeapHead id)

def setCatalogRoot (id : PageId) : PoolM Unit := onPager (Pager.setCatalogRoot id)

def inTransaction (pool : BufferPool) : Bool :=
  pool.pager.inTransaction ||
    pool.dirtyList.any fun fi =>
      decide ((pool.frame fi).id ≠ kNullPage) && (pool.frame fi).dirty

/-- The destructor, which drops whatever exception it meets. -/
def destroy : PoolM Unit := Prog.swallow commit

end BufferPool

end Labdb.Pool
