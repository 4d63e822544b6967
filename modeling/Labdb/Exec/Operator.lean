import Labdb.Catalog.Cursor
import Labdb.Exec.Select
import Labdb.Query.Stream

/-! Operators with both ways to run, as `operator.hpp` has them: the scans of a table and of an
index, a filter, a list of columns and a limit. -/

namespace Labdb.Exec

open Labdb.Catalog Labdb.Query Labdb.Record

/-- An operator that was opened. A way to run leaves the state it is in; `bound` is how many
rows of its input there may be to come. -/
structure Operator where
  State : Type
  produce : State → Row → Codec (Option Row × State)
  produceBatch : State → Batch → Nat → Codec (Bool × Batch × State)
  bound : State → Nat

/-- The rows an operator has produced are counted. -/
structure Running (op : Operator) where
  state : op.State
  rowsOut : Nat := 0

def batchMessage : Text :=
  bytes "a batch handed out must hold at least one row, and no more than asked for"

namespace Operator

variable (op : Operator)

def next (running : Running op) (out : Row) : Codec (Option Row × Running op) := do
  let (found, state) ← op.produce running.state out
  match found with
  | none => pure (none, { running with state })
  | some row => pure (some row, { state, rowsOut := running.rowsOut + 1 })

def nextBatch (running : Running op) (out : Batch) (max : Nat) :
    Codec (Bool × Batch × Running op) := do
  let (more, out, state) ← op.produceBatch running.state out max
  if more then do
    checkThat (0 < out.count && out.count ≤ max) batchMessage
    pure (true, out, { state, rowsOut := running.rowsOut + out.count })
  else pure (false, out, { running with state })

/-- The loop `while (op.next(row))`, at most `calls` of it. -/
def drain : Nat → Running op → Row → Codec (List Row × Running op)
  | 0, running, _ => pure ([], running)
  | calls + 1, running, out => do
    let (found, running) ← op.next running out
    match found with
    | none => pure ([], running)
    | some row => do
      let (rows, running) ← drain calls running row
      pure (row :: rows, running)

/-- The loop `while (op.next_batch(batch, max))`, one call for each of the budgets. -/
def drainBatches : List Nat → Running op → Batch → Codec (List Row × Running op)
  | [], running, _ => pure ([], running)
  | max :: budgets, running, out => do
    let (more, out, running) ← op.nextBatch running out max
    if more then do
      let first ← readRows out
      let (rows, running) ← drainBatches budgets running out
      pure (first ++ rows, running)
    else pure ([], running)

end Operator

/-- The rows one call may produce. -/
def cap (batchRows max : Nat) : Nat := if max < batchRows then max else batchRows

/-- `SeqScan`, whose state is its cursor. -/
def seqScan (types : List ColType) (batchRows : Nat) : Operator where
  State := TableCursor
  produce cursor out := cursor.next out
  produceBatch cursor out max := do
    let (n, out, cursor) ← cursor.fill (out.format types 0) (cap batchRows max)
    pure (0 < n, out, cursor)
  bound cursor := cursor.entries.length

/-- `IndexScan`: of an empty range, there is no cursor. -/
def indexScan (types : List ColType) (batchRows : Nat) : Operator where
  State := Option IndexCursor
  produce cur out :=
    match cur with
    | none => pure (none, none)
    | some cursor => do
      let (found, cursor) ← cursor.next out
      pure (found, some cursor)
  produceBatch cur out max :=
    match cur with
    | none => pure (false, out, none)
    | some cursor => do
      let (n, out, cursor) ← cursor.fill (out.format types 0) 0 (cap batchRows max)
      pure (0 < n, out, some cursor)
  bound cur :=
    match cur with
    | none => 0
    | some cursor => (cursor.cur.getD []).length

/-- `IndexScan::open`. -/
def openIndexScan (cursor : IndexCursor) (lo hi : Key) : Option IndexCursor :=
  if hi < lo then none else some (cursor.seek lo hi)

section Filter

variable (child : Operator) (preds : List BoundComparison)

/-- The loop of `Filter::produce`. -/
def filterRows : Nat → Running child → Row → Codec (Option Row × Running child)
  | 0, running, _ => pure (none, running)
  | rounds + 1, running, out => do
    let (found, running) ← child.next running out
    match found with
    | none => pure (none, running)
    | some row =>
      if preds.all (eval · row) then pure (some row, running) else filterRows rounds running row

/-- The loop of `Filter::produce_batch`: a batch that keeps no row is not handed out. -/
def filterBatches (max : Nat) : Nat → Running child → Batch → Codec (Bool × Batch × Running child)
  | 0, running, out => pure (false, out, running)
  | rounds + 1, running, out => do
    let (more, out, running) ← child.nextBatch running out max
    if more then do
      let out ← selectAll preds out
      if 0 < out.count then pure (true, out, running) else filterBatches max rounds running out
    else pure (false, out, running)

/-- `Filter`, whose loops end when its input does. -/
def filter : Operator where
  State := Running child
  produce running out := filterRows child preds (child.bound running.state + 1) running out
  produceBatch running out max :=
    filterBatches child preds max (child.bound running.state + 1) running out
  bound running := child.bound running.state

end Filter

/-- A column of a batch takes the place of what was there. -/
def setCol (batch : Batch) (c : Nat) (column : ColumnVector) : Codec Batch := do
  let cols ← setAt batch.cols c column
  pure { batch with cols }

/-- `Project`'s loop over the columns it lists, from output column `i` on: a column is swapped
out of the input at its first use, and copied at its others. -/
def moveCols (cols : List Nat) : Nat → List Nat → Batch → Batch → Codec (Batch × Batch)
  | _, [], out, inBatch => pure (out, inBatch)
  | i, col :: rest, out, inBatch => do
    let first := cols.findIdx (· = col)
    if first = i then do
      let mine ← within out.cols[i]?
      let other ← within inBatch.cols[col]?
      let out ← setCol out i other
      let inBatch ← setCol inBatch col mine
      moveCols cols (i + 1) rest out inBatch
    else do
      let same ← within out.cols[first]?
      let out ← setCol out i same
      moveCols cols (i + 1) rest out inBatch

/-- `out.cols.resize(n)`. -/
def resizeCols (batch : Batch) (n : Nat) : Batch :=
  { batch with cols := batch.cols.take n ++ List.replicate (n - batch.cols.length) {} }

/-- A `Project` between two calls: its input, and the batch and the row that it reads into. -/
structure Projecting (child : Operator) where
  input : Running child
  inBatch : Batch := {}
  inRow : Row := []

/-- `Project`. -/
def project (child : Operator) (cols : List Nat) : Operator where
  State := Projecting child
  produce state _ := do
    let (found, input) ← child.next state.input state.inRow
    match found with
    | none => pure (none, { state with input })
    | some row => pure (some (projectRow cols row), { state with input, inRow := row })
  produceBatch state out max := do
    let (more, inBatch, input) ← child.nextBatch state.input state.inBatch max
    if more then do
      let (out, inBatch) ← moveCols cols 0 cols (resizeCols out cols.length) inBatch
      pure (true,
        { out with
          size := inBatch.size, selected := inBatch.selected, live := inBatch.live
          sel := inBatch.sel },
        { state with input, inBatch := { inBatch with sel := out.sel } })
    else pure (false, out, { state with input, inBatch })
  bound state := child.bound state.input.state

/-- A `Limit` between two calls. -/
structure Limiting (child : Operator) where
  input : Running child
  given : Nat := 0

/-- `Limit`, which asks for no more rows than it still needs. -/
def limit (child : Operator) (n : Nat) : Operator where
  State := Limiting child
  produce state out :=
    if n ≤ state.given then pure (none, state)
    else do
      let (found, input) ← child.next state.input out
      match found with
      | none => pure (none, { state with input })
      | some row => pure (some row, { input, given := state.given + 1 })
  produceBatch state out max :=
    if n ≤ state.given then pure (false, out, state)
    else do
      let (more, out, input) ← child.nextBatch state.input out (min max (n - state.given))
      if more then pure (true, out, { input, given := state.given + out.count })
      else pure (false, out, { state with input })
  bound state := child.bound state.input.state

end Labdb.Exec
