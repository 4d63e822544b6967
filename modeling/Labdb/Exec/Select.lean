import Labdb.Query.Bind
import Labdb.Record.Codec

/-! The rows of a batch read and narrowed where they lie, as the head of `operator.cpp` has it.
Whatever is read or written outside of an array is a fault. -/

namespace Labdb.Exec

open Labdb.Data Labdb.Query Labdb.Record Labdb.Sql

section Reads

variable (column : ColumnVector) (i : Nat)

def readNull : Codec Bool := within column.nulls[i]?

def readInt : Codec Int64 := within column.ints[i]?

def readDouble : Codec Double := within column.doubles[i]?

def readText : Codec Text := within column.texts[i]?

/-- `as_double_at`. -/
def readAsDouble : Codec Double :=
  if column.type = .kDouble then readDouble column i
  else do
    let value ← readInt column i
    pure (.ofInt value)

/-- `ColumnVector::get`, whose arrays have the place. -/
def readField : Codec Field := do
  let isNull ← readNull column i
  match column.type with
  | .kText => do
    let text ← if isNull then pure [] else readText column i
    pure { type := .kText, isNull, text }
  | .kDouble => do
    let i64 ← if isNull then pure 0
      else do
        let value ← readDouble column i
        pure (⟨⟨value.bits⟩⟩ : Int64)
    pure { type := .kDouble, isNull, i64 }
  | type => do
    let i64 ← if isNull then pure 0 else readInt column i
    pure { type, isNull, i64 }

end Reads

/-- `get_row`. -/
def readRow (batch : Batch) (i : Nat) : Codec Row := batch.cols.mapM fun column => readField column i

/-- The position of the `k`-th live row, which `sel` has. -/
def readPosition (selected : Bool) (sel : List Nat) (k : Nat) : Codec Nat :=
  if selected then within sel[k]? else pure k

/-- What a reader makes of a batch: its live rows, in order. -/
def readRows (batch : Batch) : Codec (List Row) :=
  (List.range batch.count).mapM fun k => do
    let i ← readPosition batch.selected batch.sel k
    readRow batch i

/-- A comparison of two doubles, false where one is a NaN but for `<>`. -/
def doubleHolds : TokenType → Double → Double → Bool
  | .kEq, x, y => x.eq y
  | .kNe, x, y => !x.eq y
  | .kLt, x, y => x.lt y
  | .kLe, x, y => x.lt y || x.eq y
  | .kGt, x, y => y.lt x
  | .kGe, x, y => y.lt x || x.eq y
  | _, _, _ => false

/-- What is read of the right column, or of the literal. -/
def readRight {α : Type} (read : ColumnVector → Nat → Codec α) (literal : α)
    (right : Option ColumnVector) (i : Nat) : Codec α :=
  match right with
  | some column => read column i
  | none => pure literal

/-- The comparison for row `i` of the left column, and of the right one or the literal. -/
def testAt (c : BoundComparison) (left : ColumnVector) (right : Option ColumnVector) (i : Nat) :
    Codec Bool := do
  let leftNull ← readNull left i
  let rightNull ← readRight readNull false right i
  let isNull := leftNull || rightNull
  if c.asText then
    if isNull then pure false
    else do
      let a ← readText left i
      let b ← readRight readText c.literal.text right i
      pure (holds c.op (compare a b))
  else if c.asDouble then
    if isNull then pure false
    else do
      let a ← readAsDouble left i
      let b ← readRight readAsDouble c.literal.asDouble right i
      pure (doubleHolds c.op a b)
  else do
    let a ← readInt left i
    let b ← readRight readInt c.literal.i64 right i
    pure (!isNull && holds c.op (compare a b))

/-- The loop of `keep_if` from the `k`-th live row on, `n` of those before being kept: what is
kept takes the place of what was read. -/
def keepLoop (pred : Nat → Codec Bool) (selected : Bool) :
    Nat → Nat → Nat → List Nat → Codec (Nat × List Nat)
  | 0, _, n, sel => pure (n, sel)
  | left + 1, k, n, sel => do
    let i ← readPosition selected sel k
    let sel ← setAt sel n i
    let passes ← pred i
    keepLoop pred selected left (k + 1) (if passes then n + 1 else n) sel

def keepIf (pred : Nat → Codec Bool) (batch : Batch) : Codec Batch := do
  let (live, sel) ← keepLoop pred batch.selected batch.count 0 0 batch.sel
  pure { batch with selected := true, sel, live }

def rightColumn (c : BoundComparison) (batch : Batch) : Codec (Option ColumnVector) :=
  if c.rightIsColumn then do
    let column ← within batch.cols[c.right]?
    pure (some column)
  else pure none

/-- Of the live rows, those for which `c` holds. -/
def select (c : BoundComparison) (batch : Batch) : Codec Batch :=
  if batch.count = 0 then pure batch
  else do
    let left ← within batch.cols[c.left]?
    if !c.rightIsColumn && c.literal.isNull then
      pure { batch with selected := true, live := 0 }
    else do
      let right ← rightColumn c batch
      keepIf (testAt c left right) batch

/-- The terms of a filter, until no row is left. -/
def selectAll : List BoundComparison → Batch → Codec Batch
  | [], batch => pure batch
  | pred :: preds, batch => do
    let batch ← select pred batch
    if batch.count = 0 then pure batch else selectAll preds batch

end Labdb.Exec
