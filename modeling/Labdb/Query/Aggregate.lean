import Labdb.Query.Batch

/-! Aggregates: what one value does to a state, a row at a time and a batch at a time. -/

namespace Labdb.Query

open Labdb.Sql

def aggName : AggFunc → Text
  | .kCount => bytes "COUNT"
  | .kSum => bytes "SUM"
  | .kAvg => bytes "AVG"
  | .kMin => bytes "MIN"
  | .kMax => bytes "MAX"
  | .kNone => []

/-- One aggregate to compute: which function, over which input column. -/
structure AggSpec where
  func : AggFunc := .kCount
  star : Bool := false
  col : Nat := 0
  type : ColType := .kInt64
  deriving DecidableEq, Repr

/-- The running state of one aggregate in one group. -/
structure AggState where
  count : Nat := 0
  sum : Int64 := 0
  best : Field := {}
  deriving DecidableEq, Repr

/-- The test made before `value` is added to a running sum. -/
def sumOverflows (sum value : Int64) : Bool :=
  decide (0 < value) && decide (Int64.maxValue - value < sum) ||
    decide (value < 0) && decide (sum < Int64.minValue - value)

def overflowError (spec : AggSpec) : ExecError := ⟨bytes "integer overflow in " ++ aggName spec.func⟩

def aggUpdate (spec : AggSpec) (state : AggState) (value : Field) : Except ExecError AggState :=
  if spec.star then pure { state with count := state.count + 1 }
  else if value.isNull then pure state
  else
    let state := { state with count := state.count + 1 }
    match spec.func with
    | .kSum | .kAvg =>
      if sumOverflows state.sum value.i64 then throw (overflowError spec)
      else pure { state with sum := state.sum + value.i64 }
    | .kMin =>
      if state.count = 1 ∨ compareValues value state.best = .lt then pure { state with best := value }
      else pure state
    | .kMax =>
      if state.count = 1 ∨ compareValues value state.best = .gt then pure { state with best := value }
      else pure state
    | .kCount | .kNone => pure state

/-- A finished group's answer. -/
def aggResult (spec : AggSpec) (state : AggState) : Field :=
  match spec.func with
  | .kCount => .ofInt64 (.ofNat state.count)
  | .kSum => if state.count = 0 then .null .kInt64 else .ofInt64 state.sum
  | .kAvg =>
    if state.count = 0 then .null .kDouble
    else .ofDouble ((Double.ofInt state.sum).div (Double.ofInt (.ofNat state.count)))
  | .kMin | .kMax => if state.count = 0 then .null spec.type else state.best
  | .kNone => .null .kInt64

def aggType (spec : AggSpec) : ColType :=
  match spec.func with
  | .kAvg => .kDouble
  | .kMin | .kMax => spec.type
  | _ => .kInt64

/-- The batch path's states of one aggregate, group by group. -/
structure AggColumn where
  counts : List Nat := []
  sums : List Int64 := []
  best : ColumnVector := {}
  deriving DecidableEq, Repr

/-- `-1`, `0` or `1` for rows of two columns of one type, as `compare_at`. -/
def compareAt (a : ColumnVector) (i : Nat) (b : ColumnVector) (j : Nat) : Ordering :=
  match a.type with
  | .kText => compare (a.textAt i) (b.textAt j)
  | .kDouble =>
    if (b.doubleAt j).lt (a.doubleAt i) then .gt
    else if (a.doubleAt i).lt (b.doubleAt j) then .lt else .eq
  | _ => compare (a.intAt i) (b.intAt j)

/-- The loop of `fold` for sums. An overflow is remembered, and nothing is added after it. -/
def foldSum (column : ColumnVector) (state : AggColumn × Bool) (group i : Nat) :
    AggColumn × Bool :=
  if column.nullAt i then state
  else
    let (states, overflow) := state
    let value := column.intAt i
    let sum := states.sums.getD group 0
    let overflow := overflow || sumOverflows sum value
    ({ states with
        sums := states.sums.set group (sum + if overflow then 0 else value)
        counts := states.counts.set group (states.counts.getD group 0 + 1) }, overflow)

/-- The loop of `fold` for the least and the greatest value. -/
def foldBest (want : Ordering) (column : ColumnVector) (states : AggColumn) (group i : Nat) :
    AggColumn :=
  if column.nullAt i then states
  else
    let count := states.counts.getD group 0 + 1
    let counted := { states with counts := states.counts.set group count }
    if count = 1 ∨ compareAt column i states.best group = want then
      { counted with best := states.best.copyFrom group column i }
    else counted

/-- One aggregate folded over a batch; `groups` holds the group of each live row. -/
def fold (spec : AggSpec) (groups : List Nat) (batch : Batch) (states : AggColumn) :
    Except ExecError AggColumn :=
  let live := groups.zip batch.liveRows
  let counted := fun (states : AggColumn) group =>
    { states with counts := states.counts.set group (states.counts.getD group 0 + 1) }
  if spec.star then pure (live.foldl (fun states (group, _) => counted states group) states)
  else
    let column := batch.col spec.col
    match spec.func with
    | .kCount =>
      pure (live.foldl (fun states (group, i) =>
        if column.nullAt i then states else counted states group) states)
    | .kSum | .kAvg =>
      let (states, overflow) :=
        live.foldl (fun state (group, i) => foldSum column state group i) (states, false)
      if overflow then throw (overflowError spec) else pure states
    | .kMin => pure (live.foldl (fun states (group, i) => foldBest .lt column states group i) states)
    | .kMax => pure (live.foldl (fun states (group, i) => foldBest .gt column states group i) states)
    | .kNone => pure states

/-- The value that `produce_batch` writes for a group. -/
def columnResult (spec : AggSpec) (states : AggColumn) (group : Nat) : Field :=
  let count := states.counts.getD group 0
  match spec.func with
  | .kCount => .ofInt64 (.ofNat count)
  | .kSum => if count = 0 then .null .kInt64 else .ofInt64 (states.sums.getD group 0)
  | .kAvg =>
    if count = 0 then .null .kDouble
    else .ofDouble
      ((Double.ofInt (states.sums.getD group 0)).div (Double.ofInt (.ofNat count)))
  | .kMin | .kMax => states.best.get group
  | .kNone => .null .kInt64

end Labdb.Query
