import Labdb.Query.JoinAgree
import Labdb.Query.SortRows
import Labdb.Query.Stream

/-! A query plan: a tree of operators, and what opening it for the row path leads to. -/

namespace Labdb.Query

inductive Plan where
  | seqScan (table : Table) (schema : OutSchema)
  | indexLookup (table : Table) (schema : OutSchema) (key : Option Key)
  | indexScan (table : Table) (schema : OutSchema) (col : Nat) (lo hi : Key)
  | filter (child : Plan) (preds : List BoundComparison)
  | project (child : Plan) (cols : List Nat)
  | nestedLoopJoin (left right : Plan) (on : List BoundComparison)
  | hashJoin (left right : Plan) (keys : List (Nat × Nat)) (residual : List BoundComparison)
      (buildLeft : Bool)
  | indexNestedLoopJoin (outer : Plan) (table : Table) (inner : OutSchema)
      (outerCol innerCol : Nat) (innerFilter residual : List BoundComparison) (innerFirst : Bool)
  | sort (child : Plan) (keys : List SortKey) (top : Option Nat)
  | limit (child : Plan) (n : Nat)

/-- The rows of an index from one key to another; of an empty range the index is not even
opened. -/
def indexScan (table : Table) (col : Nat) (lo hi : Key) : RowPath :=
  rowsPath (if hi < lo then [] else (table.index col).rows lo hi)

namespace Plan

/-- The columns that an operator hands out. -/
def schema : Plan → OutSchema
  | seqScan _ schema => schema
  | indexLookup _ schema _ => schema
  | indexScan _ schema _ _ _ => schema
  | filter child _ => child.schema
  | project child cols => cols.filterMap (child.schema[·]?)
  | nestedLoopJoin left right _ => concat left.schema right.schema
  | hashJoin left right _ _ _ => concat left.schema right.schema
  | indexNestedLoopJoin outer _ inner _ _ _ _ innerFirst =>
    if innerFirst then concat inner outer.schema else concat outer.schema inner
  | sort child _ _ => child.schema
  | limit child _ => child.schema

/-- `open` of an operator, run a row at a time. -/
def openRows : Plan → Except ExecError RowPath
  | seqScan table _ => pure (rowsPath table.rows)
  | indexLookup table _ key => pure (Query.indexLookup table key)
  | indexScan table _ col lo hi => pure (Query.indexScan table col lo hi)
  | filter child preds => do
    let child ← child.openRows
    pure (filterPath child preds)
  | project child cols => do
    let child ← child.openRows
    pure (projectPath child cols)
  | nestedLoopJoin left right on => do
    let inner ← right.openRows
    let outer ← left.openRows
    pure (Query.nestedLoopJoin outer inner on left.schema.length)
  | hashJoin left right keys residual buildLeft => do
    let lpath ← left.openRows
    let rpath ← right.openRows
    pure ((Query.hashJoin left.schema keys residual mix64 buildLeft).run lpath rpath)
  | indexNestedLoopJoin outer table inner outerCol innerCol innerFilter residual innerFirst => do
    let outer ← outer.openRows
    let textKey := IndexNestedLoopJoin.textKeyOf inner innerCol
    let join : IndexNestedLoopJoin :=
      { outerCol, innerCol, innerFilter, residual, innerFirst, textKey }
    pure (join.run outer (table.index innerCol))
  | sort child keys top => do
    let child ← child.openRows
    pure (SortOp.run { keys, limit := top } child)
  | limit child n => do
    let child ← child.openRows
    pure (limitPath child n)

/-- What a plan hands out on the row path. -/
def Delivers (plan : Plan) (rows : List Row) : Prop :=
  ∃ path, plan.openRows = .ok path ∧ path.Delivers rows

section Delivers

variable {table : Table} {schema : OutSchema} {child left right : Plan} {rows : List Row}

theorem seqScan_delivers : (seqScan table schema).Delivers table.rows :=
  ⟨_, rfl, rowsPath_delivers _⟩

theorem indexLookup_delivers {key : Option Key} :
    (indexLookup table schema key).Delivers (key.bind table.byKey).toList :=
  ⟨_, rfl, Query.indexLookup_delivers table key⟩

theorem indexScan_delivers {col : Nat} {lo hi : Key} :
    (indexScan table schema col lo hi).Delivers
      (if hi < lo then [] else (table.index col).rows lo hi) :=
  ⟨_, rfl, rowsPath_delivers _⟩

theorem filter_delivers (preds : List BoundComparison) (delivers : child.Delivers rows) :
    (filter child preds).Delivers (rows.filter fun row => preds.all (eval · row)) := by
  obtain ⟨path, opened, delivers⟩ := delivers
  refine ⟨_, ?_, filterPath_delivers preds delivers⟩
  rw [openRows, opened]
  rfl

end Delivers

end Plan

end Labdb.Query
