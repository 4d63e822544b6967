import Labdb.Query.From
import Labdb.Query.HashAggregate
import Labdb.Query.MinMax

/-! A SELECT planned and run: what stands above the FROM and the WHERE is a row of stages, each
with its names resolved against the columns that come up to it. -/

namespace Labdb.Query

open Labdb.Sql

/-- An operator above those of the FROM. -/
inductive Stage where
  | hashAggregate (agg : HashAggregate)
  | filter (preds : List BoundComparison)
  | sort (keys : List SortKey) (top : Option Nat)
  | limit (n : Nat)
  | project (cols : List Nat)

/-- What the stages stand on: the operators of the FROM, or the ends of indexes instead. -/
inductive Base where
  | source (plan : Plan)
  | indexMinMax (op : IndexMinMax)

structure SelectPlan where
  base : Base
  stages : List Stage
  columnNames : List Text

/-- The columns of the aggregates, `#0` and on. -/
def aggColumns (aggs : List AggSpec) : OutSchema :=
  aggs.zipIdx.map fun (spec, a) => ⟨[], ⟨bytes "#" ++ digitsText a, aggType spec, true⟩⟩

def HashAggregate.schema (agg : HashAggregate) (child : OutSchema) : OutSchema :=
  agg.groupCols.filterMap (child[·]?) ++ aggColumns agg.aggs

namespace Stage

def openRows (child : RowPath) : Stage → Option (Except ExecError RowPath)
  | hashAggregate agg => agg.run child
  | filter preds => some (pure (filterPath child preds))
  | sort keys top => some (pure (SortOp.run { keys, limit := top } child))
  | limit n => some (pure (limitPath child n))
  | project cols => some (pure (projectPath child cols))

/-- The stages one above the other. None stands for a loop that never ends. -/
def openAll : List Stage → RowPath → Option (Except ExecError RowPath)
  | [], child => some (.ok child)
  | stage :: rest, child =>
    match stage.openRows child with
    | none => none
    | some (.error error) => some (.error error)
    | some (.ok path) => openAll rest path

end Stage

def Base.openRows : Base → Except ExecError RowPath
  | source plan => plan.openRows
  | indexMinMax op => pure op.run

/-- `run_select`, a row at a time: the rows of the plan. -/
def SelectPlan.run (plan : SelectPlan) : Option (Except ExecError (List Row)) :=
  match plan.base.openRows with
  | .error error => some (.error error)
  | .ok path => (Stage.openAll plan.stages path).map fun opened => opened.map RowPath.rows

section Planner

/-- An unqualified name of ORDER BY that is an alias of the select list means that item. -/
def orderItem (s : SelectStmt) (o : OrderItem) : OrderItem :=
  if isAggregate o.value || o.value.table ≠ [] then o
  else
    match s.columns.find? fun item => item.alias_ ≠ [] && item.alias_ = o.value.column with
    | some item => { o with value := item }
    | none => o

def orderOf (s : SelectStmt) : List OrderItem := s.orderBy.map (orderItem s)

/-- A query aggregates when it groups, or when an aggregate appears anywhere above the WHERE. -/
def aggregating (s : SelectStmt) : Bool :=
  s.groupBy ≠ [] || s.having ≠ [] || s.columns.any isAggregate ||
    (orderOf s).any fun o => isAggregate o.value

/-- The columns to group by, each of them once. -/
def groupColumns (pre : OutSchema) : List ColumnRef → Except ExecError (List Nat)
  | [] => pure []
  | g :: rest => do
    let p ← resolve pre g
    let cols ← groupColumns pre rest
    pure (p :: cols.filter (· ≠ p))

def integerError (v : SelectItem) (type : ColType) : ExecError :=
  ⟨aggName v.func ++ bytes " needs an integer column; " ++ columnRefSql v.toColumnRef ++
    bytes " is " ++ typeKeyword type⟩

def aggSpec (pre : OutSchema) (v : SelectItem) : Except ExecError AggSpec :=
  if v.star then pure { func := v.func, star := true }
  else do
    let col ← resolve pre v.toColumnRef
    let type := typeAt pre col
    if (v.func = .kSum ∨ v.func = .kAvg) ∧ type ≠ .kInt64 ∧ type ≠ .kInt32 then
      throw (integerError v type)
    else pure { func := v.func, col, type }

/-- The number of an aggregate, which is computed once however often it is named. -/
def aggIndex (pre : OutSchema) (v : SelectItem) (aggs : List AggSpec) :
    Except ExecError (Nat × List AggSpec) := do
  let a ← aggSpec pre v
  match aggs.findIdx? fun b => b.func = a.func && b.star = a.star && b.col = a.col with
  | some k => pure (k, aggs)
  | none => pure (aggs.length, aggs ++ [a])

def ungroupedError (v : SelectItem) : ExecError :=
  ⟨bytes "column " ++ columnRefSql v.toColumnRef ++
    bytes " must appear in GROUP BY or be used in an aggregate"⟩

/-- A value as the output of the aggregation names it: an aggregate is the column of its result,
any other value one of the groups. -/
def toOutput (pre : OutSchema) (groupCols : List Nat) (v : SelectItem) (aggs : List AggSpec) :
    Except ExecError (SelectItem × List AggSpec) :=
  if isAggregate v then do
    let (k, aggs) ← aggIndex pre v aggs
    pure ({ column := bytes "#" ++ digitsText k, alias_ := v.alias_ }, aggs)
  else do
    let p ← resolve pre v.toColumnRef
    match pre[p]? with
    | some c =>
      if p ∈ groupCols then
        pure ({ table := c.table, column := c.column.name, alias_ := v.alias_ }, aggs)
      else throw (ungroupedError v)
    | none => throw (ungroupedError v)

/-- A loop of the planner over values that may name aggregates. -/
def mapOutput {α β : Type} (f : α → List AggSpec → Except ExecError (β × List AggSpec)) :
    List α → List AggSpec → Except ExecError (List β × List AggSpec)
  | [], aggs => pure ([], aggs)
  | a :: rest, aggs => do
    let (b, aggs) ← f a aggs
    let (bs, aggs) ← mapOutput f rest aggs
    pure (b :: bs, aggs)

def havingOutput (pre : OutSchema) (groupCols : List Nat) (c : Comparison) (aggs : List AggSpec) :
    Except ExecError (Comparison × List AggSpec) := do
  let (left, aggs) ← toOutput pre groupCols c.left aggs
  match c.right with
  | none => pure ({ c with left }, aggs)
  | some r => do
    let (right, aggs) ← toOutput pre groupCols { toColumnRef := r } aggs
    pure ({ c with left, right := some right.toColumnRef }, aggs)

def orderOutput (pre : OutSchema) (groupCols : List Nat) (o : OrderItem) (aggs : List AggSpec) :
    Except ExecError (OrderItem × List AggSpec) := do
  let (value, aggs) ← toOutput pre groupCols o.value aggs
  pure ({ o with value }, aggs)

/-- The select list, HAVING and ORDER BY as seen above the aggregation, and the aggregation. -/
structure Grouped where
  agg : HashAggregate
  items : List SelectItem
  having : List Comparison
  order : List OrderItem

def planGroups (s : SelectStmt) (pre : OutSchema) : Except ExecError Grouped :=
  if s.star then
    throw ⟨bytes "SELECT * cannot be used with GROUP BY or aggregates; name the columns"⟩
  else do
    let groupCols ← groupColumns pre s.groupBy
    let (items, aggs) ← mapOutput (toOutput pre groupCols) s.columns []
    let (having, aggs) ← mapOutput (havingOutput pre groupCols) s.having aggs
    let (order, aggs) ← mapOutput (orderOutput pre groupCols) (orderOf s) aggs
    pure { agg := { groupCols, aggs }, items, having, order }

def rowLimit (s : SelectStmt) : Option Nat := s.limit.map fun n => n.toUInt64.toNat

def sortKey (schema : OutSchema) (o : OrderItem) : Except ExecError SortKey := do
  let col ← resolve schema o.value.toColumnRef
  pure { col, desc := o.desc }

def limitStages (s : SelectStmt) : List Stage := ((rowLimit s).map Stage.limit).toList

/-- Rows of one table in key order are sorted already where the first item is the key; then no other
item is looked at. -/
def sortedAlready (schema : OutSchema) (keyOrder : Bool) : List OrderItem → Except ExecError Bool
  | [] => pure false
  | o :: _ =>
    if keyOrder && !o.desc then do
      let col ← resolve schema o.value.toColumnRef
      pure (col = 0)
    else pure false

/-- ORDER BY and LIMIT. -/
def orderStages (s : SelectStmt) (schema : OutSchema) (keyOrder : Bool) (order : List OrderItem) :
    Except ExecError (List Stage) := do
  let sorted ← sortedAlready schema keyOrder order
  if sorted || order = [] then pure (limitStages s)
  else
    let keys ← order.mapM (sortKey schema)
    pure [.sort keys (rowLimit s)]

/-- The name a column of the result is shown by. -/
def shownAs (item : SelectItem) : Text := if item.alias_ = [] then valueSql item else item.alias_

/-- The column list: `items` are the values of the select list as they are named here. -/
def projectStages (s : SelectStmt) (schema : OutSchema) (items : List SelectItem) :
    Except ExecError (List Stage × List Text) :=
  if s.star then
    pure ([], schema.map fun c =>
      if s.joins = [] then c.column.name else c.table ++ bytes "." ++ c.column.name)
  else do
    let cols ← items.mapM fun item => resolve schema item.toColumnRef
    pure ([.project cols], s.columns.map shownAs)

variable (toChars : Double → Text)

/-- The stages of a query that aggregates; the first of them is the aggregation. -/
def groupedStages (s : SelectStmt) (pre : OutSchema) :
    Except ExecError (HashAggregate × List Stage × List Text) := do
  let g ← planGroups s pre
  let schema := g.agg.schema pre
  let preds ← g.having.mapM (bind toChars schema)
  let sorted ← orderStages s schema false g.order
  let (projected, names) ← projectStages s schema g.items
  pure (g.agg, (if g.having = [] then [] else [.filter preds]) ++ sorted ++ projected, names)

/-- `Executor::plan` above the FROM and the WHERE. `ends` is whether MIN and MAX may be read from
the ends of indexes, which forcing scans forbids. -/
def planTop (ends : Bool) (first : FromTable) (s : SelectStmt) (source : Source) :
    Except ExecError SelectPlan := do
  let pre := source.root.schema
  if aggregating s then
    let (agg, stages, columnNames) ← groupedStages toChars s pre
    if ends && source.bare && agg.groupCols = [] && IndexMinMax.Ends first.table agg.aggs then
      pure { base := .indexMinMax ⟨first.table, agg.aggs⟩, stages, columnNames }
    else pure { base := .source source.root, stages := .hashAggregate agg :: stages, columnNames }
  else
    let sorted ← orderStages s pre source.keyOrder (orderOf s)
    let (projected, columnNames) ← projectStages s pre s.columns
    pure { base := .source source.root, stages := sorted ++ projected, columnNames }

/-- What the executor was told, and what its estimates choose. -/
structure Choices where
  ends : Bool
  pick : Nat → List Candidate → Option Nat
  algorithm : JoinAlgorithm := .kAuto
  cheapest : Nat → List JoinOption → Nat

/-- `Executor::plan`. -/
def planSelect (choices : Choices) (find : Text → Option Table) (s : SelectStmt) :
    Except ExecError SelectPlan := do
  let (first, rest) ← openTables find s
  let source ← planFrom toChars choices.pick choices.algorithm choices.cheapest first rest s
  planTop toChars choices.ends first s source

end Planner

end Labdb.Query
