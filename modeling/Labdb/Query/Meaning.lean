import Labdb.Query.FromRows
import Labdb.Query.GroupBy
import Labdb.Query.Select

/-! What a SELECT means: which rows may be its answer, and which errors it may end with, in
whatever way the planner reads its tables. -/

namespace Labdb.Query

open Labdb.Sql

/-- The row of a group: its key, and what each aggregate is to answer for the group's rows. -/
def HashAggregate.RowOf (agg : HashAggregate) (group : Row × List Row) (row : Row) : Prop :=
  ∃ answers, row = group.1 ++ answers ∧
    List.Forall₂ (fun spec answer => spec.Answers group.2 answer) agg.aggs answers

namespace Stage

/-- What a stage makes of the rows that come up to it. -/
def Makes : Stage → List Row → List Row → Prop
  | hashAggregate agg, rows, out => List.Forall₂ agg.RowOf (agg.groups rows) out
  | filter preds, rows, out => out = rows.filter fun row => preds.all (eval · row)
  | sort keys top, rows, out => out = stableRows keys top rows
  | limit n, rows, out => out = rows.take n
  | project cols, rows, out => out = rows.map (projectRow cols)

/-- What the stages make one after the other. -/
inductive AllMake : List Stage → List Row → List Row → Prop where
  | nil {rows : List Row} : AllMake [] rows rows
  | cons {stage : Stage} {rest : List Stage} {rows next out : List Row}
      (makes : stage.Makes rows next) (more : AllMake rest next out) :
      AllMake (stage :: rest) rows out

end Stage

section Meaning

variable (toChars : Double → Text)

/-- The stages of a query with no shortcut taken, and the names of its columns. -/
def literalStages (s : SelectStmt) (pre : OutSchema) :
    Except ExecError (List Stage × List Text) :=
  if aggregating s then do
    let (agg, stages, names) ← groupedStages toChars s pre
    pure (.hashAggregate agg :: stages, names)
  else do
    let sorted ← orderStages s pre false (orderOf s)
    let (projected, names) ← projectStages s pre s.columns
    pure (sorted ++ projected, names)

/-- The rows of the FROM that satisfy every comparison of the ONs and the WHERE, in some order. -/
def BaseRows (tables : List FromTable) (terms : List Term) (rows : List Row) : Prop :=
  rows.Perm ((crossRows tables).filter fun row => terms.all (eval ·.bound row))

variable (find : Text → Option Table) (s : SelectStmt)

/-- What a SELECT may lead to: the names of its columns and its rows, or an error. -/
inductive Means : Except ExecError (List Text × List Row) → Prop where
  | answer {first : FromTable} {rest : List FromTable} {terms : List Term} {stages : List Stage}
      {names : List Text} {base out : List Row}
      (opened : openTables find s = .ok (first, rest))
      (inScope : scopedTerms toChars (first :: rest) s = .ok terms)
      (staged : literalStages toChars s ((first :: rest).flatMap FromTable.schema) =
        .ok (stages, names))
      (isBase : BaseRows (first :: rest) terms base) (made : Stage.AllMake stages base out) :
      Means (.ok (names, out))
  | unopened {error : ExecError} (opened : openTables find s = .error error) : Means (.error error)
  | unscoped {first : FromTable} {rest : List FromTable} {error : ExecError}
      (opened : openTables find s = .ok (first, rest))
      (inScope : scopedTerms toChars (first :: rest) s = .error error) : Means (.error error)
  | unstaged {first : FromTable} {rest : List FromTable} {terms : List Term} {error : ExecError}
      (opened : openTables find s = .ok (first, rest))
      (inScope : scopedTerms toChars (first :: rest) s = .ok terms)
      (staged : literalStages toChars s ((first :: rest).flatMap FromTable.schema) = .error error) :
      Means (.error error)
  /-- A sum of some group leaves the range of 64 bits on the way. -/
  | overflow {first : FromTable} {rest : List FromTable} {terms : List Term} {agg : HashAggregate}
      {stages : List Stage} {names : List Text} {base : List Row} {group : Row × List Row}
      {spec : AggSpec} (opened : openTables find s = .ok (first, rest))
      (inScope : scopedTerms toChars (first :: rest) s = .ok terms)
      (grouped : aggregating s = true)
      (staged : groupedStages toChars s ((first :: rest).flatMap FromTable.schema) =
        .ok (agg, stages, names))
      (isBase : BaseRows (first :: rest) terms base) (isGroup : group ∈ agg.groups base)
      (isSpec : spec ∈ agg.aggs) (leaves : ¬ spec.SumFits group.2) :
      Means (.error (overflowError spec))

/-- `run_select`, a row at a time. None stands for a loop that never ends. -/
def runSelect (choices : Choices) : Option (Except ExecError (List Text × List Row)) :=
  match planSelect toChars choices find s with
  | .error error => some (.error error)
  | .ok plan => plan.run.map fun done => done.map fun rows => (plan.columnNames, rows)

end Meaning

end Labdb.Query
