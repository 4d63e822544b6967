import Labdb.Query.Stages

/-! ORDER BY and LIMIT above one table. Where its rows come in key order and the first item is the
key, no Sort is planned: the rows are sorted already, but the items after the key are not looked at,
and one that names no column is not refused. -/

namespace Labdb.Query

open Labdb.Sql

/-- Where the first item is column 0, ascending, the later ones name columns too. -/
def restNamed (schema : OutSchema) : List OrderItem → Bool
  | [] => true
  | item :: rest =>
    item.desc || (resolve schema item.value.toColumnRef).toOption ≠ some 0 ||
      rest.all fun later => (resolve schema later.value.toColumnRef).isOk

section Planned

variable {pre : OutSchema} {s : SelectStmt} {keyOrder : Bool} {order rest : List OrderItem}
  {stages : List Stage}

private theorem limitStages_plain : ∀ stage ∈ limitStages s, stage.plain = true := by
  intro stage member
  unfold limitStages at member
  cases limit : rowLimit s with
  | none =>
    rw [limit] at member
    cases member
  | some n =>
    rw [limit] at member
    rw [List.mem_singleton.mp member]
    rfl

theorem orderStages_plain (made : orderStages s pre keyOrder order = .ok stages) :
    ∀ stage ∈ stages, stage.plain = true := by
  obtain ⟨sorted, -, made⟩ := ok_of_bind made
  split at made
  · cases made
    exact limitStages_plain
  · obtain ⟨keys, -, made⟩ := ok_of_bind made
    cases made
    intro stage member
    rw [List.mem_singleton.mp member]
    rfl

private theorem orderStages_sorted {sorted : Bool}
    (already : sortedAlready pre keyOrder order = .ok sorted) : orderStages s pre keyOrder order =
      if sorted || order = [] then .ok (limitStages s)
      else (order.mapM (sortKey pre)).map fun keys => [.sort keys (rowLimit s)] := by
  unfold orderStages
  rw [already]
  change (if (sorted || decide (order = [])) = true then _ else _) = _
  split
  · rfl
  · cases order.mapM (sortKey pre) with
    | error failure => rfl
    | ok keys => rfl

private theorem sortKeys_isOk : (rest.mapM (sortKey pre)).isOk =
    rest.all fun later => (resolve pre later.value.toColumnRef).isOk := by
  induction rest with
  | nil => rfl
  | cons item rest ih =>
    rw [List.mapM_cons, sortKey, List.all_cons, ← ih]
    cases resolve pre item.value.toColumnRef with
    | error failure => rfl
    | ok col =>
      cases rest.mapM (sortKey pre) with
      | error failure => rfl
      | ok keys => rfl

/-- ORDER BY over rows in key order: it is planned as over any other rows, or the key comes first. -/
theorem orderStages_keyOrder :
    (orderStages s pre true order = orderStages s pre false order ∧ restNamed pre order = true) ∨
      ∃ rest : List OrderItem, orderStages s pre true order = .ok (limitStages s) ∧
        orderStages s pre false order = (rest.mapM (sortKey pre)).map
          (fun keys => [.sort ({ col := 0 } :: keys) (rowLimit s)]) ∧
        restNamed pre order = (rest.mapM (sortKey pre)).isOk := by
  cases order with
  | nil => exact .inl ⟨rfl, rfl⟩
  | cons item rest =>
    have unsorted : sortedAlready pre false (item :: rest) = .ok false := rfl
    cases desc : item.desc with
    | true =>
      have already : sortedAlready pre true (item :: rest) = .ok false := by
        simp [sortedAlready, desc, pure, Except.pure]
      left
      rw [orderStages_sorted already, orderStages_sorted unsorted, restNamed, desc]
      exact ⟨rfl, rfl⟩
    | false =>
      have already : sortedAlready pre true (item :: rest) =
          (resolve pre item.value.toColumnRef).map fun col => decide (col = 0) := by
        simp only [sortedAlready, desc, Bool.not_false, Bool.and_self, if_true]
        rfl
      have named : restNamed pre (item :: rest) =
          (decide ((resolve pre item.value.toColumnRef).toOption ≠ some 0) ||
            (rest.mapM (sortKey pre)).isOk) := by
        rw [restNamed, desc, sortKeys_isOk, Bool.false_or]
      rw [orderStages_sorted unsorted, named, List.mapM_cons, sortKey, desc]
      cases resolved : resolve pre item.value.toColumnRef with
      | error failure =>
        rw [resolved] at already
        left
        rw [orderStages, already]
        exact ⟨rfl, rfl⟩
      | ok col =>
        rw [resolved] at already
        by_cases isKey : col = 0
        · subst isKey
          refine .inr ⟨rest, orderStages_sorted already, ?_, rfl⟩
          cases rest.mapM (sortKey pre) with
          | error failure => rfl
          | ok keys => rfl
        · have other : sortedAlready pre true (item :: rest) = .ok false :=
            already.trans (congrArg _ (decide_eq_false isKey))
          left
          rw [orderStages_sorted other, List.mapM_cons, sortKey, resolved, desc]
          refine ⟨rfl, ?_⟩
          have different : some col ≠ some 0 := fun same => isKey (Option.some.inj same)
          rw [Except.toOption, decide_eq_true different, Bool.true_or]

end Planned

section Sorted

variable {table : Table} {s : SelectStmt} {base out : List Row}

private theorem table_uniform (members : ∀ row ∈ base, row ∈ table.rows) : Uniform base := by
  have typed : ∀ row ∈ base, TypedRow (tableSchema table.schema {}) row := fun row here =>
    table.typed {} row (members row here)
  refine HashAggregate.uniform_of_typed typed fun row here col double => ?_
  rw [(typed row here).type_at] at double
  exact absurd double (typeAt_noDouble table {} col)

/-- Rows in key order, cut to the limit, are what a sort makes of them whose first key is theirs. -/
theorem sort_of_keyOrder {stages : List Stage} {keys : List SortKey}
    (members : ∀ row ∈ base, row ∈ table.rows) (inOrder : KeyOrder base)
    (made : Stage.AllMake (limitStages s ++ stages) base out) :
    Stage.AllMake ([.sort ({ col := 0 } :: keys) (rowLimit s)] ++ stages) base out := by
  have sortable := (table_uniform members).sortable ({ col := 0 } :: keys)
  let sort : SortOp := { keys := { col := 0 } :: keys, limit := rowLimit s }
  have ordered : sort.ordered base = _ :=
    SortOp.ordered_of_pairwise sortable (keyOrder_sorted members inOrder rfl)
  have stable := (SortOp.ordered_eq sortable).symm.trans ordered
  dsimp only [sort] at stable
  unfold limitStages at made
  cases limit : rowLimit s with
  | none =>
    rw [limit] at made stable
    exact .cons stable.symm made
  | some n =>
    rw [limit] at made stable
    obtain _ | ⟨makes, more⟩ := made
    exact .cons (makes.trans stable.symm) more

end Sorted

theorem SelectPlan.run_source (stages : List Stage) (columnNames : List Text) {root : Plan}
    {path : RowPath} (opened : root.openRows = .ok path) :
    SelectPlan.run { base := .source root, stages, columnNames } =
      (Stage.openAll stages path).map fun done => done.map RowPath.rows := by
  unfold SelectPlan.run Base.openRows
  dsimp only
  rw [opened]

/-- The rows of an access path after ORDER BY and LIMIT, or why they cannot be planned. None stands
for a loop that never ends. -/
def orderedRows (s : SelectStmt) (op : Plan) (keyOrder : Bool) :
    Option (Except ExecError (List Row)) :=
  match orderStages s op.schema keyOrder (orderOf s) with
  | .error failure => some (.error failure)
  | .ok stages => SelectPlan.run { base := .source op, stages, columnNames := [] }

section Access

variable {table : Table} {s : SelectStmt} {op : Plan} {rows : List Row}

private theorem orderedRows_error {keyOrder : Bool} {failure : ExecError}
    (refused : orderStages s op.schema keyOrder (orderOf s) = .error failure) :
    orderedRows s op keyOrder = some (.error failure) := by
  rw [orderedRows, refused]

/-- What is planned above the rows of a table runs to its end. -/
private theorem orderedRows_ok {keyOrder : Bool} {stages : List Stage}
    (members : ∀ row ∈ rows, row ∈ table.rows) (delivers : op.Delivers rows)
    (planned : orderStages s op.schema keyOrder (orderOf s) = .ok stages) :
    ∃ out, orderedRows s op keyOrder = some (.ok out) ∧ Stage.AllMake stages rows out := by
  obtain ⟨path, opened, delivered⟩ := delivers
  obtain ⟨last, out, openedAll, delivered, made⟩ :=
    Stage.all_deliver (orderStages_plain planned) delivered (table_uniform members)
  refine ⟨out, ?_, made⟩
  rw [orderedRows, planned]
  dsimp only
  rw [SelectPlan.run_source _ _ opened, openedAll]
  exact congrArg (some <| Except.ok ·) delivered.rows_eq

/-- Over rows in key order, leaving out the sort changes nothing where the items after the key name
columns. -/
theorem orderedRows_keyOrder (members : ∀ row ∈ rows, row ∈ table.rows)
    (delivers : op.Delivers rows) (inOrder : KeyOrder rows) :
    orderedRows s op true = orderedRows s op false ↔ restNamed op.schema (orderOf s) = true := by
  obtain ⟨same, named⟩ | ⟨rest, limited, sorted, named⟩ :=
    @orderStages_keyOrder op.schema s (orderOf s)
  · refine iff_of_true ?_ named
    rw [orderedRows, same]
    rfl
  · obtain ⟨out, ran, made⟩ := orderedRows_ok members delivers limited
    rw [ran, named]
    cases more : rest.mapM (sortKey op.schema) with
    | error failure =>
      rw [more] at sorted
      rw [orderedRows_error sorted]
      exact iff_of_false (fun same => by cases same) (fun isOk => by cases isOk)
    | ok keys =>
      rw [more] at sorted
      obtain ⟨out', ran', made'⟩ := orderedRows_ok members delivers sorted
      have unlimited := (List.append_nil (limitStages s)).symm ▸ made
      cases made' with
      | cons makes' last' =>
        cases last'
        cases @sort_of_keyOrder _ s _ _ _ keys members inOrder unlimited with
        | cons makes last =>
          cases last
          refine iff_of_true ?_ rfl
          rw [ran', makes, makes']

end Access

end Labdb.Query
