import Labdb.Query.MinMaxEnds
import Labdb.Query.OrderBy

/-! A SELECT answered: whatever the executor chooses, the rows are those the query means, and it
fails only where the query's meaning does. -/

namespace Labdb.Query

open Labdb.Sql IndexMinMax

/-- Short texts without a zero byte that share their key are equally long. -/
theorem length_of_prefixValue {left : Nat} {s t : Text} (same : prefixValue left s = prefixValue left t)
    (short : s.length < left) (short' : t.length < left) (noZero : (0 : UInt8) ∉ s)
    (noZero' : (0 : UInt8) ∉ t) : s.length = t.length := by
  induction left generalizing s t with
  | zero => exact absurd short (Nat.not_lt_zero _)
  | succ left ih =>
    have positive : ∀ {x : UInt8} {rest : Text}, (0 : UInt8) ∉ x :: rest →
        0 < x.toNat * 256 ^ left := by
      intro x rest noZero
      apply Nat.mul_pos _ (Nat.pow_pos (by decide))
      apply Nat.pos_of_ne_zero
      intro zero
      obtain rfl : x = 0 := UInt8.toNat_inj.mp zero
      exact noZero List.mem_cons_self
    cases s with
    | nil =>
      cases t with
      | nil => rfl
      | cons y t =>
        have some_ := positive noZero'
        have none_ : prefixValue (left + 1) [] = 0 := rfl
        rw [none_, prefixValue] at same
        omega
    | cons x s =>
      cases t with
      | nil =>
        have some_ := positive noZero
        have none_ : prefixValue (left + 1) [] = 0 := rfl
        rw [none_, prefixValue] at same
        omega
      | cons y t =>
        rw [prefixValue, prefixValue] at same
        have sLt := prefixValue_lt left s
        have tLt := prefixValue_lt left t
        have low := congrArg (· % 256 ^ left) same
        simp only [Nat.mul_add_mod_self_right, Nat.mod_eq_of_lt sLt, Nat.mod_eq_of_lt tLt] at low
        have shorter := ih low (Nat.lt_of_succ_lt_succ short) (Nat.lt_of_succ_lt_succ short')
          (fun inRest => noZero (List.mem_cons_of_mem _ inRest))
          (fun inRest => noZero' (List.mem_cons_of_mem _ inRest))
        rw [List.length_cons, List.length_cons, shorter]

section Ends

variable {table : Table} {spec : AggSpec}

private theorem OfIndex.shortestFirst (isOf : OfIndex table spec) (text : spec.type = .kText)
    (noZero : ∀ row ∈ table.rows, (0 : UInt8) ∉ (Row.at row spec.col).text) :
    ShortestFirst spec.col ((table.index spec.col).rows 0 (~~~0)) := by
  intro least isLeast
  dsimp only
  intro first isFirst row member
  have facts : ∀ {r}, r ∈ (((table.index spec.col).rows 0 (~~~0)).filter
      (hasKey spec.col (entryKey spec.col least))).filter (isShort spec.col) →
      prefixValue 8 (Row.at r spec.col).text = (entryKey spec.col least).toNat ∧
        (Row.at r spec.col).text.length < 8 ∧ (0 : UInt8) ∉ (Row.at r spec.col).text := by
    intro r here
    obtain ⟨inKey, short⟩ := List.mem_filter.mp here
    obtain ⟨inWalk, same⟩ := List.mem_filter.mp inKey
    have inTable := (isOf.mem_rows.mp inWalk).1
    refine ⟨?_, of_decide_eq_true short, noZero r inTable⟩
    rw [← of_decide_eq_true same, entryKey, orderKey_text ((isOf.typed inTable).trans text)]
  obtain ⟨key, short, plain⟩ := facts (List.mem_of_mem_head? isFirst)
  obtain ⟨key', short', plain'⟩ := facts member
  exact Nat.le_of_eq (length_of_prefixValue (key.trans key'.symm) short short' plain plain')

/-- The end of an index is what MIN or MAX is to answer. -/
theorem OfIndex.answers (isOf : OfIndex table spec)
    (shortest : spec.func = .kMin → spec.type = .kText →
      ShortestFirst spec.col ((table.index spec.col).rows 0 (~~~0))) :
    spec.Answers table.rows (endValue table spec) := by
  have inValues : ∀ v, v ∈ values spec.col table.rows ↔
      v ∈ valuesOf spec.col ((table.index spec.col).rows 0 (~~~0)) := fun v => isOf.mem_values
  unfold AggSpec.Answers
  cases walk : (table.index spec.col).rows 0 (~~~0) with
  | nil =>
    have empty : values spec.col table.rows = [] := by
      apply List.eq_nil_iff_forall_not_mem.mpr
      intro v member
      rw [inValues, walk] at member
      cases member
    have none_ : endValue table spec = .null spec.type := by
      unfold endValue
      split
      · simp only [walk, walkEnd]
      · simp only [IndexWalk.maxKey, walk, List.getLast?_nil, Option.map_none]
    obtain isMin | isMax := isOf.isEnd
    · rw [isMin]
      dsimp only
      rw [if_pos empty]
      exact none_
    · rw [isMax]
      dsimp only
      rw [if_pos empty]
      exact none_
  | cons row rest =>
    rw [walk] at inValues shortest
    have some_ : values spec.col table.rows ≠ [] :=
      List.ne_nil_of_mem ((inValues _).mpr List.mem_cons_self)
    obtain isMin | isMax := isOf.isEnd
    · obtain ⟨-, least⟩ := isOf.min_iff isMin walk
      obtain ⟨member, below⟩ := least.mpr (shortest isMin)
      rw [isMin]
      dsimp only
      rw [if_neg some_]
      exact ⟨(inValues _).mpr member, fun value here => below value ((inValues _).mp here)⟩
    · have noMin : spec.func ≠ .kMin := by
        rw [isMax]
        decide
      obtain ⟨member, above⟩ := isOf.max_greatest noMin walk
      rw [isMax]
      dsimp only
      rw [if_neg some_]
      exact ⟨(inValues _).mpr member, fun value here => above value ((inValues _).mp here)⟩

end Ends

section Planned

variable {toChars : Double → Text} {pre : OutSchema} {s : SelectStmt} {v : SelectItem}
  {aggs aggs' : List AggSpec}

/-- A statement as the parser makes it: the comparisons compare, and of the aggregates only COUNT
takes a star. -/
structure Asked (s : SelectStmt) : Prop where
  ops : ∀ entry ∈ written s, entry.2.op.IsOp = true
  columns : ∀ item ∈ s.columns, item.star = true → item.func = .kCount
  having : ∀ c ∈ s.having, c.left.star = true → c.left.func = .kCount
  order : ∀ o ∈ s.orderBy, o.value.star = true → o.value.func = .kCount

private theorem orderOf_star (asked : Asked s) :
    ∀ o ∈ orderOf s, o.value.star = true → o.value.func = .kCount := by
  intro o member
  obtain ⟨o', inOrder, rfl⟩ := List.mem_map.mp member
  unfold orderItem
  split
  · exact asked.order o' inOrder
  · split
    · rename_i item found
      exact asked.columns item (List.mem_of_find?_eq_some found)
    · exact asked.order o' inOrder

private theorem aggSpec_planned (star : v.star = true → v.func = .kCount) {spec : AggSpec}
    (made : aggSpec pre v = .ok spec) : spec.Planned pre := by
  unfold aggSpec at made
  split at made
  · rename_i isStar
    cases made
    refine ⟨fun _ => star isStar, ?_⟩
    rw [star isStar]
    simp
  · obtain ⟨col, -, made⟩ := ok_of_bind made
    dsimp only at made
    split at made
    · cases made
    · cases made
      exact ⟨nofun, fun _ => rfl⟩

private theorem aggIndex_planned (star : v.star = true → v.func = .kCount)
    (planned : ∀ spec ∈ aggs, spec.Planned pre) {k : Nat}
    (made : aggIndex pre v aggs = .ok (k, aggs')) : ∀ spec ∈ aggs', spec.Planned pre := by
  obtain ⟨spec, isSpec, made⟩ := ok_of_bind made
  split at made
  · cases made
    exact planned
  · cases made
    intro other member
    obtain old | new := List.mem_append.mp member
    · exact planned other old
    · rw [List.mem_singleton.mp new]
      exact aggSpec_planned star isSpec

private theorem toOutput_planned {cols : List Nat} (star : v.star = true → v.func = .kCount)
    (planned : ∀ spec ∈ aggs, spec.Planned pre) {out : SelectItem}
    (made : toOutput pre cols v aggs = .ok (out, aggs')) : ∀ spec ∈ aggs', spec.Planned pre := by
  unfold toOutput at made
  split at made
  · obtain ⟨⟨k, next⟩, indexed, made⟩ := ok_of_bind made
    cases made
    exact aggIndex_planned star planned indexed
  · obtain ⟨p, -, made⟩ := ok_of_bind made
    split at made
    · split at made
      · cases made
        exact planned
      · cases made
    · cases made

private theorem havingOutput_planned {cols : List Nat} {c out : Comparison}
    (star : c.left.star = true → c.left.func = .kCount)
    (planned : ∀ spec ∈ aggs, spec.Planned pre)
    (made : havingOutput pre cols c aggs = .ok (out, aggs')) :
    ∀ spec ∈ aggs', spec.Planned pre := by
  obtain ⟨⟨left, next⟩, isLeft, made⟩ := ok_of_bind made
  have afterLeft := toOutput_planned star planned isLeft
  dsimp only at made
  split at made
  · cases made
    exact afterLeft
  · obtain ⟨⟨right, last⟩, isRight, made⟩ := ok_of_bind made
    cases made
    exact toOutput_planned (fun star => by cases star) afterLeft isRight

/-- What each value keeps, the loop keeps. -/
theorem mapOutput_keeps {α β : Type} {f : α → List AggSpec → Except ExecError (β × List AggSpec)}
    {keeps : List AggSpec → Prop} {items : List α} {out : List β}
    (each : ∀ item ∈ items, ∀ aggs out aggs', keeps aggs → f item aggs = .ok (out, aggs') →
      keeps aggs')
    (holds : keeps aggs) (made : mapOutput f items aggs = .ok (out, aggs')) : keeps aggs' := by
  induction items generalizing aggs out with
  | nil =>
    cases made
    exact holds
  | cons item rest ih =>
    obtain ⟨⟨b, next⟩, first, made⟩ := ok_of_bind made
    obtain ⟨⟨bs, last⟩, more, made⟩ := ok_of_bind made
    cases made
    exact ih (fun other member => each other (List.mem_cons_of_mem _ member))
      (each item List.mem_cons_self aggs b next holds first) more

theorem planGroups_planned (asked : Asked s) {g : Grouped} (made : planGroups s pre = .ok g) :
    ∀ spec ∈ g.agg.aggs, spec.Planned pre := by
  unfold planGroups at made
  split at made
  · cases made
  · obtain ⟨cols, -, made⟩ := ok_of_bind made
    obtain ⟨⟨items, first⟩, itemsMade, made⟩ := ok_of_bind made
    obtain ⟨⟨having, second⟩, havingMade, made⟩ := ok_of_bind made
    obtain ⟨⟨order, third⟩, orderMade, made⟩ := ok_of_bind made
    cases made
    have nothing : ∀ spec ∈ ([] : List AggSpec), spec.Planned pre := fun spec member => by
      cases member
    have afterItems : ∀ spec ∈ first, spec.Planned pre := mapOutput_keeps
      (fun item member _ _ _ holds made =>
        toOutput_planned (asked.columns item member) holds made) nothing itemsMade
    have afterHaving : ∀ spec ∈ second, spec.Planned pre := mapOutput_keeps
      (fun c member _ _ _ holds made => havingOutput_planned (asked.having c member) holds made)
      afterItems havingMade
    exact mapOutput_keeps
      (fun o member _ _ _ holds made => by
        obtain ⟨⟨value, next⟩, isValue, made⟩ := ok_of_bind made
        cases made
        exact toOutput_planned (orderOf_star asked o member) holds isValue)
      afterHaving orderMade

theorem projectStages_plain {items : List SelectItem} {stages : List Stage} {names : List Text}
    (made : projectStages s pre items = .ok (stages, names)) :
    ∀ stage ∈ stages, stage.plain = true := by
  unfold projectStages at made
  split at made
  · cases made
    intro stage member
    cases member
  · obtain ⟨cols, -, made⟩ := ok_of_bind made
    cases made
    intro stage member
    rw [List.mem_singleton.mp member]
    rfl

/-- An aggregation, and the stages above it. -/
theorem groupedStages_planned (asked : Asked s) {agg : HashAggregate} {stages : List Stage}
    {names : List Text} (made : groupedStages toChars s pre = .ok (agg, stages, names)) :
    (∀ spec ∈ agg.aggs, spec.Planned pre) ∧ ∀ stage ∈ stages, stage.plain = true := by
  obtain ⟨g, grouped, made⟩ := ok_of_bind made
  obtain ⟨preds, -, made⟩ := ok_of_bind made
  obtain ⟨sorted, isSorted, made⟩ := ok_of_bind made
  obtain ⟨⟨projected, shown⟩, isProjected, made⟩ := ok_of_bind made
  cases made
  refine ⟨planGroups_planned asked grouped, ?_⟩
  intro stage member
  obtain before | last := List.mem_append.mp member
  · obtain filtering | sorting := List.mem_append.mp before
    · split at filtering
      · cases filtering
      · rw [List.mem_singleton.mp filtering]
        rfl
    · exact orderStages_plain isSorted stage sorting
  · exact projectStages_plain isProjected stage last

end Planned

section Answer

variable {toChars : Double → Text} {find : Text → Option Table} {s : SelectStmt}
  {first : FromTable} {rest : List FromTable} {terms : List Term} {source : Source}
  {base out : List Row} {ends : Bool}

/-- What the planner's shortcuts take for granted of a table that is read alone: that no text holds a
zero byte, where MIN and MAX may come from the ends of indexes, and that the items of ORDER BY after
the key name columns. -/
structure Regular (ends : Bool) (s : SelectStmt) (schema : Schema) (rows : List Row) : Prop where
  noZeros : ends = true → aggregating s = true →
    ∀ row ∈ rows, ∀ field ∈ row, (0 : UInt8) ∉ field.text
  named : aggregating s = false → restNamed (tableSchema schema s.from_) (orderOf s) = true

/-- What no shortcut shows in, none shows in that is forbidden. -/
theorem Regular.forbid {schema : Schema} {rows : List Row} (regular : Regular true s schema rows)
    (ends : Bool) : Regular ends s schema rows := ⟨fun _ => regular.noZeros rfl, regular.named⟩

private theorem openTables_first (opened : openTables find s = .ok (first, rest)) :
    find s.from_.name = some first.table ∧ first.ref = s.from_ := by
  obtain ⟨table, isFirst, opened⟩ := ok_of_bind opened
  obtain ⟨others, -, opened⟩ := ok_of_bind opened
  have same : table = first := by
    split at opened
    · cases opened
    · cases opened
      rfl
  subst same
  unfold openTable at isFirst
  split at isFirst
  · cases isFirst
  · rename_i found
    split at isFirst
    · cases isFirst
    · cases isFirst
      exact ⟨found, rfl⟩

private theorem baseRows_typed {tables : List FromTable} (isBase : BaseRows tables terms base) :
    ∀ row ∈ base, TypedRow (tables.flatMap FromTable.schema) row := fun row member =>
  crossRows_typed row (List.mem_filter.mp (isBase.mem_iff.mp member)).1

private theorem flat_noDouble (tables : List FromTable) (col : Nat) :
    typeAt (tables.flatMap FromTable.schema) col ≠ .kDouble := by
  have whole : typeAt (scope tables tables.length) col ≠ .kDouble := scope_noDouble _ col
  rwa [scope, List.take_length] at whole

private theorem baseRows_numbers {tables : List FromTable} (isBase : BaseRows tables terms base) :
    ∀ row ∈ base, ∀ col, (Row.at row col).Ordered := by
  intro row member col double
  rw [(baseRows_typed isBase row member).type_at] at double
  exact absurd double (flat_noDouble tables col)

/-- What is planned of ORDER BY: all of it, or nothing where the rows are sorted already. -/
theorem order_planned (serves : source.Serves (first :: rest) terms s)
    (opened : openTables find s = .ok (first, rest)) (rows : aggregating s = false)
    (regular : s.joins = [] → Regular ends s first.table.schema first.table.rows) :
    let written := orderStages s ((first :: rest).flatMap FromTable.schema) false (orderOf s)
    let planned := orderStages s source.root.schema source.keyOrder (orderOf s)
    planned = written ∨
      source.keyOrder = true ∧ rest = [] ∧ planned = .ok (limitStages s) ∧
        ∃ keys, written = .ok [.sort ({ col := 0 } :: keys) (rowLimit s)] := by
  intro written planned
  dsimp only [planned]
  rw [serves.schema]
  cases keyOrder : source.keyOrder with
  | false => exact .inl rfl
  | true =>
    obtain ⟨same, -⟩ | ⟨more, limited, sorted, named⟩ :=
      @orderStages_keyOrder ((first :: rest).flatMap FromTable.schema) s (orderOf s)
    · exact .inl same
    · have alone := serves.alone (.inl keyOrder)
      obtain rfl := openTables_alone opened alone
      have whole : [first].flatMap FromTable.schema = tableSchema first.table.schema s.from_ := by
        rw [List.flatMap_cons, List.flatMap_nil, List.append_nil, ← (openTables_first opened).2]
        rfl
      rw [whole, (regular alone).named rows, ← whole] at named
      cases keys : more.mapM (sortKey ([first].flatMap FromTable.schema)) with
      | error failure =>
        rw [keys] at named
        cases named
      | ok keys' =>
        rw [keys] at sorted
        exact .inr ⟨rfl, rfl, limited, keys', sorted⟩

/-- A query that is refused above its source. -/
theorem planTop_refused (serves : source.Serves (first :: rest) terms s)
    (opened : openTables find s = .ok (first, rest))
    (inScope : scopedTerms toChars (first :: rest) s = .ok terms)
    (regular : s.joins = [] → Regular ends s first.table.schema first.table.rows)
    {error : ExecError} (planned : planTop toChars ends first s source = .error error) :
    Means toChars find s (.error error) := by
  unfold planTop at planned
  dsimp only at planned
  by_cases grouped : aggregating s = true
  · rw [if_pos grouped, serves.schema] at planned
    obtain refused | ⟨⟨agg, stages, names⟩, -, planned⟩ := error_of_bind planned
    · apply Means.unstaged opened inScope
      rw [literalStages, if_pos grouped, refused]
      rfl
    · dsimp only at planned
      split at planned <;> cases planned
  · have rows := Bool.not_eq_true _ ▸ grouped
    rw [if_neg grouped] at planned
    have agrees := order_planned serves opened rows regular
    dsimp only at agrees
    obtain refused | ⟨sorted, isSorted, planned⟩ := error_of_bind planned
    · apply Means.unstaged opened inScope
      obtain same | ⟨-, -, limited, -⟩ := agrees
      · rw [literalStages, if_neg grouped, ← same, refused]
        rfl
      · cases limited.symm.trans refused
    · obtain ⟨literal, isLiteral⟩ : ∃ literal, orderStages s
          ((first :: rest).flatMap FromTable.schema) false (orderOf s) = .ok literal := by
        obtain same | ⟨-, -, -, keys, written⟩ := agrees
        · exact ⟨_, same.symm.trans isSorted⟩
        · exact ⟨_, written⟩
      obtain refused | ⟨_, _, planned⟩ := error_of_bind planned
      · apply Means.unstaged opened inScope
        rw [serves.schema] at refused
        rw [literalStages, if_neg grouped, isLiteral]
        change (projectStages s _ s.columns >>= _) = _
        rw [refused]
        rfl
      · cases planned

private theorem Stage.openAll_ok {stage : Stage} {stages : List Stage} {child path : RowPath}
    (opened : stage.openRows child = some (.ok path)) :
    Stage.openAll (stage :: stages) child = Stage.openAll stages path := by
  rw [Stage.openAll, opened]

private theorem Stage.openAll_error {stage : Stage} {stages : List Stage} {child : RowPath}
    {error : ExecError} (failed : stage.openRows child = some (.error error)) :
    Stage.openAll (stage :: stages) child = some (.error error) := by
  rw [Stage.openAll, failed]

/-- A query that does not aggregate, planned and run. -/
theorem planTop_rows (serves : source.Serves (first :: rest) terms s)
    (opened : openTables find s = .ok (first, rest))
    (inScope : scopedTerms toChars (first :: rest) s = .ok terms)
    (regular : s.joins = [] → Regular ends s first.table.schema first.table.rows)
    (rows : aggregating s = false) {plan : SelectPlan}
    (planned : planTop toChars ends first s source = .ok plan) :
    ∃ out, plan.run = some (.ok out) ∧ Means toChars find s (.ok (plan.columnNames, out)) := by
  unfold planTop at planned
  dsimp only at planned
  rw [if_neg (Bool.eq_false_iff.mp rows)] at planned
  obtain ⟨sorted, isSorted, planned⟩ := ok_of_bind planned
  obtain ⟨⟨projected, names⟩, isProjected, planned⟩ := ok_of_bind planned
  cases planned
  obtain ⟨base, ⟨path, openedBase, delivers⟩, isBase, inOrder⟩ := serves.rows
  have uniform := HashAggregate.uniform_of_typed (baseRows_typed isBase) (baseRows_numbers isBase)
  have arePlain : ∀ stage ∈ sorted ++ projected, stage.plain = true := fun stage member =>
    (List.mem_append.mp member).elim (orderStages_plain isSorted stage)
      (projectStages_plain isProjected stage)
  obtain ⟨last, out, openedAll, delivered, made⟩ := Stage.all_deliver arePlain delivers uniform
  have answers : ∀ literal, orderStages s ((first :: rest).flatMap FromTable.schema) false
      (orderOf s) = .ok literal → Stage.AllMake (literal ++ projected) base out →
      Means toChars find s (.ok (names, out)) := by
    intro literal isLiteral makes
    refine .answer opened inScope ?_ isBase makes
    rw [serves.schema] at isProjected
    rw [literalStages, if_neg (Bool.eq_false_iff.mp rows), isLiteral]
    change (projectStages s _ s.columns >>= _) = _
    rw [isProjected]
    rfl
  refine ⟨out, ?_, ?_⟩
  · rw [SelectPlan.run_source _ _ openedBase, openedAll]
    exact congrArg (some <| Except.ok ·) delivered.rows_eq
  · obtain same | ⟨keyOrder, alone, limited, keys, written⟩ :=
      order_planned serves opened rows regular
    · exact answers sorted (same.symm.trans isSorted) made
    · subst alone
      cases limited.symm.trans isSorted
      have members : ∀ row ∈ base, row ∈ first.table.rows := by
        intro row member
        have inCross := (List.mem_filter.mp (isBase.mem_iff.mp member)).1
        rwa [crossRows_alone] at inCross
      exact answers _ written (sort_of_keyOrder members (inOrder keyOrder) made)

private theorem typeAt_relabel (schema : Schema) (ref ref' : TableRef) (col : Nat) :
    typeAt (tableSchema schema ref) col = typeAt (tableSchema schema ref') col := by
  unfold typeAt tableSchema
  rw [List.getElem?_map, List.getElem?_map]
  cases schema.columns[col]? <;> rfl

/-- The ends of the indexes are the row of the only group. -/
theorem ends_rowOf
    (noZeros : ∀ row ∈ first.table.rows, ∀ field ∈ row, (0 : UInt8) ∉ field.text)
    {agg : HashAggregate} (planned : ∀ spec ∈ agg.aggs, spec.Planned first.schema)
    (areEnds : Ends first.table agg.aggs = true) :
    agg.RowOf ([], first.table.rows) (agg.aggs.map (endValue first.table)) := by
  refine ⟨_, rfl, List.forall₂_map_right_iff.mpr (List.forall₂_same.mpr fun spec member => ?_)⟩
  obtain ⟨isEnd, indexed⟩ := (Bool.and_eq_true _ _).mp (List.all_eq_true.mp areEnds spec member)
  rw [Bool.or_eq_true, decide_eq_true_iff, decide_eq_true_iff] at isEnd
  obtain ⟨valid, typed⟩ := planned spec member
  have isOf : OfIndex first.table spec :=
    ⟨isEnd, valid, (typed isEnd).trans (typeAt_relabel _ _ _ _), indexed⟩
  apply isOf.answers
  intro _ text
  apply isOf.shortestFirst text
  intro row inTable
  rw [Row.at, List.getD_eq_getElem?_getD]
  cases read : row[spec.col]? with
  | none => exact List.not_mem_nil
  | some field => exact noZeros row inTable field (List.mem_of_getElem? read)

/-- A query that aggregates, planned and run. -/
theorem planTop_groups (serves : source.Serves (first :: rest) terms s) (asked : Asked s)
    (opened : openTables find s = .ok (first, rest))
    (inScope : scopedTerms toChars (first :: rest) s = .ok terms)
    (regular : s.joins = [] → Regular ends s first.table.schema first.table.rows)
    (grouped : aggregating s = true) {plan : SelectPlan} (planned : planTop toChars ends first s source = .ok plan) :
    ∃ result, plan.run = some result ∧
      Means toChars find s (result.map fun rows => (plan.columnNames, rows)) := by
  unfold planTop at planned
  dsimp only at planned
  rw [if_pos grouped, serves.schema] at planned
  obtain ⟨⟨agg, stages, names⟩, staged, planned⟩ := ok_of_bind planned
  obtain ⟨arePlanned, arePlain⟩ := groupedStages_planned asked staged
  have literal : literalStages toChars s ((first :: rest).flatMap FromTable.schema) =
      .ok (.hashAggregate agg :: stages, names) := by
    rw [literalStages, if_pos grouped, staged]
    rfl
  have noDouble := flat_noDouble (first :: rest)
  dsimp only at planned
  split at planned
  · rename_i shortcut
    cases planned
    rw [Bool.and_eq_true, Bool.and_eq_true, Bool.and_eq_true, decide_eq_true_iff] at shortcut
    obtain ⟨⟨⟨isEnds, bare⟩, ungrouped⟩, areEnds⟩ := shortcut
    have alone := serves.alone (.inr bare)
    obtain rfl := openTables_alone opened alone
    obtain rfl := serves.bare bare
    have isBase : BaseRows [first] [] first.table.rows := by
      rw [BaseRows, crossRows_alone]
      exact .of_eq (List.filter_eq_self.mpr fun _ _ => rfl).symm
    have whole : [first].flatMap FromTable.schema = first.schema := by
      rw [List.flatMap_cons, List.flatMap_nil, List.append_nil]
    have one : agg.groups first.table.rows = [([], first.table.rows)] := if_pos ungrouped
    have makes : List.Forall₂ agg.RowOf (agg.groups first.table.rows)
        [agg.aggs.map (endValue first.table)] := by
      rw [one]
      rw [whole] at arePlanned
      exact .cons (ends_rowOf ((regular alone).noZeros isEnds grouped) arePlanned areEnds) .nil
    have uniform := HashAggregate.rowsOf_uniform arePlanned (baseRows_typed isBase) noDouble makes
    obtain ⟨last, out, openedAll, delivered, made⟩ := Stage.all_deliver arePlain
      (rowsPath_delivers [agg.aggs.map (endValue first.table)]) uniform
    refine ⟨.ok out, ?_, .answer opened inScope literal isBase (.cons makes made)⟩
    change (Stage.openAll stages (rowsPath [agg.aggs.map (endValue first.table)])).map _ = _
    rw [openedAll]
    exact congrArg (some <| Except.ok ·) delivered.rows_eq
  · cases planned
    obtain ⟨base, ⟨path, openedBase, delivers⟩, isBase, -⟩ := serves.rows
    have run_eq := SelectPlan.run_source (.hashAggregate agg :: stages) names openedBase
    obtain ⟨-, path', rows, ran, delivers', makes⟩ | ⟨group, member, spec, inAggs, leaves, failed⟩ :=
      HashAggregate.run_spec delivers (baseRows_typed isBase) (baseRows_numbers isBase)
        fun spec member => (arePlanned spec member).valid
    · have uniform := HashAggregate.rowsOf_uniform arePlanned (baseRows_typed isBase) noDouble makes
      obtain ⟨last, out, openedAll, delivered, made⟩ := Stage.all_deliver arePlain delivers' uniform
      refine ⟨.ok out, ?_, .answer opened inScope literal isBase (.cons makes made)⟩
      have opened_eq : Stage.openAll (.hashAggregate agg :: stages) path =
          Stage.openAll stages path' := Stage.openAll_ok ran
      rw [run_eq, opened_eq, openedAll]
      exact congrArg (some <| Except.ok ·) delivered.rows_eq
    · refine ⟨.error (overflowError spec), ?_,
        .overflow opened inScope grouped staged isBase member inAggs leaves⟩
      have opened_eq : Stage.openAll (.hashAggregate agg :: stages) path =
          some (.error (overflowError spec)) := Stage.openAll_error failed
      rw [run_eq, opened_eq]
      rfl

variable {choices : Choices}
  (regular : s.joins = [] → ∀ table, find s.from_.name = some table →
    Regular choices.ends s table.schema table.rows)

include regular

/-- A SELECT that cannot be planned. -/
theorem planSelect_refused (fair : choices.Fair) (asked : Asked s) {error : ExecError}
    (planned : planSelect toChars choices find s = .error error) :
    Means toChars find s (.error error) := by
  obtain refused | ⟨⟨first, rest⟩, opened, planned⟩ := error_of_bind planned
  · exact .unopened refused
  · have single := openTables_alone opened
    obtain refused | ⟨source, sourced, planned⟩ := error_of_bind planned
    · rw [fair.auto] at refused
      exact .unscoped opened (planFrom_refused asked.ops single fair.inside refused)
    · obtain ⟨terms, inScope, serves⟩ := planFrom_serves asked.ops single sourced
      have ofFirst := fun alone => regular alone _ (openTables_first opened).1
      exact planTop_refused serves opened inScope ofFirst planned

/-- A SELECT that was planned. -/
theorem planSelect_answers (asked : Asked s) {plan : SelectPlan}
    (planned : planSelect toChars choices find s = .ok plan) :
    ∃ result, plan.run = some result ∧
      Means toChars find s (result.map fun rows => (plan.columnNames, rows)) := by
  obtain ⟨⟨first, rest⟩, opened, planned⟩ := ok_of_bind planned
  obtain ⟨source, sourced, planned⟩ := ok_of_bind planned
  obtain ⟨terms, inScope, serves⟩ := planFrom_serves asked.ops (openTables_alone opened) sourced
  have ofFirst := fun alone => regular alone _ (openTables_first opened).1
  cases grouped : aggregating s with
  | true => exact planTop_groups serves asked opened inScope ofFirst grouped planned
  | false =>
    obtain ⟨out, ran, means⟩ := planTop_rows serves opened inScope ofFirst grouped planned
    exact ⟨_, ran, means⟩

theorem runSelect_means (fair : choices.Fair) (asked : Asked s) :
    ∃ result, runSelect toChars find s choices = some result ∧ Means toChars find s result := by
  unfold runSelect
  cases planned : planSelect toChars choices find s with
  | error error => exact ⟨_, rfl, planSelect_refused regular fair asked planned⟩
  | ok plan =>
    obtain ⟨result, ran, means⟩ := planSelect_answers regular asked planned
    exact ⟨_, congrArg (Option.map _) ran, means⟩

end Answer

end Labdb.Query
