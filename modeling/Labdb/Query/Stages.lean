import Labdb.Exec.SelectRows
import Labdb.Query.Overflow
import Labdb.Query.SourceRows

/-! The stages of a SELECT, opened above rows: what they deliver is what they are to make of the
rows, or an aggregation among them fails. -/

namespace Labdb.Query

open Labdb.Sql

namespace Stage

/-- A stage that no row makes fail. -/
def plain : Stage → Bool
  | hashAggregate _ => false
  | _ => true

end Stage

section Uniform

variable {rows out : List Row}

theorem Uniform.subset (uniform : Uniform rows) (members : ∀ row ∈ out, row ∈ rows) :
    Uniform out := fun x xIn y yIn => uniform x (members x xIn) y (members y yIn)

theorem Uniform.sortable (uniform : Uniform rows) (keys : List SortKey) : Sortable keys rows := by
  intro key _ x xIn y yIn
  obtain ⟨same, left, right⟩ := uniform x xIn y yIn key.col
  exact ⟨same, left, right⟩

private theorem row_at_project (cols : List Nat) (row : Row) (col : Nat) :
    Row.at (projectRow cols row) col = (cols[col]?.map (Row.at row)).getD {} := by
  rw [Row.at, projectRow, List.getD_eq_getElem?_getD, List.getElem?_map]

theorem Uniform.project (uniform : Uniform rows) (cols : List Nat) :
    Uniform (rows.map (projectRow cols)) := by
  intro x xIn y yIn col
  obtain ⟨row, member, rfl⟩ := List.mem_map.mp xIn
  obtain ⟨row', member', rfl⟩ := List.mem_map.mp yIn
  constructor
  all_goals
    rw [row_at_project]
    try rw [row_at_project]
    cases cols[col]? with
    | none => first | rfl | nofun
    | some from_ =>
      obtain ⟨same, left, right⟩ := uniform row member row' member' from_
      assumption

private theorem mem_stableRows {keys : List SortKey} {limit : Option Nat} {row : Row}
    (member : row ∈ stableRows keys limit rows) : row ∈ rows := by
  unfold stableRows at member
  cases limit with
  | none => exact (List.mergeSort_perm rows _).mem_iff.mp member
  | some n => exact (List.mergeSort_perm rows _).mem_iff.mp (List.mem_of_mem_take member)

end Uniform

namespace Stage

/-- A stage above rows that can be compared. -/
theorem plain_delivers {stage : Stage} (isPlain : stage.plain = true) {child : RowPath}
    {rows : List Row} (delivers : child.Delivers rows) (uniform : Uniform rows) :
    ∃ path out, stage.openRows child = some (.ok path) ∧ path.Delivers out ∧
      stage.Makes rows out ∧ Uniform out := by
  cases stage with
  | hashAggregate agg => cases isPlain
  | filter preds =>
    exact ⟨_, _, rfl, filterPath_delivers preds delivers, rfl,
      uniform.subset fun row => List.mem_of_mem_filter⟩
  | sort keys top =>
    have delivered := @SortOp.run_delivers { keys, limit := top } child rows delivers
    rw [SortOp.ordered_eq (uniform.sortable keys)] at delivered
    exact ⟨_, _, rfl, delivered, rfl, uniform.subset fun row => mem_stableRows⟩
  | limit n =>
    exact ⟨_, _, rfl, limitPath_delivers n delivers, rfl,
      uniform.subset fun row => List.mem_of_mem_take⟩
  | project cols =>
    exact ⟨_, _, rfl, projectPath_delivers cols delivers, rfl, uniform.project cols⟩

/-- Stages one above the other. -/
theorem all_deliver {stages : List Stage} (arePlain : ∀ stage ∈ stages, stage.plain = true)
    {child : RowPath} {rows : List Row} (delivers : child.Delivers rows) (uniform : Uniform rows) :
    ∃ path out, openAll stages child = some (.ok path) ∧ path.Delivers out ∧
      AllMake stages rows out := by
  induction stages generalizing child rows with
  | nil => exact ⟨child, rows, rfl, delivers, .nil⟩
  | cons stage rest ih =>
    obtain ⟨path, next, opened, delivers, makes, uniform⟩ :=
      plain_delivers (arePlain stage List.mem_cons_self) delivers uniform
    obtain ⟨last, out, more, delivers, makesRest⟩ :=
      ih (fun other member => arePlain other (List.mem_cons_of_mem _ member)) delivers uniform
    refine ⟨last, out, ?_, delivers, .cons makes makesRest⟩
    rw [openAll, opened]
    exact more

end Stage

section Answers

/-- An aggregate of a query, over the columns that come up to it. -/
structure AggSpec.Planned (pre : OutSchema) (spec : AggSpec) : Prop where
  valid : spec.Valid
  typed : spec.func = .kMin ∨ spec.func = .kMax → spec.type = typeAt pre spec.col

variable {pre : OutSchema} {spec : AggSpec} {rows : List Row} {answer : Field}

/-- An answer is of the aggregate's type, and no NaN. -/
theorem AggSpec.Planned.answer_type (planned : spec.Planned pre)
    (typed : ∀ row ∈ rows, TypedRow pre row) (noDouble : ∀ col, typeAt pre col ≠ .kDouble)
    (answers : spec.Answers rows answer) : answer.type = aggType spec ∧ answer.Ordered := by
  have ofValue : spec.func = .kMin ∨ spec.func = .kMax → ∀ value ∈ values spec.col rows,
      value.type = spec.type ∧ value.Ordered := by
    intro best value member
    obtain ⟨-, row, rowIn, rfl⟩ := mem_values member
    rw [planned.typed best, ← (typed row rowIn).type_at]
    refine ⟨rfl, fun double => ?_⟩
    rw [(typed row rowIn).type_at] at double
    exact absurd double (noDouble _)
  have ofNull : spec.func = .kMin ∨ spec.func = .kMax → (Field.null spec.type).Ordered := by
    intro best double
    have type : spec.type = .kDouble := double
    rw [planned.typed best] at type
    exact absurd type (noDouble _)
  unfold AggSpec.Answers at answers
  unfold aggType
  dsimp only at answers
  cases func : spec.func with
  | kCount =>
    rw [func] at answers
    subst answers
    exact ⟨rfl, nofun⟩
  | kSum =>
    rw [func] at answers
    dsimp only at answers
    split at answers
    · subst answers
      exact ⟨rfl, nofun⟩
    · obtain ⟨-, rfl⟩ := answers
      exact ⟨rfl, nofun⟩
  | kAvg =>
    rw [func] at answers
    dsimp only at answers
    split at answers
    · subst answers
      exact ⟨rfl, fun _ => by decide⟩
    · obtain ⟨-, rfl⟩ := answers
      exact ⟨rfl, fun _ => Exec.isNaN_ofRat _⟩
  | kMin =>
    rw [func] at answers ofValue ofNull
    dsimp only at answers
    split at answers
    · subst answers
      exact ⟨rfl, ofNull (.inl rfl)⟩
    · exact ofValue (.inl rfl) answer answers.1
  | kMax =>
    rw [func] at answers ofValue ofNull
    dsimp only at answers
    split at answers
    · subst answers
      exact ⟨rfl, ofNull (.inr rfl)⟩
    · exact ofValue (.inr rfl) answer answers.1
  | kNone =>
    rw [func] at answers
    subst answers
    exact ⟨rfl, nofun⟩

end Answers

namespace HashAggregate

variable {agg : HashAggregate} {pre : OutSchema} {rows out : List Row}

/-- The type of a column of the groups. -/
def outType (agg : HashAggregate) (pre : OutSchema) (col : Nat) : ColType :=
  if col < agg.groupCols.length then typeAt pre (agg.groupCols.getD col 0)
  else (agg.aggs[col - agg.groupCols.length]?.map aggType).getD .kInt64

private theorem key_of_group {group : Row × List Row} (member : group ∈ agg.groups rows) :
    group.1.length = agg.groupCols.length ∧ ∀ col < agg.groupCols.length,
      ∃ row ∈ rows, Row.at group.1 col = Row.at row (agg.groupCols.getD col 0) := by
  by_cases grouped : agg.groupCols = []
  · have one : agg.groups rows = [([], rows)] := if_pos grouped
    rw [one, List.mem_singleton] at member
    rw [member, grouped]
    exact ⟨rfl, nofun⟩
  · rw [groups_grouped grouped] at member
    obtain ⟨first, leads, rfl⟩ := List.mem_map.mp member
    refine ⟨List.length_map _, fun col inside =>
      ⟨first, (eraseDupsBy_sublist rows).subset leads, ?_⟩⟩
    rw [Row.at, keyOf, List.getD_eq_getElem?_getD, List.getElem?_map,
      List.getD_eq_getElem?_getD, List.getElem?_eq_getElem inside]
    rfl

/-- The fields of the row of a group. -/
theorem rowOf_fields (planned : ∀ spec ∈ agg.aggs, spec.Planned pre)
    (typed : ∀ row ∈ rows, TypedRow pre row) (noDouble : ∀ col, typeAt pre col ≠ .kDouble)
    {group : Row × List Row} (member : group ∈ agg.groups rows) {row : Row}
    (isRow : agg.RowOf group row) (col : Nat) :
    (Row.at row col).type = agg.outType pre col ∧ (Row.at row col).Ordered := by
  obtain ⟨answers, rfl, answer⟩ := isRow
  obtain ⟨length, keys⟩ := key_of_group member
  unfold outType
  by_cases inKey : col < agg.groupCols.length
  · have isKey : Row.at (group.1 ++ answers) col = Row.at group.1 col := by
      rw [Row.at, Row.at, List.getD_eq_getElem?_getD, List.getD_eq_getElem?_getD,
        List.getElem?_append_left (length ▸ inKey)]
    obtain ⟨from_, fromIn, same⟩ := keys col inKey
    rw [if_pos inKey, isKey, same, (typed from_ fromIn).type_at]
    refine ⟨rfl, fun double => ?_⟩
    rw [(typed from_ fromIn).type_at] at double
    exact absurd double (noDouble _)
  · rw [if_neg inKey]
    have isAnswer : Row.at (group.1 ++ answers) col =
        answers.getD (col - agg.groupCols.length) {} := by
      rw [Row.at, List.getD_eq_getElem?_getD, List.getD_eq_getElem?_getD,
        List.getElem?_append_right (by omega), length]
    rw [isAnswer, List.getD_eq_getElem?_getD]
    obtain ⟨sameLength, each⟩ := List.forall₂_iff_get.mp answer
    by_cases inside : col - agg.groupCols.length < agg.aggs.length
    · rw [List.getElem?_eq_getElem inside, List.getElem?_eq_getElem (sameLength ▸ inside)]
      have inGroup : ∀ row ∈ group.2, TypedRow pre row := fun row here =>
        typed row (mem_of_group member here)
      exact (planned _ (List.getElem_mem inside)).answer_type inGroup noDouble
        (each _ inside (sameLength ▸ inside))
    · rw [List.getElem?_eq_none (by omega), List.getElem?_eq_none (by omega)]
      exact ⟨rfl, fun double => by cases double⟩

/-- The rows of the groups can be compared with each other. -/
theorem rowsOf_uniform (planned : ∀ spec ∈ agg.aggs, spec.Planned pre)
    (typed : ∀ row ∈ rows, TypedRow pre row) (noDouble : ∀ col, typeAt pre col ≠ .kDouble)
    (made : List.Forall₂ agg.RowOf (agg.groups rows) out) : Uniform out := by
  have fields : ∀ row ∈ out, ∀ col,
      (Row.at row col).type = agg.outType pre col ∧ (Row.at row col).Ordered := by
    intro row member col
    obtain ⟨length, each⟩ := List.forall₂_iff_get.mp made
    obtain ⟨i, inside, rfl⟩ := List.mem_iff_getElem.mp member
    exact rowOf_fields planned typed noDouble (List.getElem_mem (length ▸ inside))
      (each i (length ▸ inside) inside) col
  intro x xIn y yIn col
  obtain ⟨xType, xOrdered⟩ := fields x xIn col
  obtain ⟨yType, yOrdered⟩ := fields y yIn col
  exact ⟨by rw [xType, yType], xOrdered, yOrdered⟩

end HashAggregate

end Labdb.Query
