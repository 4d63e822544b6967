import Labdb.Query.Operator

/-! A table as the catalog hands it to the operators that read it. -/

namespace Labdb.Query

open Labdb.Sql

/-- A row of an operator with this schema. -/
structure TypedRow (schema : OutSchema) (row : Row) : Prop where
  length : row.length = schema.length
  typed : ∀ position < schema.length, (Row.at row position).type = typeAt schema position

instance (schema : OutSchema) (row : Row) : Decidable (TypedRow schema row) :=
  decidable_of_iff (row.length = schema.length ∧
      ∀ position < schema.length, (Row.at row position).type = typeAt schema position)
    ⟨fun ⟨length, typed⟩ => ⟨length, typed⟩, fun fits => ⟨fits.length, fits.typed⟩⟩

theorem TypedRow.type_at {schema : OutSchema} {row : Row} (fits : TypedRow schema row) (col : Nat) :
    (Row.at row col).type = typeAt schema col := by
  by_cases inside : col < schema.length
  · exact fits.typed col inside
  · have past : row.length ≤ col := fits.length ▸ Nat.le_of_not_lt inside
    have none_ : typeAt schema col = .kInt64 := by
      rw [typeAt, List.getElem?_eq_none (Nat.le_of_not_lt inside)]
    rw [none_, Row.at, List.getD_eq_getElem?_getD, List.getElem?_eq_none past]
    rfl

/-- What an index hands out between two keys. -/
structure IndexWalk where
  rows : Key → Key → List Row
  entries : Nat
  within : ∀ lo hi, (rows lo hi).length ≤ entries

/-- The key under which the table's own tree files a row. -/
def tableKey (id : Int64) : Key := id.toUInt64 ^^^ ((1 : UInt64) <<< 63)

namespace IndexWalk

/-- Whether a row has its place in an index between two keys. -/
def between (col : Nat) (lo hi : Key) (row : Row) : Bool :=
  !(Row.at row col).isNull && decide (lo ≤ orderKey (Row.at row col)) &&
    decide (orderKey (Row.at row col) ≤ hi)

/-- A walk through the index hands out the rows whose keys lie in its range, by their keys. -/
structure Walks (index : IndexWalk) (rows : List Row) (col : Nat) : Prop where
  found : ∀ lo hi, (index.rows lo hi).Perm (rows.filter (between col lo hi))
  ordered : ∀ lo hi, (index.rows lo hi).Pairwise fun a b =>
    orderKey (Row.at a col) ≤ orderKey (Row.at b col)

end IndexWalk

/-- A table: its rows as a cursor hands them out, its search by key, and its indexes, the
tree of the key column among them. No column is a DOUBLE and the key is a number. -/
structure Table where
  schema : Schema
  indexed : Nat → Bool
  rows : List Row
  byKey : Key → Option Row
  index : Nat → IndexWalk
  typed : ∀ ref, ∀ row ∈ rows, TypedRow (tableSchema schema ref) row
  noDouble : ∀ column ∈ schema.columns, column.type ≠ .kDouble
  keyed : ∀ row ∈ rows, (Row.at row 0).isNull = false ∧ (Row.at row 0).type = .kInt64
  ascending : rows.Pairwise fun a b => (Row.at a 0).i64 < (Row.at b 0).i64
  searched : ∀ key, byKey key = rows.find? fun row =>
    tableKey (Row.at row 0).i64 = tableKey key.toInt64
  walked : ∀ col, indexed col = true → (index col).Walks rows col

theorem typeAt_noDouble (table : Table) (ref : TableRef) (position : Nat) :
    typeAt (tableSchema table.schema ref) position ≠ .kDouble := by
  unfold typeAt tableSchema
  rw [List.getElem?_map]
  cases found : table.schema.columns[position]? with
  | none => simp
  | some column => exact table.noDouble column (List.mem_of_getElem? found)

/-- The label of a table says nothing of its rows. -/
theorem TypedRow.relabel {schema : Schema} {row : Row} (ref ref' : TableRef)
    (typed : TypedRow (tableSchema schema ref) row) : TypedRow (tableSchema schema ref') row := by
  have length : (tableSchema schema ref').length = (tableSchema schema ref).length := by
    simp [tableSchema]
  have same : ∀ position, typeAt (tableSchema schema ref') position =
      typeAt (tableSchema schema ref) position := by
    intro position
    simp only [typeAt, tableSchema, List.getElem?_map]
    cases schema.columns[position]? <;> rfl
  refine ⟨typed.length.trans length.symm, fun position inside => ?_⟩
  rw [same]
  exact typed.typed position (length ▸ inside)

/-- Every list of such rows is the content of a table, whichever columns are indexed. -/
def Table.ofRows (schema : Schema) (indexed : Nat → Bool) (rows : List Row)
    (typed : ∀ ref, ∀ row ∈ rows, TypedRow (tableSchema schema ref) row)
    (noDouble : ∀ column ∈ schema.columns, column.type ≠ .kDouble)
    (keyed : ∀ row ∈ rows, (Row.at row 0).isNull = false ∧ (Row.at row 0).type = .kInt64)
    (ascending : rows.Pairwise fun a b => (Row.at a 0).i64 < (Row.at b 0).i64) : Table where
  schema := schema
  indexed := indexed
  rows := rows
  byKey key := rows.find? fun row => tableKey (Row.at row 0).i64 = tableKey key.toInt64
  index col :=
    { rows := fun lo hi => (rows.filter (IndexWalk.between col lo hi)).mergeSort fun a b =>
        orderKey (Row.at a col) ≤ orderKey (Row.at b col)
      entries := rows.length
      within := by
        intro lo hi
        rw [List.length_mergeSort]
        exact List.length_filter_le _ _ }
  typed := typed
  noDouble := noDouble
  keyed := keyed
  ascending := ascending
  searched _ := rfl
  walked col _ := by
    refine ⟨fun lo hi => List.mergeSort_perm _ _, fun lo hi => ?_⟩
    refine (List.pairwise_mergeSort ?_ ?_ _).imp of_decide_eq_true
    · intro a b c ab bc
      exact decide_eq_true (UInt64.le_trans (of_decide_eq_true ab) (of_decide_eq_true bc))
    · intro a b
      rw [Bool.or_eq_true, decide_eq_true_iff, decide_eq_true_iff]
      exact UInt64.le_total _ _

end Labdb.Query
