import Labdb.Catalog.Tables

/-! What the catalog, its heaps and its trees are for: tables of rows by their names, and what the
calls of the catalog do to them. -/

namespace Labdb.Engine

open Labdb.Catalog Labdb.Data Labdb.Heap Labdb.Program Labdb.Query Labdb.Record

/-- A table: which of its columns are indexed, and its rows as they were inserted. -/
structure Relation where
  name : Text
  schema : Schema
  indexed : List Bool
  rows : List Row
  deriving DecidableEq

abbrev DatabaseM := Stateful Fault (List Relation)

/-- The table of that name changes. -/
def changing (name : Text) (change : Relation → Relation) (db : List Relation) : List Relation :=
  db.map fun t => if t.name = name then change t else t

namespace DatabaseM

def described (name message : Text) : DatabaseM Relation := do
  let db ← get
  present message (db.find? (·.name = name))

def createTable (name : Text) (schema : Schema) : DatabaseM Unit := do
  let db ← get
  checked (checkThat (∀ t ∈ db, t.name ≠ name) (bytes "a table with this name already exists"))
  checked (checkThat (db.length < kCatalogMaxTables)
    (bytes "catalog page is full (one page limits table count)"))
  checked (fits name schema)
  set (db ++ [{ name, schema, indexed := schema.columns.map fun _ => false, rows := [] }])

/-- Whether the row is new: no two rows have one key. -/
def insertRow (table : Text) (row : Row) : DatabaseM Bool := do
  let t ← described table (bytes "no such table")
  checked (checkThat (keyed row) (bytes "row's key column (column 0) must be a non-null Int64"))
  let rec ← checked (encode t.schema row)
  checked (checkThat (rec ≠ [] ∧ rec.length ≤ kMaxRecordSize)
    (bytes "record does not fit in a single page (overflow pages are a later unit)"))
  if ∃ other ∈ t.rows, (Row.at other 0).i64 = (Row.at row 0).i64 then pure false
  else do
    modify (changing table fun t => { t with rows := t.rows ++ [row] })
    pure true

/-- How many rows are filed in the new index. -/
def createIndex (table : Text) (column : Nat) : DatabaseM Nat := do
  let t ← described table (bytes "no such table (create index)")
  checked (checkThat (0 < column ∧ column < t.schema.columns.length)
    (bytes "index column out of range"))
  checked (checkThat (t.indexed[column]? = some false) (bytes "the column is already indexed"))
  modify (changing table fun t => { t with indexed := t.indexed.set column true })
  pure (t.rows.countP fun row => (Row.at row column).isNull = false)

end DatabaseM

end Labdb.Engine
