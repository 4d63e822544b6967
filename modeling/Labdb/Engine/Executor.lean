import Labdb.Engine.Backfill
import Labdb.Query.Bind
import Labdb.Sql.Unparse

/-! The statements as the executor carries them out by the calls of a catalog: what they check and
what they report. The catalog is the one on the disk, or the database that it stands for. -/

namespace Labdb.Engine

open Labdb.BTree Labdb.Catalog Labdb.Data Labdb.Heap Labdb.Program Labdb.Query Labdb.Record Labdb.Sql

/-- What a planner needs to know about a table. -/
structure TableInfo where
  schema : Schema
  rows : UInt64
  indexed : List Bool
  deriving DecidableEq, Repr

/-- Why a statement fails: a check of the engine, or an error that the executor finds. -/
inductive Raised where
  | check (fault : Fault)
  | exec (error : ExecError)
  deriving DecidableEq, Repr

structure ResultSet where
  columns : List Text := []
  rows : List Row := []
  deriving DecidableEq, Repr

/-- The calls of a catalog that statements make; an inserted row may find its key taken. -/
structure Calls (σ : Type) where
  tableExists : Text → Stateful Fault σ Bool
  schemaOf : Text → Stateful Fault σ Schema
  findTable : Text → Stateful Fault σ (Option TableInfo)
  createTable : Text → Schema → Stateful Fault σ Unit
  createIndex : Text → Nat → Stateful Fault σ Nat
  insertRow : Text → Row → Stateful Fault σ Bool

section Executor

variable {σ α : Type}

def called (call : Stateful Fault σ α) : Stateful Raised σ α := ExceptT.mk fun memory =>
  let (ending, after) := call.runOn memory
  (ending.mapError .check, after)

def refused (message : Text) : Stateful Raised σ α := throw (.exec ⟨message⟩)

def reported : Except Raised α → Stateful Raised σ α
  | .ok value => pure value
  | .error raised => throw raised

def mismatch (col : Column) (expected : String) : ExecError :=
  ⟨bytes "type mismatch: column " ++ col.name ++ bytes " expects " ++ bytes expected⟩

/-- A literal for a column: any integer is an INT64 so far, and a NULL of any type. -/
def coerce (literal : Field) (col : Column) : Except ExecError Field :=
  if literal.isNull then
    if col.nullable then pure (.null col.type)
    else throw ⟨bytes "NULL in non-nullable column " ++ col.name⟩
  else
    match col.type with
    | .kInt64 => if literal.type ≠ .kInt64 then throw (mismatch col "INT64") else pure literal
    | .kInt32 =>
      if literal.type ≠ .kInt64 then throw (mismatch col "INT32")
      else if literal.i64.toInt < -2 ^ 31 ∨ 2 ^ 31 - 1 < literal.i64.toInt then
        throw ⟨bytes "integer out of INT32 range for column " ++ col.name⟩
      else pure (.ofInt32 literal.i64.toInt32)
    | .kBool => if literal.type ≠ .kBool then throw (mismatch col "BOOL") else pure literal
    | .kText => if literal.type ≠ .kText then throw (mismatch col "TEXT") else pure literal
    | .kDouble =>
      if literal.type ≠ .kDouble ∧ literal.type ≠ .kInt64 then throw (mismatch col "DOUBLE")
      else pure (.ofDouble literal.asDouble)

/-- The loop of `run_insert` over the columns. -/
def coerceRow : Row → List Column → Except ExecError Row
  | value :: values, col :: cols => do
    let field ← coerce value col
    let rest ← coerceRow values cols
    pure (field :: rest)
  | _, _ => pure []

/-- The row of an INSERT, once its values are those of the columns and it has a key. -/
def insertedRow (s : InsertStmt) (schema : Schema) : Except Raised Row :=
  if s.values.length ≠ schema.columns.length then
    throw (.exec ⟨bytes "INSERT has " ++ digitsText s.values.length ++ bytes " values but table " ++
      s.table ++ bytes " has " ++ digitsText schema.columns.length ++ bytes " columns"⟩)
  else do
    let row ← (coerceRow s.values schema.columns).mapError .exec
    match row, schema.columns with
    | key :: _, first :: _ =>
      if key.isNull ∨ first.type ≠ .kInt64 then
        throw (.exec ⟨bytes "the key column (column 0) must be a non-null INT64"⟩)
      else pure row
    | _, _ => throw (.check .outside)

/-- The name of the key column, and the key of the row. -/
def duplicateKey (s : InsertStmt) (schema : Schema) (row : Row) : Text :=
  bytes "duplicate key: " ++ s.table ++ bytes " already has a row with " ++
    (schema.columns.map Column.name).headD [] ++ bytes " = " ++ intText (Row.at row 0).i64.toInt

variable (calls : Calls σ)

def runCreate (s : CreateTableStmt) : Stateful Raised σ ResultSet := do
  if ← called (calls.tableExists s.table) then refused (bytes "table already exists: " ++ s.table)
  else
    let _ ← called (calls.createTable s.table s.schema)
    pure {}

/-- `run_create_index` once its table was found. -/
def indexColumn (s : CreateIndexStmt) (t : TableInfo) : Stateful Raised σ ResultSet :=
  match t.schema.columns.findIdx? (·.name = s.column) with
  | none => refused (bytes "no such column: " ++ s.table ++ bytes "." ++ s.column)
  | some col =>
    if col = 0 then
      refused (bytes "column " ++ s.column ++ bytes " is the key of " ++ s.table ++
        bytes "; the table's own B+Tree is already its index")
    else if t.indexed.getD col false then
      refused (bytes "column " ++ s.table ++ bytes "." ++ s.column ++ bytes " already has an index")
    else do
      let _ ← called (calls.createIndex s.table col)
      pure {}

def runCreateIndex (s : CreateIndexStmt) : Stateful Raised σ ResultSet := do
  match ← called (calls.findTable s.table) with
  | none => refused (bytes "no such table: " ++ s.table)
  | some t => indexColumn calls s t

def runInsert (s : InsertStmt) : Stateful Raised σ ResultSet := do
  if ← called (calls.tableExists s.table) then
    let schema ← called (calls.schemaOf s.table)
    let row ← reported (insertedRow s schema)
    if ← called (calls.insertRow s.table row) then pure {}
    else refused (duplicateKey s schema row)
  else refused (bytes "no such table: " ++ s.table)

end Executor

section Catalogs

def tableExists (name : Text) : DiskM Bool := do
  let p ← loadCatalogPage
  pure (findSlot p name).isSome

def schemaOf (name : Text) : DiskM Schema := do
  let (_, _, d) ← slotOf name (bytes "no such table")
  pure d.schema

/-- The flags of `find_table`: the key column is always indexed. -/
def flags (schema : Schema) (indexed : List Bool) : List Bool :=
  (List.range schema.columns.length).map fun c => decide (c = 0) || indexed.getD c false

def findTable (name : Text) : DiskM (Option TableInfo) := do
  let p ← loadCatalogPage
  match findSlot p name with
  | none => pure none
  | some i => do
    let d ← checked (readDesc p i)
    pure (some ⟨d.schema, d.rows, flags d.schema (indexed d.indexRoots)⟩)

/-- The catalog on the disk. -/
def diskCalls (alloc : Allocator) (scratch : Memory) : Calls Disk where
  tableExists := tableExists
  schemaOf := schemaOf
  findTable := findTable
  createTable := createTable alloc
  createIndex := createIndex alloc
  insertRow table row := Option.isSome <$> insertRow alloc scratch table row

def Relation.info (t : Relation) : TableInfo :=
  ⟨t.schema, UInt64.ofNat t.rows.length, flags t.schema t.indexed⟩

/-- The database that it stands for. -/
def databaseCalls : Calls (List Relation) where
  tableExists name := do
    let db ← get
    pure (db.find? (·.name = name)).isSome
  schemaOf name := do
    let t ← DatabaseM.described name (bytes "no such table")
    pure t.schema
  findTable name := do
    let db ← get
    pure ((db.find? (·.name = name)).map Relation.info)
  createTable := DatabaseM.createTable
  createIndex := DatabaseM.createIndex
  insertRow := DatabaseM.insertRow

end Catalogs

end Labdb.Engine
