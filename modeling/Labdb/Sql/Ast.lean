import Labdb.Sql.Token

/-! The shape of a parsed statement, as `ast.hpp` has it. -/

namespace Labdb.Sql

open Labdb.Query

structure CreateTableStmt where
  table : Text := []
  schema : Schema := {}
  deriving DecidableEq, Repr

structure CreateIndexStmt where
  table : Text := []
  column : Text := []
  deriving DecidableEq, Repr

structure InsertStmt where
  table : Text := []
  values : Row := []
  deriving DecidableEq, Repr

/-- A column as written: `name`, or `t.name` where the table is not empty. -/
structure ColumnRef where
  table : Text := []
  column : Text := []
  deriving DecidableEq, Repr

inductive AggFunc where
  | kNone
  | kCount
  | kSum
  | kAvg
  | kMin
  | kMax
  deriving DecidableEq, Repr

/-- A column, an aggregate of one, or `COUNT(*)`. -/
structure SelectItem extends ColumnRef where
  func : AggFunc := .kNone
  star : Bool := false
  alias_ : Text := []
  deriving DecidableEq, Repr

/-- A value compared with a column, where `right` is set, or else with a literal. -/
structure Comparison where
  left : SelectItem := {}
  op : TokenType := .kEq
  right : Option ColumnRef := none
  literal : Field := {}
  deriving DecidableEq, Repr

structure TableRef where
  name : Text := []
  alias_ : Text := []
  deriving DecidableEq, Repr

def TableRef.label (table : TableRef) : Text :=
  if table.alias_ = [] then table.name else table.alias_

structure JoinClause where
  table : TableRef := {}
  on : List Comparison := []
  deriving DecidableEq, Repr

structure OrderItem where
  value : SelectItem := {}
  desc : Bool := false
  deriving DecidableEq, Repr

structure SelectStmt where
  star : Bool := false
  columns : List SelectItem := []
  from_ : TableRef := {}
  joins : List JoinClause := []
  where_ : List Comparison := []
  groupBy : List ColumnRef := []
  having : List Comparison := []
  orderBy : List OrderItem := []
  limit : Option Int64 := none
  deriving DecidableEq, Repr

/-- A statement: of the seven kinds, `BEGIN`, `COMMIT` and `ROLLBACK` carry nothing. -/
inductive Statement where
  | kCreate (create : CreateTableStmt)
  | kInsert (insert : InsertStmt)
  | kSelect (select : SelectStmt)
  | kCreateIndex (createIndex : CreateIndexStmt)
  | kBegin
  | kCommit
  | kRollback
  deriving DecidableEq, Repr

end Labdb.Sql
