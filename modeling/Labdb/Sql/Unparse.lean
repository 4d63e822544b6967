import Labdb.Query.Aggregate
import Mathlib.Data.Nat.Digits.Defs

/-! A statement back as SQL text, as `unparse.hpp` prints it. How a double is printed is the
C++ library's: `toChars` is its `std::to_chars` in fixed form. -/

namespace Labdb.Sql

open Labdb.Query

/-- The digits of a number. -/
def digitsText (value : Nat) : Text :=
  if value = 0 then bytes "0"
  else (Nat.digits 10 value).reverse.map fun digit => (48 + digit).toUInt8

/-- `std::to_string` of an integer. -/
def intText (value : Int) : Text :=
  if value < 0 then bytes "-" ++ digitsText value.natAbs else digitsText value.natAbs

def typeKeyword : ColType → Text
  | .kInt64 => bytes "INT64"
  | .kInt32 => bytes "INT32"
  | .kBool => bytes "BOOL"
  | .kText => bytes "TEXT"
  | .kDouble => bytes "DOUBLE"

def opSymbol (op : TokenType) : Text := tokenTypeName op

/-- A string between quotes, each quote in it doubled. -/
def quoted (text : Text) : Text :=
  quote :: text.flatMap (fun char => if char = quote then [quote, char] else [char]) ++ [quote]

variable (toChars : Double → Text)

/-- The digits of a double, and still a decimal. -/
def decimalText (value : Double) : Text :=
  let text := toChars value
  if dot ∈ text then text else text ++ bytes ".0"

def literalSql (field : Field) : Text :=
  if field.isNull then bytes "NULL"
  else
    match field.type with
    | .kBool => if field.i64 ≠ 0 then bytes "TRUE" else bytes "FALSE"
    | .kText => quoted field.text
    | .kDouble => decimalText toChars field.f64
    | _ => intText field.i64.toInt

def columnRefSql (ref : ColumnRef) : Text :=
  if ref.table = [] then ref.column else ref.table ++ bytes "." ++ ref.column

def valueSql (value : SelectItem) : Text :=
  if value.func = .kNone then columnRefSql value.toColumnRef
  else
    aggName value.func ++ bytes "(" ++
      (if value.star then bytes "*" else columnRefSql value.toColumnRef) ++ bytes ")"

def comparisonSql (c : Comparison) : Text :=
  valueSql c.left ++ bytes " " ++ opSymbol c.op ++ bytes " " ++
    match c.right with
    | some right => columnRefSql right
    | none => literalSql toChars c.literal

/-- Texts with another between each two of them. -/
def joined (between : Text) (texts : List Text) : Text := between.intercalate texts

def conditionSql (terms : List Comparison) : Text :=
  joined (bytes " AND ") (terms.map (comparisonSql toChars))

def tableRefSql (table : TableRef) : Text :=
  if table.alias_ = [] then table.name else table.name ++ bytes " " ++ table.alias_

/-- A clause that is left out where there is nothing in it. -/
def clause (keyword between : Text) (texts : List Text) : Text :=
  if texts = [] then [] else keyword ++ joined between texts

def columnSql (column : Column) : Text :=
  column.name ++ bytes " " ++ typeKeyword column.type ++
    if column.nullable then [] else bytes " NOT NULL"

def selectItemSql (item : SelectItem) : Text :=
  valueSql item ++ if item.alias_ = [] then [] else bytes " AS " ++ item.alias_

def joinClauseSql (join : JoinClause) : Text :=
  bytes " JOIN " ++ tableRefSql join.table ++ bytes " ON " ++ conditionSql toChars join.on

def orderItemSql (item : OrderItem) : Text :=
  valueSql item.value ++ if item.desc then bytes " DESC" else []

def selectSql (s : SelectStmt) : Text :=
  bytes "SELECT " ++
    (if s.star then bytes "*" else joined (bytes ", ") (s.columns.map selectItemSql)) ++
    bytes " FROM " ++ tableRefSql s.from_ ++
    (s.joins.flatMap (joinClauseSql toChars)) ++
    clause (bytes " WHERE ") (bytes " AND ") (s.where_.map (comparisonSql toChars)) ++
    clause (bytes " GROUP BY ") (bytes ", ") (s.groupBy.map columnRefSql) ++
    clause (bytes " HAVING ") (bytes " AND ") (s.having.map (comparisonSql toChars)) ++
    clause (bytes " ORDER BY ") (bytes ", ") (s.orderBy.map orderItemSql) ++
    match s.limit with
    | some limit => bytes " LIMIT " ++ intText limit.toInt
    | none => []

def unparse : Statement → Text
  | .kCreate create =>
    bytes "CREATE TABLE " ++ create.table ++ bytes " (" ++
      joined (bytes ", ") (create.schema.columns.map columnSql) ++ bytes ")"
  | .kCreateIndex createIndex =>
    bytes "CREATE INDEX ON " ++ createIndex.table ++ bytes " (" ++ createIndex.column ++ bytes ")"
  | .kBegin => bytes "BEGIN"
  | .kCommit => bytes "COMMIT"
  | .kRollback => bytes "ROLLBACK"
  | .kInsert insert =>
    bytes "INSERT INTO " ++ insert.table ++ bytes " VALUES (" ++
      joined (bytes ", ") (insert.values.map (literalSql toChars)) ++ bytes ")"
  | .kSelect select => selectSql toChars select

end Labdb.Sql
