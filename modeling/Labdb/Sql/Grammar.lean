import Labdb.Data.Grammar
import Labdb.Sql.Ast

/-! The grammar of a statement, rule by rule as `parser.hpp` gives it in EBNF, with the
syntax tree that each derivation describes. -/

namespace Labdb.Sql.Grammar

open Labdb.Data Labdb.Query Rule

def word (type : TokenType) : Rule Token Token := terminal (is type)

def identifier : Rule Token Text := do
  let t ← word .kIdentifier
  pure t.text

/-- `[ rule ]` -/
def optional {α : Type} (rule : Rule Token α) (absent : α) : Rule Token α := either rule (pure absent)

/-- `rule { "," rule }` -/
def list {α : Type} (rule : Rule Token α) : Rule Token (List α) := separated (is .kComma) rule

/-- `"(" rule ")"` -/
def parenthesized {α : Type} (rule : Rule Token α) : Rule Token α := do
  let _ ← word .kLParen
  let a ← rule
  let _ ← word .kRParen
  pure a

/-- `column_ref = identifier [ "." identifier ]` -/
def columnRef : Rule Token ColumnRef := do
  let first ← identifier
  optional
    (do
      let _ ← word .kDot
      let column ← identifier
      pure { table := first, column })
    { column := first }

/-- The functions, in letters of either case. -/
def aggFunc (name : Text) : Option AggFunc :=
  if upper name = bytes "COUNT" then some .kCount
  else if upper name = bytes "SUM" then some .kSum
  else if upper name = bytes "AVG" then some .kAvg
  else if upper name = bytes "MIN" then some .kMin
  else if upper name = bytes "MAX" then some .kMax
  else none

def functionName (t : Token) : Option AggFunc :=
  if is .kIdentifier t then aggFunc t.text else none

/-- `"*" | column_ref`, the star under COUNT only -/
def argument (func : AggFunc) : Rule Token SelectItem :=
  either
    (if func = .kCount then do
      let _ ← word .kStar
      pure { func, star := true }
    else nothing)
    (do
      let ref ← columnRef
      pure { toColumnRef := ref, func })

/-- `aggregate = ( "COUNT" | "SUM" | "AVG" | "MIN" | "MAX" ) "(" ( "*" | column_ref ) ")"` -/
def aggregate : Rule Token SelectItem := do
  let func ← token functionName
  parenthesized (argument func)

/-- `value = column_ref | aggregate` -/
def value : Rule Token SelectItem :=
  either aggregate do
    let ref ← columnRef
    pure { toColumnRef := ref }

/-- `op = "=" | "<>" | "<" | "<=" | ">" | ">="` -/
def op : Rule Token TokenType := token fun t => if t.type.IsOp then some t.type else none

def literalOf (t : Token) : Option Field :=
  match t.type with
  | .kIntLiteral => some (.ofInt64 t.intVal)
  | .kStrLiteral => some (.ofText t.text)
  | .kFloatLiteral => some (.ofDouble t.floatVal)
  | .kTrue => some (.ofBool true)
  | .kFalse => some (.ofBool false)
  | .kNull => some (.null .kInt64)
  | _ => none

def literal : Rule Token Field := token literalOf

/-- `comparison = value op ( literal | column_ref )` -/
def comparison : Rule Token Comparison := do
  let left ← value
  let op ← op
  either
    (do
      let right ← columnRef
      pure { left, op, right := some right })
    (do
      let literal ← literal
      pure { left, op, literal })

/-- `condition = comparison { "AND" comparison }` -/
def condition : Rule Token (List Comparison) := separated (is .kAnd) comparison

/-- `table_ref = identifier [ [ "AS" ] identifier ]` -/
def tableRef : Rule Token TableRef := do
  let name ← identifier
  either
    (do
      let _ ← word .kAs
      let alias_ ← identifier
      pure { name, alias_ })
    (either
      (do
        let alias_ ← identifier
        pure { name, alias_ })
      (pure { name }))

/-- `join = [ "INNER" ] "JOIN" table_ref "ON" condition` -/
def join : Rule Token JoinClause := do
  optional
    (do
      let _ ← word .kInner
      pure ())
    ()
  let _ ← word .kJoin
  let table ← tableRef
  let _ ← word .kOn
  let on ← condition
  pure { table, on }

/-- `item = value [ "AS" identifier ]` -/
def item : Rule Token SelectItem := do
  let value ← value
  optional
    (do
      let _ ← word .kAs
      let alias_ ← identifier
      pure { value with alias_ })
    value

/-- `order_item = value [ "ASC" | "DESC" ]` -/
def orderItem : Rule Token OrderItem := do
  let value ← value
  either
    (do
      let _ ← word .kAsc
      pure { value })
    (either
      (do
        let _ ← word .kDesc
        pure { value, desc := true })
      (pure { value }))

/-- `"*" | item { "," item }` -/
def selectList : Rule Token (Bool × List SelectItem) :=
  either
    (do
      let _ ← word .kStar
      pure (true, []))
    (do
      let items ← list item
      pure (false, items))

/-- An optional clause that begins with a keyword. -/
def clause {α : Type} (keyword : TokenType) (rule : Rule Token (List α)) : Rule Token (List α) :=
  optional
    (do
      let _ ← word keyword
      rule)
    []

/-- `"BY" rule { "," rule }` -/
def byList {α : Type} (rule : Rule Token α) : Rule Token (List α) := do
  let _ ← word .kBy
  list rule

/-- A number of rows, which is not negative. -/
def rowCount : Rule Token Int64 :=
  token fun t => if is .kIntLiteral t ∧ 0 ≤ t.intVal then some t.intVal else none

/-- `[ "LIMIT" integer ]` -/
def limit : Rule Token (Option Int64) :=
  optional
    (do
      let _ ← word .kLimit
      let count ← rowCount
      pure (some count))
    none

/-- ```
select = "SELECT" ( "*" | item { "," item } )
         "FROM" table_ref { join } [ "WHERE" condition ]
         [ "GROUP" "BY" column_ref { "," column_ref } ]
         [ "HAVING" condition ]
         [ "ORDER" "BY" order_item { "," order_item } ]
         [ "LIMIT" integer ]
``` -/
def select : Rule Token Statement := do
  let _ ← word .kSelect
  let (star, columns) ← selectList
  let _ ← word .kFrom
  let from_ ← tableRef
  let joins ← repeated join
  let where_ ← clause .kWhere condition
  let groupBy ← clause .kGroup (byList columnRef)
  let having ← clause .kHaving condition
  let orderBy ← clause .kOrder (byList orderItem)
  let limit ← limit
  pure (.kSelect { star, columns, from_, joins, where_, groupBy, having, orderBy, limit })

def columnType (t : Token) : Option ColType :=
  match t.type with
  | .kInt64 => some .kInt64
  | .kInt32 => some .kInt32
  | .kBool => some .kBool
  | .kText => some .kText
  | _ => none

/-- A column of CREATE TABLE: nullable, unless NOT NULL is stated. -/
def columnDef : Rule Token Column := do
  let name ← identifier
  let type ← token columnType
  either
    (do
      let _ ← word .kNot
      let _ ← word .kNull
      pure { name, type, nullable := false })
    (either
      (do
        let _ ← word .kNull
        pure { name, type })
      (pure { name, type }))

def createTable : Rule Token Statement := do
  let _ ← word .kTable
  let table ← identifier
  let columns ← parenthesized (list columnDef)
  pure (.kCreate { table, schema := { columns } })

/-- `create_index = "CREATE" "INDEX" "ON" identifier "(" identifier ")"`, after the CREATE -/
def createIndex : Rule Token Statement := do
  let _ ← word .kIndex
  let _ ← word .kOn
  let table ← identifier
  let column ← parenthesized identifier
  pure (.kCreateIndex { table, column })

def create : Rule Token Statement := do
  let _ ← word .kCreate
  either createIndex createTable

def insert : Rule Token Statement := do
  let _ ← word .kInsert
  let _ ← word .kInto
  let table ← identifier
  let _ ← word .kValues
  let values ← parenthesized (list literal)
  pure (.kInsert { table, values })

/-- A transaction's bounds. -/
def boundOf (t : Token) : Option Statement :=
  match t.type with
  | .kBegin => some .kBegin
  | .kCommit => some .kCommit
  | .kRollback => some .kRollback
  | _ => none

def statement : Rule Token Statement :=
  either create (either insert (either select (token boundOf)))

/-- One statement, and perhaps a semicolon. -/
def single : Rule Token Statement := do
  let s ← statement
  optional
    (do
      let _ ← word .kSemicolon
      pure ())
    ()
  pure s

end Labdb.Sql.Grammar
