import Labdb.Data.Grammar
import Labdb.Sql.Ast
import Labdb.Sql.Lexer

/-! The recursive-descent parser of `parser.cpp`: each rule takes the tokens that it expects
off the list, and the position is what is left of it. -/

namespace Labdb.Sql

open Labdb.Data Labdb.Query
open Labdb.Data.Parser (peek peekNext advance)

structure ParseError where
  message : Text
  line : Nat
  col : Nat
  deriving DecidableEq, Repr

abbrev Parse (α : Type) := Data.Parser Token ParseError α

/-- The text of an error that quotes the next token. -/
def fail {α : Type} (message : Token → Text) : Parse α :=
  Data.Parser.fail fun t => { message := message t, line := t.line, col := t.col }

def check (type : TokenType) : Parse Bool := Data.Parser.check (is type)

def expectedError (what : String) (t : Token) : ParseError where
  message := bytes "expected " ++ bytes what ++ bytes ", found " ++
    if t.type = .kEnd then bytes "end of input" else bytes "'" ++ t.text ++ bytes "'"
  line := t.line
  col := t.col

def expect (type : TokenType) (what : String) : Parse Token :=
  Data.Parser.expect (is type) (expectedError what)

/-- A `switch` on the next token, which is taken where it has a case. -/
def switch {α : Type} (cases_ : Token → Option α) (message : String) : Parse α := do
  let t ← peek
  match cases_ t with
  | some a => do
    let _ ← advance
    pure a
  | none => fail fun _ => bytes message

/-- `for (;;) { item; if (check(kComma)) { advance(); continue; } break; }` -/
def commaList {α : Type} (item : Parse α) : Parse (List α) :=
  Data.Parser.loop (Data.Parser.separatedRounds (is .kComma) item)

def parseType : Parse ColType :=
  switch (fun t =>
    match t.type with
    | .kInt64 => some .kInt64
    | .kInt32 => some .kInt32
    | .kBool => some .kBool
    | .kText => some .kText
    | _ => none)
    "expected a column type (INT64, INT32, BOOL, or TEXT)"

def parseColumnDef : Parse Column := do
  let name ← expect .kIdentifier "a column name"
  let type ← parseType
  if ← check .kNot then
    let _ ← advance
    let _ ← expect .kNull "NULL after NOT"
    pure { name := name.text, type, nullable := false }
  else if ← check .kNull then
    let _ ← advance
    pure { name := name.text, type, nullable := true }
  else pure { name := name.text, type, nullable := true }

def parseCreateIndex : Parse Statement := do
  let _ ← expect .kIndex "INDEX"
  let _ ← expect .kOn "ON and the table to index"
  let table ← expect .kIdentifier "a table name"
  let _ ← expect .kLParen "'(' before the column to index"
  let column ← expect .kIdentifier "a column name"
  let _ ← expect .kRParen "')' after the column (an index has one column)"
  pure (.kCreateIndex { table := table.text, column := column.text })

def parseCreate : Parse Statement := do
  let _ ← expect .kCreate "CREATE"
  if ← check .kIndex then parseCreateIndex
  else
    let _ ← expect .kTable "TABLE or INDEX"
    let table ← expect .kIdentifier "a table name"
    let _ ← expect .kLParen "'(' before the column list"
    let columns ← commaList parseColumnDef
    let _ ← expect .kRParen "')' after the column list"
    pure (.kCreate { table := table.text, schema := { columns } })

def parseLiteral : Parse Field :=
  switch (fun t =>
    match t.type with
    | .kIntLiteral => some (.ofInt64 t.intVal)
    | .kStrLiteral => some (.ofText t.text)
    | .kFloatLiteral => some (.ofDouble t.floatVal)
    | .kTrue => some (.ofBool true)
    | .kFalse => some (.ofBool false)
    | .kNull => some (.null .kInt64)
    | _ => none)
    "expected a literal (a number, a 'string', TRUE, FALSE, or NULL)"

def parseInsert : Parse Statement := do
  let _ ← expect .kInsert "INSERT"
  let _ ← expect .kInto "INTO"
  let table ← expect .kIdentifier "a table name"
  let _ ← expect .kValues "VALUES"
  let _ ← expect .kLParen "'(' before the value list"
  let values ← commaList parseLiteral
  let _ ← expect .kRParen "')' after the value list"
  pure (.kInsert { table := table.text, values })

def parseColumnRef (what : String) : Parse ColumnRef := do
  let first ← expect .kIdentifier what
  if ← check .kDot then
    let _ ← advance
    let column ← expect .kIdentifier "a column name after '.'"
    pure { table := first.text, column := column.text }
  else pure { column := first.text }

/-- The aggregate of a name in letters of either case. -/
def aggregateOf (name : Text) : Option AggFunc :=
  let name := upper name
  if name = bytes "COUNT" then some .kCount
  else if name = bytes "SUM" then some .kSum
  else if name = bytes "AVG" then some .kAvg
  else if name = bytes "MIN" then some .kMin
  else if name = bytes "MAX" then some .kMax
  else none

/-- What stands between the parentheses of an aggregate. -/
def parseArgument (func : AggFunc) : Parse SelectItem := do
  if ← check .kStar then
    if func ≠ .kCount then fail fun _ => bytes "only COUNT can take *"
    else
      let _ ← advance
      pure { func, star := true }
  else
    let ref ← parseColumnRef "a column name"
    pure { toColumnRef := ref, func }

/-- A function call: an identifier is next, and then a parenthesis. -/
def parseAggregate : Parse SelectItem := do
  let name ← peek
  match aggregateOf name.text with
  | none =>
    fail fun t => bytes "unknown function '" ++ t.text ++
      bytes "' (the aggregates are COUNT, SUM, AVG, MIN and MAX)"
  | some func => do
    let _ ← advance
    let _ ← expect .kLParen "'('"
    let v ← parseArgument func
    let _ ← expect .kRParen "')' after the aggregate's argument"
    pure v

def parseValue (what : String) : Parse SelectItem := do
  let isIdentifier ← check .kIdentifier
  let next ← peekNext
  if isIdentifier && is .kLParen next then parseAggregate
  else
    let ref ← parseColumnRef what
    pure { toColumnRef := ref }

def parseOp : Parse TokenType :=
  switch (fun t => if t.type.IsOp then some t.type else none)
    "expected a comparison operator (=, <>, <, <=, >, >=)"

def parseComparison : Parse Comparison := do
  let left ← parseValue "a column name"
  let op ← parseOp
  if ← check .kIdentifier then
    let right ← parseColumnRef "a column name"
    pure { left, op, right := some right }
  else
    let literal ← parseLiteral
    pure { left, op, literal }

def parseCondition : Parse (List Comparison) :=
  Data.Parser.loop (Data.Parser.separatedRounds (is .kAnd) parseComparison)

def parseTableRef : Parse TableRef := do
  let name ← expect .kIdentifier "a table name"
  if ← check .kAs then
    let _ ← advance
    let alias_ ← expect .kIdentifier "an alias after AS"
    pure { name := name.text, alias_ := alias_.text }
  else if ← check .kIdentifier then
    let alias_ ← advance
    pure { name := name.text, alias_ := alias_.text }
  else pure { name := name.text }

def parseItem : Parse SelectItem := do
  let item ← parseValue "a column name"
  if ← check .kAs then
    let _ ← advance
    let alias_ ← expect .kIdentifier "an alias after AS"
    pure { item with alias_ := alias_.text }
  else pure item

def parseSelectList : Parse (Bool × List SelectItem) := do
  if ← check .kStar then
    let _ ← advance
    pure (true, [])
  else
    let columns ← commaList parseItem
    pure (false, columns)

/-- `if (check(kInner)) advance();` -/
def skip (type : TokenType) : Parse Unit := do
  if ← check type then
    let _ ← advance
    pure ()
  else pure ()

def parseJoin : Parse JoinClause := do
  let _ ← skip .kInner
  let _ ← expect .kJoin "JOIN after INNER"
  let table ← parseTableRef
  let _ ← expect .kOn "ON and a join condition"
  let on ← parseCondition
  pure { table, on }

def parseJoins : Parse (List JoinClause) :=
  Data.Parser.loop (Data.Parser.whileRounds (fun t => is .kJoin t || is .kInner t) parseJoin)

/-- An optional clause of a SELECT. -/
def parseClause {α : Type} (keyword : TokenType) (rest : Parse (List α)) : Parse (List α) := do
  if ← check keyword then
    let _ ← advance
    rest
  else pure []

def parseGroupBy : Parse (List ColumnRef) := do
  let _ ← expect .kBy "BY after GROUP"
  commaList (parseColumnRef "a column name to group by")

def parseOrderItem : Parse OrderItem := do
  let value ← parseValue "a column name to order by"
  if ← check .kAsc then
    let _ ← advance
    pure { value }
  else if ← check .kDesc then
    let _ ← advance
    pure { value, desc := true }
  else pure { value }

def parseOrderBy : Parse (List OrderItem) := do
  let _ ← expect .kBy "BY after ORDER"
  commaList parseOrderItem

/-- The row count has been taken when its sign is looked at. -/
def parseRowCount : Parse Int64 := do
  let n ← expect .kIntLiteral "a row count after LIMIT"
  if n.intVal < 0 then Data.Parser.raise ⟨bytes "LIMIT must not be negative", n.line, n.col⟩
  else pure n.intVal

def parseLimit : Parse (Option Int64) := do
  if ← check .kLimit then
    let _ ← advance
    let n ← parseRowCount
    pure (some n)
  else pure none

def parseSelect : Parse Statement := do
  let _ ← expect .kSelect "SELECT"
  let (star, columns) ← parseSelectList
  let _ ← expect .kFrom "FROM"
  let from_ ← parseTableRef
  let joins ← parseJoins
  let where_ ← parseClause .kWhere parseCondition
  let groupBy ← parseClause .kGroup parseGroupBy
  let having ← parseClause .kHaving parseCondition
  let orderBy ← parseClause .kOrder parseOrderBy
  let limit ← parseLimit
  pure (.kSelect { star, columns, from_, joins, where_, groupBy, having, orderBy, limit })

def parseBound : Parse Statement :=
  switch (fun t =>
    match t.type with
    | .kBegin => some .kBegin
    | .kCommit => some .kCommit
    | .kRollback => some .kRollback
    | _ => none)
    "expected a statement (CREATE, INSERT, SELECT, BEGIN, COMMIT, or ROLLBACK)"

def parseStatement : Parse Statement := do
  if ← check .kCreate then parseCreate
  else if ← check .kInsert then parseInsert
  else if ← check .kSelect then parseSelect
  else parseBound

/-- Exactly one statement, an optional semicolon, and the end. -/
def parseSingle : Parse Statement := do
  let s ← parseStatement
  let _ ← skip .kSemicolon
  if ← check .kEnd then pure s
  else fail fun t => bytes "expected the end of the statement, found '" ++ t.text ++ bytes "'"

inductive SqlError where
  | lex (error : LexError)
  | parse (error : ParseError)
  deriving DecidableEq, Repr

/-- `parse_single` of a parser that was made for the text. -/
def parseSource (fromChars : Text → Double) (source : Text) : Option (Except SqlError Statement) :=
  match tokenize fromChars source with
  | none => none
  | some (.error e) => some (.error (.lex e))
  | some (.ok tokens) =>
    match parseSingle tokens with
    | none => none
    | some (.error e, _) => some (.error (.parse e))
    | some (.ok s, _) => some (.ok s)

end Labdb.Sql
