import Labdb.Query.Value

/-! Tokens, the atoms of SQL text: what each is, and where in the source it began. -/

namespace Labdb.Sql

open Labdb.Query

inductive TokenType where
  | kIdentifier | kIntLiteral | kFloatLiteral | kStrLiteral
  | kCreate | kTable | kInsert | kInto | kValues | kSelect | kFrom | kWhere
  | kInt64 | kInt32 | kBool | kText
  | kNull | kNot | kTrue | kFalse
  | kJoin | kInner | kOn | kAnd | kAs
  | kGroup | kBy | kHaving | kOrder | kAsc | kDesc | kLimit
  | kIndex
  | kBegin | kCommit | kRollback
  | kEq | kNe | kLt | kLe | kGt | kGe
  | kLParen | kRParen | kComma | kStar | kSemicolon
  | kDot
  | kEnd
  deriving DecidableEq, Repr

structure Token where
  type : TokenType := .kEnd
  text : Text := []
  intVal : Int64 := 0
  floatVal : Double := ⟨0⟩
  line : Nat := 1
  col : Nat := 1
  deriving DecidableEq, Repr

def quote : UInt8 := 39

def dot : UInt8 := 46

def is (type : TokenType) (t : Token) : Bool := t.type = type

theorem is_iff {type : TokenType} {t : Token} : is type t = true ↔ t.type = type :=
  decide_eq_true_iff

/-- What error texts call a token. -/
def tokenTypeName : TokenType → Text
  | .kIdentifier => bytes "identifier"
  | .kIntLiteral => bytes "integer"
  | .kFloatLiteral => bytes "decimal"
  | .kStrLiteral => bytes "string"
  | .kCreate => bytes "CREATE"
  | .kTable => bytes "TABLE"
  | .kInsert => bytes "INSERT"
  | .kInto => bytes "INTO"
  | .kValues => bytes "VALUES"
  | .kSelect => bytes "SELECT"
  | .kFrom => bytes "FROM"
  | .kWhere => bytes "WHERE"
  | .kInt64 => bytes "INT64"
  | .kInt32 => bytes "INT32"
  | .kBool => bytes "BOOL"
  | .kText => bytes "TEXT"
  | .kNull => bytes "NULL"
  | .kNot => bytes "NOT"
  | .kTrue => bytes "TRUE"
  | .kFalse => bytes "FALSE"
  | .kJoin => bytes "JOIN"
  | .kInner => bytes "INNER"
  | .kOn => bytes "ON"
  | .kAnd => bytes "AND"
  | .kAs => bytes "AS"
  | .kGroup => bytes "GROUP"
  | .kBy => bytes "BY"
  | .kHaving => bytes "HAVING"
  | .kOrder => bytes "ORDER"
  | .kAsc => bytes "ASC"
  | .kDesc => bytes "DESC"
  | .kLimit => bytes "LIMIT"
  | .kIndex => bytes "INDEX"
  | .kBegin => bytes "BEGIN"
  | .kCommit => bytes "COMMIT"
  | .kRollback => bytes "ROLLBACK"
  | .kEq => bytes "="
  | .kNe => bytes "<>"
  | .kLt => bytes "<"
  | .kLe => bytes "<="
  | .kGt => bytes ">"
  | .kGe => bytes ">="
  | .kLParen => bytes "("
  | .kRParen => bytes ")"
  | .kComma => bytes ","
  | .kStar => bytes "*"
  | .kSemicolon => bytes ";"
  | .kDot => bytes "."
  | .kEnd => bytes "end of input"

/-- Letters raised, as `std::toupper` does byte by byte. -/
def upper (text : Text) : Text := text.map fun char => if 97 ≤ char ∧ char ≤ 122 then char - 32 else char

/-- The six comparison operators among the tokens. -/
def TokenType.IsOp : TokenType → Bool
  | .kEq | .kNe | .kLt | .kLe | .kGt | .kGe => true
  | _ => false

end Labdb.Sql
