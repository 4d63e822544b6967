import Labdb.Sql.Token

/-! The lexer of `lexer.hpp`: SQL text into tokens, each with the line and the column of its
first character. How a decimal is read is the C++ library's: `fromChars` is the value that
its `std::from_chars` leaves of a text. -/

namespace Labdb.Sql

open Labdb.Query

structure LexError where
  message : Text
  line : Nat
  col : Nat
  deriving DecidableEq, Repr

def space : UInt8 := 32

def newline : UInt8 := 10

def minus : UInt8 := 45

def underscore : UInt8 := 95

structure Pos where
  line : Nat := 1
  col : Nat := 1
  deriving DecidableEq, Repr

/-- The position after a character. -/
def Pos.advance (pos : Pos) (char : UInt8) : Pos :=
  if char = newline then { line := pos.line + 1, col := 1 } else { pos with col := pos.col + 1 }

def Pos.advanceAll (pos : Pos) (text : Text) : Pos := text.foldl Pos.advance pos

/-- A blank, a tab, a carriage return or a line feed. -/
def isSpace (char : UInt8) : Bool := char = space ∨ char = 9 ∨ char = 13 ∨ char = newline

def isDigit (char : UInt8) : Bool := 48 ≤ char ∧ char ≤ 57

def isAlpha (char : UInt8) : Bool := 97 ≤ char ∧ char ≤ 122 ∨ 65 ≤ char ∧ char ≤ 90

def identStart (char : UInt8) : Bool := isAlpha char || char = underscore

def identCont (char : UInt8) : Bool := isAlpha char || isDigit char || char = underscore

/-- The reserved words. -/
def keywords : List (Text × TokenType) :=
  [(bytes "CREATE", .kCreate), (bytes "TABLE", .kTable), (bytes "INSERT", .kInsert),
    (bytes "INTO", .kInto), (bytes "VALUES", .kValues), (bytes "SELECT", .kSelect),
    (bytes "FROM", .kFrom), (bytes "WHERE", .kWhere), (bytes "INT64", .kInt64),
    (bytes "INT32", .kInt32), (bytes "BOOL", .kBool), (bytes "TEXT", .kText),
    (bytes "NULL", .kNull), (bytes "NOT", .kNot), (bytes "TRUE", .kTrue), (bytes "FALSE", .kFalse),
    (bytes "JOIN", .kJoin), (bytes "INNER", .kInner), (bytes "ON", .kOn), (bytes "AND", .kAnd),
    (bytes "AS", .kAs), (bytes "GROUP", .kGroup), (bytes "BY", .kBy), (bytes "HAVING", .kHaving),
    (bytes "ORDER", .kOrder), (bytes "ASC", .kAsc), (bytes "DESC", .kDesc),
    (bytes "LIMIT", .kLimit), (bytes "INDEX", .kIndex), (bytes "BEGIN", .kBegin),
    (bytes "COMMIT", .kCommit), (bytes "ROLLBACK", .kRollback)]

def keywordOrIdentifier (word : Text) : TokenType :=
  match keywords.find? fun entry => entry.1 = upper word with
  | some (_, type) => type
  | none => .kIdentifier

/-- A token, the text after it and where that begins. -/
structure Lexed where
  token : Token
  rest : Text
  pos : Pos
  deriving DecidableEq, Repr

def lexWord (text : Text) (pos : Pos) : Lexed :=
  let word := text.takeWhile identCont
  { token := { type := keywordOrIdentifier word, text := word, line := pos.line, col := pos.col }
    rest := text.dropWhile identCont
    pos := pos.advanceAll word }

/-- The number that digits stand for. -/
def digitsValue (digits : Text) : Nat :=
  digits.foldl (fun value char => value * 10 + (char.toNat - 48)) 0

/-- `std::from_chars` of an integer, if it fits in 64 bits. -/
def fromCharsInt (negative : Bool) (digits : Text) : Option Int64 :=
  let value : Int := if negative then -(digitsValue digits : Int) else digitsValue digits
  if -2 ^ 63 ≤ value ∧ value < 2 ^ 63 then some (.ofInt value) else none

/-- The token of an integer, after which is `rest`. -/
def lexInteger (sign whole rest : Text) (pos : Pos) : Except LexError Lexed :=
  match fromCharsInt (sign = [minus]) whole with
  | some value =>
    .ok {
      token := {
        type := .kIntLiteral
        text := sign ++ whole
        intVal := value
        line := pos.line
        col := pos.col }
      rest
      pos := pos.advanceAll (sign ++ whole) }
  | none => .error ⟨bytes "integer literal out of range: " ++ sign ++ whole, pos.line, pos.col⟩

variable (fromChars : Text → Double)

/-- The digits of a number that begins with a digit or a sign, and of its fraction. -/
def lexNumber (text : Text) (pos : Pos) : Except LexError Lexed :=
  let sign := if text.head? = some minus then [minus] else []
  let text := text.drop sign.length
  let whole := text.takeWhile isDigit
  match text.dropWhile isDigit with
  | point :: after =>
    if point = dot ∧ (after.head?.any isDigit) then
      let number := sign ++ whole ++ point :: after.takeWhile isDigit
      .ok {
        token := {
          type := .kFloatLiteral
          text := number
          floatVal := fromChars number
          line := pos.line
          col := pos.col }
        rest := after.dropWhile isDigit
        pos := pos.advanceAll number }
    else lexInteger sign whole (point :: after) pos
  | [] => lexInteger sign whole [] pos

/-- The value of a string from after its opening quote, and the text after the closing one. -/
def stringValue : Text → Option (Text × Text)
  | [] => none
  | char :: rest =>
    if char = quote then
      match rest with
      | [] => some ([], [])
      | next :: rest =>
        if next = quote then (stringValue rest).map fun (value, after) => (next :: value, after)
        else some ([], next :: rest)
    else (stringValue rest).map fun (value, after) => (char :: value, after)

/-- `text` begins with the opening quote. -/
def lexString (text : Text) (pos : Pos) : Except LexError Lexed :=
  match stringValue (text.drop 1) with
  | none => .error ⟨bytes "unterminated string literal", pos.line, pos.col⟩
  | some (value, rest) =>
    .ok {
      token := { type := .kStrLiteral, text := value, line := pos.line, col := pos.col }
      rest
      pos := pos.advanceAll (text.take (text.length - rest.length)) }

/-- The operators, the longer ones first. -/
def operators : List (Text × TokenType) :=
  [(bytes "(", .kLParen), (bytes ")", .kRParen), (bytes ",", .kComma), (bytes "*", .kStar),
    (bytes ";", .kSemicolon), (bytes ".", .kDot), (bytes "=", .kEq), (bytes "<=", .kLe),
    (bytes "<>", .kNe), (bytes "<", .kLt), (bytes ">=", .kGe), (bytes ">", .kGt)]

def lexOperator (text : Text) (pos : Pos) : Except LexError Lexed :=
  match operators.find? fun entry => entry.1.isPrefixOf text with
  | some (symbol, type) =>
    .ok {
      token := { type, text := symbol, line := pos.line, col := pos.col }
      rest := text.drop symbol.length
      pos := pos.advanceAll symbol }
  | none =>
    .error ⟨bytes "unexpected character '" ++ text.take 1 ++ bytes "'", pos.line, pos.col⟩

/-- The next token, from the first character that is not a space. -/
def next (text : Text) (pos : Pos) : Except LexError Lexed :=
  let pos := pos.advanceAll (text.takeWhile isSpace)
  match text.dropWhile isSpace with
  | [] => .ok { token := { type := .kEnd, line := pos.line, col := pos.col }, rest := [], pos }
  | char :: rest =>
    if identStart char then .ok (lexWord (char :: rest) pos)
    else if isDigit char ∨ char = minus ∧ rest.head?.any isDigit then
      lexNumber fromChars (char :: rest) pos
    else if char = quote then lexString (char :: rest) pos
    else lexOperator (char :: rest) pos

/-- The loop of `tokenize`; there is no result where the rounds run out. -/
def tokenizeRounds : Nat → Text → Pos → Option (Except LexError (List Token))
  | 0, _, _ => none
  | rounds + 1, text, pos =>
    match next fromChars text pos with
    | .error e => some (.error e)
    | .ok lexed =>
      if lexed.token.type = .kEnd then some (.ok [lexed.token])
      else
        (tokenizeRounds rounds lexed.rest lexed.pos).map fun tokens =>
          tokens.map fun tokens => lexed.token :: tokens

/-- Every token but the last takes a character. -/
def tokenize (text : Text) : Option (Except LexError (List Token)) :=
  tokenizeRounds fromChars (text.length + 1) text {}

end Labdb.Sql
