import Labdb.Sql.Ast

/-! Names resolved against a schema, and the comparisons that operators evaluate, as the
head of `operator.cpp` has them. -/

namespace Labdb.Query

open Labdb.Sql

/-- A semantic error of a statement. -/
structure ExecError where
  message : Text
  deriving DecidableEq, Repr

/-- A column of an operator's output, with the label of the table it came from. -/
structure OutColumn where
  table : Text
  column : Column
  deriving DecidableEq, Repr

abbrev OutSchema := List OutColumn

/-- The type of a column. -/
def typeAt (schema : OutSchema) (position : Nat) : ColType :=
  match schema[position]? with
  | some column => column.column.type
  | none => .kInt64

def concat (left right : OutSchema) : OutSchema := left ++ right

def tableSchema (schema : Schema) (table : TableRef) : OutSchema :=
  schema.columns.map fun column => ⟨table.label, column⟩

/-- Values compare within a class. -/
inductive TypeClass where
  | kNumber
  | kBool
  | kText
  deriving DecidableEq, Repr

def typeClass : ColType → TypeClass
  | .kText => .kText
  | .kBool => .kBool
  | _ => .kNumber

/-- A column reference as error texts show it. -/
def shown (ref : ColumnRef) : Text :=
  if ref.table = [] then ref.column else ref.table ++ bytes "." ++ ref.column

/-- The column is one that the reference may mean. -/
def names (ref : ColumnRef) (column : OutColumn) : Bool :=
  (ref.table = [] || column.table = ref.table) && column.column.name = ref.column

/-- The position of a column reference, which must match exactly one column. -/
def resolve (schema : OutSchema) (ref : ColumnRef) : Except ExecError Nat :=
  let tableSeen := ref.table = [] || schema.any fun column => column.table = ref.table
  if !tableSeen then
    throw ⟨bytes "no table named " ++ ref.table ++ bytes " is in scope for " ++ shown ref⟩
  else
    match schema.countP (names ref) with
    | 0 => throw ⟨bytes "no such column: " ++ shown ref⟩
    | 1 => pure (schema.findIdx (names ref))
    | _ => throw ⟨bytes "ambiguous column: " ++ shown ref ++ bytes " (qualify it with its table)"⟩

/-- A comparison with every name resolved to a column position. -/
structure BoundComparison where
  left : Nat := 0
  op : TokenType := .kEq
  asText : Bool := false
  asDouble : Bool := false
  rightIsColumn : Bool := false
  right : Nat := 0
  literal : Field := {}
  deriving DecidableEq, Repr

/-- Strings compare by bytes, doubles where a side is one, all else as integers. -/
def compareFields (a b : Field) (asText asDouble : Bool) : Ordering :=
  if asText then compare a.text b.text
  else if asDouble then
    if b.asDouble.lt a.asDouble then .gt else if a.asDouble.lt b.asDouble then .lt else .eq
  else compare a.i64 b.i64

/-- Whether an operator holds of a three-way comparison. -/
def holds : TokenType → Ordering → Bool
  | .kEq, order => order.isEq
  | .kNe, order => order.isNe
  | .kLt, order => order.isLT
  | .kLe, order => order.isLE
  | .kGt, order => order.isGT
  | .kGe, order => order.isGE
  | _, _ => false

def compareValues (a b : Field) : Ordering :=
  compareFields a b (a.type = .kText) (a.type = .kDouble || b.type = .kDouble)

/-- The field at a position of a row. -/
def Row.at (row : Row) (position : Nat) : Field := row.getD position {}

/-- A comparison of two fields; a NULL on either side satisfies none. -/
def BoundComparison.test (c : BoundComparison) (a b : Field) : Bool :=
  !(a.isNull || b.isNull) && holds c.op (compareFields a b c.asText c.asDouble)

def eval (c : BoundComparison) (row : Row) : Bool :=
  c.test (Row.at row c.left) (if c.rightIsColumn then Row.at row c.right else c.literal)

/-- The same for a pair of rows, positions below `nleft` being read from the left one. -/
def evalPair (c : BoundComparison) (l r : Row) (nleft : Nat) : Bool :=
  let side := fun position =>
    if position < nleft then Row.at l position else Row.at r (position - nleft)
  c.test (side c.left) (if c.rightIsColumn then side c.right else c.literal)

/-- The joined row. -/
def joinRows (l r : Row) : Row := l ++ r

end Labdb.Query
