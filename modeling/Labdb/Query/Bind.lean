import Labdb.Sql.Unparse

/-! Comparisons bound to column positions, with the checks that planning makes on them. -/

namespace Labdb.Query

open Labdb.Sql

def isAggregate (value : SelectItem) : Bool := value.func ≠ .kNone

variable (toChars : Double → Text)

def aggregateError (value : SelectItem) : ExecError :=
  ⟨bytes "aggregate functions are not allowed in WHERE or ON: " ++ valueSql value⟩

def compareError (left : SelectItem) (ltype : ColType) (right : ColumnRef) (rtype : ColType) :
    ExecError :=
  ⟨bytes "cannot compare " ++ columnRefSql left.toColumnRef ++ bytes " (" ++ typeKeyword ltype ++
    bytes ") with " ++ columnRefSql right ++ bytes " (" ++ typeKeyword rtype ++ bytes ")"⟩

def mismatchError (left : SelectItem) (ltype : ColType) (literal : Field) : ExecError :=
  ⟨bytes "type mismatch: " ++ columnRefSql left.toColumnRef ++ bytes " is " ++ typeKeyword ltype ++
    bytes ", compared with " ++ literalSql toChars literal⟩

/-- A comparison with every name resolved, its two sides of one class. -/
def bind (schema : OutSchema) (c : Comparison) : Except ExecError BoundComparison :=
  if isAggregate c.left then throw (aggregateError c.left)
  else do
    let left ← resolve schema c.left.toColumnRef
    let ltype := typeAt schema left
    let bound : BoundComparison :=
      { left, op := c.op, asText := ltype = .kText, asDouble := ltype = .kDouble }
    match c.right with
    | some ref =>
      let right ← resolve schema ref
      let rtype := typeAt schema right
      if typeClass ltype ≠ typeClass rtype then throw (compareError c.left ltype ref rtype)
      else
        pure { bound with
          rightIsColumn := true
          right
          asDouble := bound.asDouble || rtype = .kDouble }
    | none =>
      if c.literal.isNull then pure { bound with literal := .null ltype }
      else if typeClass c.literal.type ≠ typeClass ltype then
        throw (mismatchError toChars c.left ltype c.literal)
      else
        pure { bound with
          literal := c.literal
          asDouble := bound.asDouble || c.literal.type = .kDouble }

/-- A computation with a step before it succeeds after the step has. -/
theorem ok_of_bind {α β ε : Type} {first : Except ε α} {rest : α → Except ε β} {result : β}
    (ran : (first >>= rest) = .ok result) :
    ∃ value, first = .ok value ∧ rest value = .ok result := by
  cases first with
  | error failure => cases ran
  | ok value => exact ⟨value, rfl, ran⟩

end Labdb.Query
