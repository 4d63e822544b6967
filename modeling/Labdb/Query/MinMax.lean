import Labdb.Query.Table
import Labdb.Query.Aggregate

/-! MIN and MAX of indexed columns, read from the ends of their indexes. -/

namespace Labdb.Query

/-- `==` of two fields, which looks at the part of them that their types use. -/
def Field.equals (a b : Field) : Bool :=
  if a.isNull ≠ b.isNull then false
  else if a.isNull then true
  else if a.type = .kText then a.text = b.text
  else if a.type = .kDouble ∨ b.type = .kDouble then a.asDouble.eq b.asDouble
  else a.i64 = b.i64

/-- The key of an index entry: that of the row's value. -/
def entryKey (col : Nat) (row : Row) : Key := orderKey (Row.at row col)

/-- The key of the last entry. -/
def IndexWalk.maxKey (index : IndexWalk) (col : Nat) : Option Key :=
  (index.rows 0 (~~~0)).getLast?.map (entryKey col)

structure IndexMinMax where
  table : Table
  aggs : List AggSpec

namespace IndexMinMax

/-- What the loop over the entries at one end has found. -/
structure Found where
  first : Bool := true
  last : Key
  best : Field

/-- The loop over the entries from an end of the index on. -/
def walkEnd (spec : AggSpec) : List Row → Found → Field
  | [], found => found.best
  | row :: rest, found =>
    let key := entryKey spec.col row
    if !found.first && key ≠ found.last then found.best
    else
      let value := Row.at row spec.col
      let order := compareValues value found.best
      let better : Bool := if spec.func = .kMin then order = .lt else order = .gt
      let best := if found.first || better then value else found.best
      if orderKeyExact spec.type then best
      else if spec.func = .kMin ∧ best.text.length < 8 then best
      else walkEnd spec rest { first := false, last := if found.first then key else found.last, best }

/-- One aggregate's value: of all entries for MIN, from the greatest key on for MAX. -/
def endValue (table : Table) (spec : AggSpec) : Field :=
  let index := table.index spec.col
  let best := Field.null spec.type
  match if spec.func = .kMin then some 0 else index.maxKey spec.col with
  | none => best
  | some last => walkEnd spec (index.rows last (~~~0)) { last, best }

/-- `IndexMinMax`, opened: one row. -/
def run (op : IndexMinMax) : RowPath := rowsPath [op.aggs.map (endValue op.table)]

/-- The aggregates for which the planner takes it: all of them MIN or MAX of indexed columns. -/
def Ends (table : Table) (aggs : List AggSpec) : Bool :=
  aggs.all fun spec => (spec.func = .kMin || spec.func = .kMax) && table.indexed spec.col

end IndexMinMax

end Labdb.Query
