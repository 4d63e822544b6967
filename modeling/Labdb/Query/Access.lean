import Labdb.Query.Bind
import Labdb.Query.Plan

/-! One table's access path: the range of keys that its terms allow, the index that is
walked for it, and the filter for the terms that the range does not settle. -/

namespace Labdb.Query

open Labdb.Sql

/-- The values a column may hold: bounds, each inclusive or not, or absent. -/
structure ValueRange where
  lo : Option Field := none
  hi : Option Field := none
  loIncl : Bool := true
  hiIncl : Bool := true
  empty : Bool := false
  deriving DecidableEq, Repr

namespace ValueRange

def raise (range : ValueRange) (value : Field) (incl : Bool) : ValueRange :=
  let c := match range.lo with
    | some lo => compareValues value lo
    | none => .gt
  if c = .gt ∨ c = .eq ∧ !incl then { range with lo := some value, loIncl := incl } else range

def lower (range : ValueRange) (value : Field) (incl : Bool) : ValueRange :=
  let c := match range.hi with
    | some hi => compareValues value hi
    | none => .lt
  if c = .lt ∨ c = .eq ∧ !incl then { range with hi := some value, hiIncl := incl } else range

/-- The range tightened by `column op value`. -/
def narrow (range : ValueRange) (op : TokenType) (value : Field) : ValueRange :=
  match op with
  | .kEq => (range.raise value true).lower value true
  | .kGt => range.raise value false
  | .kGe => range.raise value true
  | .kLt => range.lower value false
  | .kLe => range.lower value true
  | _ => range

/-- No value lies between the bounds. -/
def crossed (range : ValueRange) : Bool :=
  match range.lo, range.hi with
  | some lo, some hi =>
    let c := compareValues lo hi
    c = .gt || c = .eq && !(range.loIncl && range.hiIncl)
  | _, _ => false

def loKey (range : ValueRange) (exact_ : Bool) : Option Key :=
  match range.lo with
  | none => some 0
  | some lo =>
    let key := orderKey lo
    if !range.loIncl && exact_ then if key = ~~~0 then none else some (key + 1) else some key

def hiKey (range : ValueRange) (exact_ : Bool) : Option Key :=
  match range.hi with
  | none => some (~~~0)
  | some hi =>
    let key := orderKey hi
    if !range.hiIncl && exact_ then if key = 0 then none else some (key - 1) else some key

/-- The keys of the index entries that the range can hold, if it can hold any. -/
def rangeKeys (range : ValueRange) (type : ColType) : Option (Key × Key) :=
  if range.empty || range.crossed then none
  else
    match range.loKey (orderKeyExact type), range.hiKey (orderKeyExact type) with
    | some lo, some hi => if lo ≤ hi then some (lo, hi) else none
    | _, _ => none

end ValueRange

/-- A term that a range on a column can use. -/
def inRange (col : Nat) (b : BoundComparison) : Bool :=
  b.left = col && !b.rightIsColumn && b.op ≠ .kNe && b.literal.type ≠ .kDouble

/-- An indexed column that some term bounds, and its keys, none unless told otherwise. -/
structure Candidate where
  col : Nat
  lo : Key := 1
  hi : Key := 0
  deriving DecidableEq, Repr

def tighten (range : ValueRange) (b : BoundComparison) : ValueRange :=
  if b.literal.isNull then { range with empty := true } else range.narrow b.op b.literal

def candidate (schema : OutSchema) (bound : List BoundComparison) (col : Nat) : Option Candidate :=
  let terms := bound.filter (inRange col)
  if terms = [] then none
  else
    match (terms.foldl tighten {}).rangeKeys (typeAt schema col) with
    | some (lo, hi) => some { col, lo, hi }
    | none => some { col }

def candidates (table : Table) (schema : OutSchema) (bound : List BoundComparison) :
    List Candidate :=
  ((List.range schema.length).filter table.indexed).filterMap (candidate schema bound)

/-- An access path: whether its rows come in the order of column 0, and whether it is the
whole table, unfiltered. -/
structure Access where
  op : Plan
  keyOrder : Bool := false
  bare : Bool := false

/-- The operator that reads the table through a candidate, or whole. -/
def accessSource (table : Table) (schema : OutSchema) : Option Candidate → Plan
  | none => .seqScan table schema
  | some k =>
    if k.col = 0 ∧ k.lo = k.hi then .indexLookup table schema (some (k.lo ^^^ tableKey 0))
    else .indexScan table schema k.col k.lo k.hi

/-- Whether the range of the candidate is what the term says, so that it need not be
checked again. -/
def consumed (schema : OutSchema) (picked : Option Candidate) (b : BoundComparison) : Bool :=
  match picked with
  | none => false
  | some k => orderKeyExact (typeAt schema k.col) && inRange k.col b

/-- Through the table's own tree, rows come in key order. -/
def keyOrdered : Option Candidate → Bool
  | none => true
  | some k => k.col = 0

/-- The access path for a table's terms. `pick` stands for the costs: it chooses one of the
candidates by its number, or none of them. -/
def planAccess (toChars : Double → Text) (pick : List Candidate → Option Nat) (table : Table)
    (schema : OutSchema) (terms : List Comparison) : Except ExecError Access := do
  let bound ← terms.mapM (bind toChars schema)
  let cands := candidates table schema bound
  let picked := (pick cands).bind (cands[·]?)
  let source := accessSource table schema picked
  let preds := bound.filter fun b => !consumed schema picked b
  pure {
    op := if preds = [] then source else .filter source preds
    keyOrder := keyOrdered picked
    bare := picked.isNone && preds = [] }

end Labdb.Query
