import Labdb.Data.Probing
import Labdb.Query.Aggregate
import Labdb.Query.JoinHash
import Labdb.Query.Operator

/-! GROUP BY on the row path: the groups found through an open-addressing table of the
hashes of their keys. Group ids, of 32 bits in the source, are numbers. -/

namespace Labdb.Query

open Labdb.Data

structure HashAggregate where
  groupCols : List Nat
  aggs : List AggSpec

/-- The groups, and the table that finds them: group `g` has the key `keys[g]`, its hash
`hashes[g]`, and its states from `states[g * aggs.size()]` on. -/
structure Groups where
  keys : List Row := []
  hashes : List UInt64 := []
  states : List AggState := []
  slots : List Nat := List.replicate 16 0
  mask : Nat := 15
  deriving DecidableEq, Repr

/-- A field's raw hash: every NULL has the same one, and so have the two zeros. -/
def hashField (field : Field) : UInt64 :=
  if field.isNull then 0x9E3779B97F4A7C15
  else
    match field.type with
    | .kText => fnv1a field.text
    | .kDouble => ⟨if field.f64.eq ⟨0⟩ then 0 else field.f64.bits⟩
    | _ => field.i64.toUInt64

namespace Groups

/-- Where the walk of a hash begins. -/
def home (groups : Groups) (hash : UInt64) : Nat := (mix64 hash).toNat &&& groups.mask

/-- The walk of a hash, as far as `hit` or an empty slot; none if it never ends, being back
where it began. -/
def seek (groups : Groups) (hit : Nat → Bool) (hash : UInt64) : Option Nat :=
  Probing.probe (fun i => (i + 1) &&& groups.mask) (Probing.stops groups.slots hit)
    groups.slots.length (groups.home hash)

/-- One group of those that `grow` files again. -/
def refile (groups : Groups) (g : Nat) : Option Groups := do
  let i ← groups.seek (fun _ => false) (groups.hashes.getD g 0)
  pure { groups with slots := groups.slots.set i (g + 1) }

def grow (groups : Groups) : Option Groups :=
  let size := groups.slots.length * 2
  (List.range groups.hashes.length).foldlM refile
    { groups with slots := List.replicate size 0, mask := size - 1 }

/-- The table is kept at most half full. -/
def growIfFull (groups : Groups) : Option Groups :=
  if groups.slots.length < groups.keys.length * 2 then groups.grow else pure groups

end Groups

namespace HashAggregate

variable (agg : HashAggregate)

/-- The fields of a row that make its group. -/
def keyOf (row : Row) : Row := agg.groupCols.map (Row.at row)

def keyHash (row : Row) : UInt64 :=
  agg.groupCols.zipIdx.foldl (fun hash (col, k) =>
    let value := hashField (Row.at row col)
    if k = 0 then value else hash * 0x9E3779B97F4A7C15 ^^^ value) 0

/-- The loop of `same_key`, over the columns and the key's fields. -/
def sameFields (row : Row) : List Nat → Row → Bool
  | [], _ => true
  | col :: cols, key =>
    let a := Row.at row col
    let b := Row.at key 0
    if a.isNull || b.isNull then
      if a.isNull ≠ b.isNull then false else sameFields row cols key.tail
    else if compareValues a b ≠ .eq then false
    else sameFields row cols key.tail

def sameKey (groups : Groups) (row : Row) (g : Nat) : Bool :=
  sameFields row agg.groupCols (groups.keys.getD g [])

/-- A new group, its slot the one found empty. -/
def add (groups : Groups) (row : Row) (i : Nat) : Groups :=
  { groups with
    keys := groups.keys ++ [agg.keyOf row]
    hashes := groups.hashes ++ [agg.keyHash row]
    states := groups.states ++ List.replicate agg.aggs.length {}
    slots := groups.slots.set i (groups.keys.length + 1) }

/-- The group of a row, created if it is the first of its key; none if a loop never ends. -/
def findOrAdd (groups : Groups) (row : Row) : Option (Groups × Nat) := do
  let h := agg.keyHash row
  let i ← groups.seek (fun g => groups.hashes.getD g 0 = h && agg.sameKey groups row g) h
  let s := Probing.slotAt groups.slots i
  if s ≠ 0 then pure (groups, s - 1)
  else
    pure (← (agg.add groups row i).growIfFull, groups.keys.length)

/-- The states of a group, updated from a row. -/
def update (g : Nat) (row : Row) (states : List AggState) : Except ExecError (List AggState) :=
  agg.aggs.zipIdx.foldlM (fun states (spec, a) => do
    let at_ := g * agg.aggs.length + a
    let state ← aggUpdate spec (states.getD at_ {}) (Row.at row spec.col)
    pure (states.set at_ state)) states

/-- Without GROUP BY every row belongs to group 0. -/
def groupOf (groups : Groups) (row : Row) : Option (Groups × Nat) :=
  if agg.groupCols = [] then some (groups, 0) else agg.findOrAdd groups row

/-- One row of the input. -/
def addRow (groups : Groups) (row : Row) : Option (Except ExecError Groups) := do
  let (groups, g) ← agg.groupOf groups row
  pure ((agg.update g row groups.states).map fun states => { groups with states })

/-- The rows of the input, until one of them raises an error. -/
def addRows (groups : Groups) : List Row → Option (Except ExecError Groups)
  | [] => some (.ok groups)
  | row :: rest =>
    match agg.addRow groups row with
    | none => none
    | some (.error error) => some (.error error)
    | some (.ok groups) => addRows groups rest

/-- Before the first row. Without GROUP BY there is a group even if none arrives. -/
def start : Groups :=
  if agg.groupCols = [] then
    { keys := [[]], hashes := [0], states := List.replicate agg.aggs.length {} }
  else {}

/-- The row of a group. -/
def produce (groups : Groups) (g : Nat) : Row :=
  groups.keys.getD g [] ++ agg.aggs.zipIdx.map fun (spec, a) =>
    aggResult spec (groups.states.getD (g * agg.aggs.length + a) {})

/-- `HashAggregate`, opened: the input was read to its end. -/
def run (child : RowPath) : Option (Except ExecError RowPath) :=
  (agg.addRows agg.start child.rows).map fun done =>
    done.map fun groups => rowsPath ((List.range groups.keys.length).map (agg.produce groups))

end HashAggregate

end Labdb.Query
