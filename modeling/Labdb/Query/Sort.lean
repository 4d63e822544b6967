import Labdb.Data.TopN
import Labdb.Query.Order

/-! ORDER BY on the row path: the rows held, and entries that refer to them by number and
are put in order by a key's first 64 bits before anything else. -/

namespace Labdb.Query

open Labdb.Data

structure SortKey where
  col : Nat
  desc : Bool := false
  deriving DecidableEq, Repr

/-- An entry of a sort: the first key, folded, and the number of a held row. -/
structure Entry where
  code : UInt64
  row : Nat
  deriving DecidableEq, Repr

structure SortOp where
  keys : List SortKey
  limit : Option Nat := none
  prefixes : Bool := true

/-- What a sort holds: rows, the place of each in the input, and the entries. -/
structure Held where
  rows : List Row := []
  seq : List Nat := []
  order : List Entry := []
  deriving DecidableEq, Repr

namespace Held

def row (held : Held) (number : Nat) : Row := held.rows.getD number []

def seqAt (held : Held) (number : Nat) : Nat := held.seq.getD number 0

end Held

namespace SortOp

variable (sort : SortOp)

/-- The first key as 64 bits, NULL after every value. -/
def prefixOf (row : Row) : UInt64 :=
  if !sort.prefixes then 0
  else
    match sort.keys with
    | [] => 0
    | key :: _ =>
      let field := Row.at row key.col
      let code := if field.isNull then ~~~0 else orderKey field
      if key.desc then ~~~code else code

/-- Whether a row comes before another, key by key; a full tie goes to the earlier one. -/
def before (x y : Row) (xSeq ySeq : Nat) : List SortKey → Bool
  | [] => xSeq < ySeq
  | key :: rest =>
    let p := Row.at x key.col
    let q := Row.at y key.col
    if p.isNull || q.isNull then
      if p.isNull && q.isNull then before x y xSeq ySeq rest
      else if key.desc then p.isNull else q.isNull
    else
      let c := compareValues p q
      if c ≠ .eq then if key.desc then c = .gt else c = .lt else before x y xSeq ySeq rest

def entryBefore (held : Held) (a b : Entry) : Bool :=
  if a.code ≠ b.code then a.code < b.code
  else before (held.row a.row) (held.row b.row) (held.seqAt a.row) (held.seqAt b.row) sort.keys

/-- A full sort holds every row. -/
def holdAll (rows : List Row) : Held where
  rows
  seq := List.range rows.length
  order := rows.zipIdx.map fun (row, number) => ⟨sort.prefixOf row, number⟩

/-- The scratch row, number `n`, is written. -/
def scratch (n : Nat) (held : Held) (row : Row) (seq : Nat) : Held :=
  { held with rows := held.rows.set n row, seq := held.seq.set n seq }

/-- The scratch row changes places with the row of the worst entry, which leaves the heap. -/
def replace (n : Nat) (held : Held) (code : UInt64) (worst : Entry) (seq : Nat) : Held :=
  let swapped := { held with
    rows := (held.rows.set worst.row (held.row n)).set n (held.row worst.row)
    seq := held.seq.set worst.row seq }
  { swapped with
    order := place (sort.entryBefore swapped) ⟨code, worst.row⟩ held.order.dropLast }

/-- One more row of a top `n`. The entries are a heap, of which only the worst is looked at:
here it stands last. Past the rows kept there is a scratch row. -/
def offer (n : Nat) (held : Held) (row : Row) (seq : Nat) : Held :=
  if n = 0 then held
  else if held.order.length < n then
    let entry : Entry := ⟨sort.prefixOf row, held.rows.length⟩
    let spare := if held.order.length + 1 = n then 1 else 0
    let grown := { held with
      rows := held.rows ++ [row] ++ List.replicate spare []
      seq := held.seq ++ [seq] ++ List.replicate spare 0 }
    { grown with order := place (sort.entryBefore grown) entry held.order }
  else
    let cand : Entry := ⟨sort.prefixOf row, n⟩
    let held := scratch n held row seq
    match held.order.getLast? with
    | none => held
    | some worst =>
      if sort.entryBefore held cand worst then sort.replace n held cand.code worst seq else held

/-- Everything that is held once the input has been read. -/
def hold (rows : List Row) : Held :=
  match sort.limit with
  | none => sort.holdAll rows
  | some n => rows.zipIdx.foldl (fun held (row, seq) => sort.offer n held row seq) {}

/-- The rows in order. -/
def ordered (rows : List Row) : List Row :=
  let held := sort.hold rows
  (sorted (sort.entryBefore held) held.order).map fun entry => held.row entry.row

/-- `Sort`, opened: the input was read to its end. -/
def run (child : RowPath) : RowPath := rowsPath (sort.ordered child.rows)

end SortOp

end Labdb.Query
