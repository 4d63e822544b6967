import Labdb.Query.Aggregate
import Labdb.Query.Sort

/-! ORDER BY on the batch path: the same sort over rows that are held as columns. -/

namespace Labdb.Query

open Labdb.Data

/-- `order_key` of row `i` of a column that holds a value there. -/
def orderKeyAt (column : ColumnVector) (i : Nat) : Key :=
  match column.type with
  | .kText => orderKeyText (column.textAt i)
  | .kDouble => orderKeyDouble (column.doubleAt i)
  | _ => orderKeyInt (column.intAt i)

/-- What a sort holds on the batch path: row `r` of the input held is row `r` of every column. -/
structure HeldCols where
  cols : List ColumnVector := []
  seq : List Nat := []
  order : List Entry := []
  deriving DecidableEq, Repr

namespace HeldCols

def col (held : HeldCols) (c : Nat) : ColumnVector := held.cols.getD c {}

def seqAt (held : HeldCols) (number : Nat) : Nat := held.seq.getD number 0

/-- A batch's row is appended to the columns. -/
def hold (held : HeldCols) (batch : Batch) (i : Nat) : HeldCols :=
  { held with cols := held.cols.zipIdx.map fun (column, c) => column.pushFrom (batch.col c) i }

/-- Row `r` becomes a row of other columns. -/
def copyRow (held : HeldCols) (r : Nat) (source : Nat → ColumnVector) (i : Nat) : HeldCols :=
  { held with cols := held.cols.zipIdx.map fun (column, c) => column.copyFrom r (source c) i }

end HeldCols

namespace SortOp

variable (sort : SortOp)

def prefixOfCols (cols : Nat → ColumnVector) (i : Nat) : UInt64 :=
  if !sort.prefixes then 0
  else
    match sort.keys with
    | [] => 0
    | key :: _ =>
      let column := cols key.col
      let code := if column.nullAt i then ~~~0 else orderKeyAt column i
      if key.desc then ~~~code else code

def beforeCols (held : HeldCols) (a b : Nat) : List SortKey → Bool
  | [] => held.seqAt a < held.seqAt b
  | key :: rest =>
    let column := held.col key.col
    let p := column.nullAt a
    let q := column.nullAt b
    if p || q then if p && q then beforeCols held a b rest else if key.desc then p else q
    else
      let r := compareAt column a column b
      if r ≠ .eq then if key.desc then r = .gt else r = .lt else beforeCols held a b rest

def entryBeforeCols (held : HeldCols) (a b : Entry) : Bool :=
  if a.code ≠ b.code then a.code < b.code else beforeCols held a.row b.row sort.keys

/-- One more row of a full sort. -/
def holdRow (held : HeldCols) (batch : Batch) (i : Nat) : HeldCols :=
  let r := held.seq.length
  let held := held.hold batch i
  { held with
    seq := held.seq ++ [held.seq.length]
    order := held.order ++ [⟨sort.prefixOfCols held.col r, r⟩] }

/-- The scratch row takes the place of the worst row kept, which leaves the heap. -/
def replaceCols (n : Nat) (held : HeldCols) (code : UInt64) (worst : Entry) (seq : Nat) :
    HeldCols :=
  let copied := held.copyRow worst.row held.col n
  let copied := { copied with seq := copied.seq.set worst.row seq }
  { copied with
    order := place (sort.entryBeforeCols copied) ⟨code, worst.row⟩ held.order.dropLast }

/-- One more row of a top `n`, whose scratch row is row `n`; the heap's worst entry stands
last. A row whose code comes after the worst one's is turned away at once. -/
def offerCols (n : Nat) (held : HeldCols) (batch : Batch) (i seq : Nat) : HeldCols :=
  if n = 0 then held
  else if held.order.length < n then
    let r := held.seq.length
    let added := held.hold batch i
    let added := { added with seq := added.seq ++ [seq] }
    let entry : Entry := ⟨sort.prefixOfCols added.col r, r⟩
    let added := { added with order := place (sort.entryBeforeCols added) entry held.order }
    if added.order.length = n then
      let spare := added.hold batch i
      { spare with seq := spare.seq ++ [0] }
    else added
  else
    match held.order.getLast? with
    | none => held
    | some worst =>
      let code := sort.prefixOfCols batch.col i
      if worst.code < code then held
      else
        let written := held.copyRow n batch.col i
        let written := { written with seq := written.seq.set n seq }
        if sort.entryBeforeCols written ⟨code, n⟩ worst then
          sort.replaceCols n written code worst seq
        else written

/-- The live rows of the input, batch by batch. -/
def liveOf (batches : List Batch) : List (Batch × Nat) :=
  batches.flatMap fun batch => batch.liveRows.map fun i => (batch, i)

/-- `open_batches`: everything that is held once the input has been read, in order. -/
def holdBatches (types : List ColType) (batches : List Batch) : HeldCols :=
  let none_ : HeldCols := { cols := types.map fun type => { type } }
  let held :=
    match sort.limit with
    | none => (liveOf batches).foldl (fun held (batch, i) => sort.holdRow held batch i) none_
    | some n =>
      (liveOf batches).zipIdx.foldl (fun held ((batch, i), seq) => sort.offerCols n held batch i seq)
        none_
  { held with order := sorted (sort.entryBeforeCols held) held.order }

/-- `produce_batch`: the next rows in order, at most `max` and at most the batch size. Returns
the batch and the entries that are left, or nothing where there are none. -/
def produceBatch (types : List ColType) (batchRows : Nat) (held : HeldCols) (left : List Entry)
    (out : Batch) (max : Nat) : Option (Batch × List Entry) :=
  if left = [] then none
  else
    let n := min (min max batchRows) left.length
    let out := out.format types n
    let idx := (left.take n).map Entry.row
    some ({ out with
      cols := out.cols.zipIdx.map fun (column, c) => column.gather (held.col c) idx
      size := n }, left.drop n)

/-- The batches that calls with these budgets hand out, each with the batch it writes to; the
calls after the one that finds nothing are left out. -/
def drainBatches (types : List ColType) (batchRows : Nat) (held : HeldCols) :
    List Entry → List (Batch × Nat) → List Batch
  | _, [] => []
  | left, (out, max) :: calls =>
    match produceBatch types batchRows held left out max with
    | none => []
    | some (batch, left) => batch :: drainBatches types batchRows held left calls

end SortOp

end Labdb.Query
