import Labdb.Query.Comparison

/-! Batches: rows held column by column, with a list of the positions that are live, as
`batch.hpp` has them. -/

namespace Labdb.Query

/-- At least `n` places, what is there kept. -/
def grow {α : Type} (fill : α) (items : List α) (n : Nat) : List α :=
  items ++ List.replicate (n - items.length) fill

/-- The loop `while (room < n) room *= 2`, which `n` steps are enough for. -/
def doubled : Nat → Nat → Nat → Nat
  | 0, room, _ => room
  | steps + 1, room, n => if room < n then doubled steps (room * 2) n else room

/-- One column: the array of its type holds the values, and `nulls` says which are NULL. -/
structure ColumnVector where
  type : ColType := .kInt64
  ints : List Int64 := []
  doubles : List Double := []
  texts : List Text := []
  nulls : List Bool := []
  deriving DecidableEq, Repr

namespace ColumnVector

def format (column : ColumnVector) (type : ColType) (n : Nat) : ColumnVector :=
  let column := { column with type, nulls := grow false column.nulls n }
  match type with
  | .kText => { column with texts := grow [] column.texts n }
  | .kDouble => { column with doubles := grow ⟨0⟩ column.doubles n }
  | _ => { column with ints := grow 0 column.ints n }

def nullAt (column : ColumnVector) (i : Nat) : Bool := column.nulls.getD i false

def intAt (column : ColumnVector) (i : Nat) : Int64 := column.ints.getD i 0

def doubleAt (column : ColumnVector) (i : Nat) : Double := column.doubles.getD i ⟨0⟩

def textAt (column : ColumnVector) (i : Nat) : Text := column.texts.getD i []

def set (column : ColumnVector) (i : Nat) (field : Field) : ColumnVector :=
  let column := { column with nulls := column.nulls.set i field.isNull }
  match column.type with
  | .kText => { column with texts := column.texts.set i (if field.isNull then [] else field.text) }
  | .kDouble =>
    { column with doubles := column.doubles.set i (if field.isNull then ⟨0⟩ else field.f64) }
  | _ => { column with ints := column.ints.set i (if field.isNull then 0 else field.i64) }

/-- The field that the row engine would hold for row `i`. -/
def get (column : ColumnVector) (i : Nat) : Field :=
  let isNull := column.nullAt i
  match column.type with
  | .kText => { type := .kText, isNull, text := if isNull then [] else column.textAt i }
  | .kDouble =>
    { type := .kDouble, isNull, i64 := if isNull then 0 else ⟨⟨(column.doubleAt i).bits⟩⟩ }
  | type => { type, isNull, i64 := if isNull then 0 else column.intAt i }

/-- Row `i` becomes row `j` of `source`. -/
def copyFrom (column : ColumnVector) (i : Nat) (source : ColumnVector) (j : Nat) : ColumnVector :=
  let column := { column with nulls := column.nulls.set i (source.nullAt j) }
  match column.type with
  | .kText => { column with texts := column.texts.set i (source.textAt j) }
  | .kDouble => { column with doubles := column.doubles.set i (source.doubleAt j) }
  | _ => { column with ints := column.ints.set i (source.intAt j) }

/-- Row `j` of `source` is appended. -/
def pushFrom (column source : ColumnVector) (j : Nat) : ColumnVector :=
  let column := { column with nulls := column.nulls ++ [source.nullAt j] }
  match column.type with
  | .kText => { column with texts := column.texts ++ [source.textAt j] }
  | .kDouble => { column with doubles := column.doubles ++ [source.doubleAt j] }
  | _ => { column with ints := column.ints ++ [source.intAt j] }

def push (column : ColumnVector) (field : Field) : ColumnVector :=
  let column := { column with nulls := column.nulls ++ [field.isNull] }
  match column.type with
  | .kText => { column with texts := column.texts ++ [if field.isNull then [] else field.text] }
  | .kDouble =>
    { column with doubles := column.doubles ++ [if field.isNull then ⟨0⟩ else field.f64] }
  | _ => { column with ints := column.ints ++ [if field.isNull then 0 else field.i64] }

/-- The loops of `gather`, a row at a time: row `at_ + j` becomes row `idx[j]` of the source. -/
def gatherAt (source : ColumnVector) : Nat → List Nat → ColumnVector → ColumnVector
  | _, [], column => column
  | at_, i :: idx, column => gatherAt source (at_ + 1) idx (column.copyFrom at_ source i)

def gather (column source : ColumnVector) (idx : List Nat) : ColumnVector :=
  gatherAt source 0 idx column

end ColumnVector

/-- Rows at the positions below `size`; where `selected`, only those that the first
`live` entries of `sel` list are live. -/
structure Batch where
  cols : List ColumnVector := []
  size : Nat := 0
  selected : Bool := false
  sel : List Nat := []
  live : Nat := 0
  deriving DecidableEq, Repr

namespace Batch

def count (batch : Batch) : Nat := if batch.selected then batch.live else batch.size

/-- The position of the `k`-th live row. -/
def row (batch : Batch) (k : Nat) : Nat := if batch.selected then batch.sel.getD k 0 else k

def col (batch : Batch) (c : Nat) : ColumnVector := batch.cols.getD c {}

def format (batch : Batch) (types : List ColType) (n : Nat) : Batch where
  cols := types.zipIdx.map fun (type, c) => (batch.col c).format type n
  size := 0
  selected := false
  sel := grow 0 batch.sel n
  live := 0

/-- The rows there is room for in every column and in `sel`. -/
def room (batch : Batch) : Nat :=
  batch.cols.foldl (fun room column => min room column.nulls.length) batch.sel.length

/-- Room for `n` rows, the rows already there kept. -/
def ensure (batch : Batch) (n : Nat) : Batch :=
  if n ≤ batch.room then batch
  else
    let room := doubled n (if batch.sel.length < 16 then 16 else batch.sel.length) n
    { batch with
      cols := batch.cols.map fun column => column.format column.type room
      sel := grow 0 batch.sel room }

def getRow (batch : Batch) (i : Nat) : Row := batch.cols.map fun column => column.get i

/-- The positions of the live rows, in order. -/
def liveRows (batch : Batch) : List Nat := (List.range batch.count).map batch.row

/-- What a batch hands out. -/
def rows (batch : Batch) : List Row := batch.liveRows.map batch.getRow

end Batch

end Labdb.Query
