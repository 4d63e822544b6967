import Labdb.Query.AccessRows
import Labdb.Query.Columns
import Labdb.Query.SortBatch
import Labdb.Query.SortRows

/-! A sort that holds columns holds the rows that a sort of rows does, and hands out the same
rows in the same order. -/

namespace Labdb.Query

open Labdb.Data

namespace ColumnVector

/-- A field of a row that columns hold, past the last column as well. -/
theorem at_gets (cols : List ColumnVector) (i c : Nat) :
    Row.at (cols.map fun column => column.get i) c = (cols.getD c {}).get i := by
  rw [Row.at, List.getD_eq_getElem?_getD, List.getElem?_map, List.getD_eq_getElem?_getD]
  cases cols[c]? <;> rfl

theorem isNull_get (column : ColumnVector) (i : Nat) : (column.get i).isNull = column.nullAt i := by
  unfold get
  cases column.type <;> rfl

@[simp] theorem type_get (column : ColumnVector) (i : Nat) : (column.get i).type = column.type := by
  unfold get
  cases type : column.type <;> rfl

private theorem orderKeyAt_eq {column : ColumnVector} {i : Nat} (value : column.nullAt i = false) :
    orderKeyAt column i = orderKey (column.get i) := by
  unfold orderKeyAt orderKey get
  rw [value]
  cases column.type <;> rfl

private theorem compareAt_eq {column : ColumnVector} {i j : Nat} (left : column.nullAt i = false)
    (right : column.nullAt j = false) :
    compareAt column i column j = compareValues (column.get i) (column.get j) := by
  unfold compareAt compareValues compareFields get
  rw [left, right]
  cases column.type <;> rfl

end ColumnVector

namespace HeldCols

variable {types : List ColType} {held : HeldCols} {batch : Batch} {i k r : Nat}

/-- A row held. -/
def rowAt (held : HeldCols) (i : Nat) : Row := held.cols.map fun column => column.get i

/-- The same rows, held as rows. -/
def toHeld (held : HeldCols) : Held where
  rows := (List.range held.seq.length).map held.rowAt
  seq := held.seq
  order := held.order

/-- Every column has its type and as many rows as there are places. -/
structure Sized (types : List ColType) (held : HeldCols) : Prop where
  types_eq : held.cols.map ColumnVector.type = types
  holds : ∀ column ∈ held.cols, column.Holds held.seq.length

private theorem at_rowAt (held : HeldCols) (i c : Nat) :
    Row.at (held.rowAt i) c = (held.col c).get i :=
  ColumnVector.at_gets held.cols i c

private theorem length_toHeld (held : HeldCols) : held.toHeld.rows.length = held.seq.length := by
  rw [toHeld, List.length_map, List.length_range]

@[simp] theorem seq_toHeld (held : HeldCols) : held.toHeld.seq = held.seq := rfl

@[simp] theorem order_toHeld (held : HeldCols) : held.toHeld.order = held.order := rfl

private theorem row_toHeld (inside : i < held.seq.length) : held.toHeld.row i = held.rowAt i := by
  unfold toHeld Held.row
  rw [List.getD_eq_getElem?_getD, List.getElem?_map, List.getElem?_range inside]
  rfl

/-- Columns that were changed one by one, read as rows. -/
theorem gets_zipIdx {cols sources : List ColumnVector} (f : ColumnVector → Nat → ColumnVector)
    {old new : Nat} (chosen : Prop) [Decidable chosen] (length : cols.length = sources.length)
    (each : ∀ c (inside : c < cols.length) (inside' : c < sources.length),
      (f cols[c] c).get old = if chosen then sources[c].get new else cols[c].get old) :
    (cols.zipIdx.map fun (column, c) => f column c).map (fun column => column.get old) =
      if chosen then sources.map fun column => column.get new
      else cols.map fun column => column.get old := by
  refine List.ext_getElem ?_ fun c inside inside' => ?_
  · split <;> simp [length]
  · simp only [List.length_map, List.length_zipIdx] at inside
    have read := each c inside (length ▸ inside)
    split at read <;> rename_i chosen <;> simpa [chosen] using read

/-- A batch has the columns that are held. -/
theorem same_types {cols sources : List ColumnVector}
    (same : sources.map ColumnVector.type = cols.map ColumnVector.type) :
    cols.length = sources.length ∧ ∀ c (inside : c < cols.length) (inside' : c < sources.length),
      cols[c].type = sources[c].type := by
  have length := congrArg List.length same
  simp only [List.length_map] at length
  refine ⟨length.symm, fun c inside inside' => ?_⟩
  have at_ := congrArg (fun types => types[c]?) same
  simp only [List.getElem?_map, List.getElem?_eq_getElem inside, List.getElem?_eq_getElem inside',
    Option.map_some, Option.some.injEq] at at_
  exact at_.symm

theorem Sized.rowAt_hold (sized : Sized types held) (typed : batch.cols.map ColumnVector.type = types)
    (k : Nat) :
    (held.hold batch i).rowAt k = if k = held.seq.length then batch.getRow i else held.rowAt k := by
  obtain ⟨length, same⟩ := same_types (typed.trans sized.types_eq.symm)
  refine gets_zipIdx (fun column c => column.pushFrom (batch.col c) i) (k = held.seq.length) length
    fun c inside inside' => ?_
  have col : batch.col c = batch.cols[c] := by
    rw [Batch.col, List.getD_eq_getElem?_getD, List.getElem?_eq_getElem inside']
    rfl
  rw [col, ColumnVector.get_pushFrom (sized.holds _ (List.getElem_mem inside))
    (same c inside inside')]

private theorem Sized.rowAt_copyRow (sized : Sized types held) {sources : List ColumnVector}
    {source : Nat → ColumnVector} (found : ∀ c, source c = sources.getD c {})
    (typed : sources.map ColumnVector.type = types) (inside : r < held.seq.length) (k : Nat) :
    (held.copyRow r source i).rowAt k =
      if r = k then sources.map fun column => column.get i else held.rowAt k := by
  obtain ⟨length, same⟩ := same_types (typed.trans sized.types_eq.symm)
  refine gets_zipIdx (fun column c => column.copyFrom r (source c) i) (r = k) length
    fun c below below' => ?_
  have col : source c = sources[c] := by
    rw [found, List.getD_eq_getElem?_getD, List.getElem?_eq_getElem below']
    rfl
  rw [col, ColumnVector.get_copyFrom ((sized.holds _ (List.getElem_mem below)).has inside)
    (same c below below')]

private theorem types_hold (held : HeldCols) (batch : Batch) (i : Nat) :
    (held.hold batch i).cols.map ColumnVector.type = held.cols.map ColumnVector.type := by
  refine List.ext_getElem (by simp [hold]) fun c inside inside' => ?_
  simp [hold]

/-- One more row of a batch, with its place in the input. -/
def append (held : HeldCols) (batch : Batch) (i seq : Nat) : HeldCols :=
  { held.hold batch i with seq := held.seq ++ [seq] }

theorem Sized.append (sized : Sized types held) (batch : Batch) (i seq : Nat) :
    Sized types (held.append batch i seq) := by
  refine ⟨(types_hold held batch i).trans sized.types_eq, fun column member => ?_⟩
  obtain ⟨⟨before, c⟩, here, rfl⟩ := List.mem_map.mp member
  have holds : (before.pushFrom (batch.col c) i).Holds (held.seq.length + 1) :=
    (sized.holds before (List.fst_mem_of_mem_zipIdx here)).pushFrom
  rw [HeldCols.append, List.length_append]
  exact holds

private theorem Sized.toHeld_append (sized : Sized types held)
    (typed : batch.cols.map ColumnVector.type = types) (i seq : Nat) :
    (held.append batch i seq).toHeld =
      ⟨held.toHeld.rows ++ [batch.getRow i], held.seq ++ [seq], held.order⟩ := by
  have rows : (List.range (held.seq ++ [seq]).length).map (held.hold batch i).rowAt =
      held.toHeld.rows ++ [batch.getRow i] := by
    rw [List.length_append, List.length_singleton, List.range_succ, List.map_append,
      List.map_singleton, sized.rowAt_hold typed, if_pos rfl]
    refine congrArg (· ++ [batch.getRow i]) (List.map_congr_left fun k inside => ?_)
    rw [sized.rowAt_hold typed, if_neg (Nat.ne_of_lt (List.mem_range.mp inside))]
  exact congrArg (fun rows => (⟨rows, held.seq ++ [seq], held.order⟩ : Held)) rows

/-- A row of other columns written over row `r`, with its place in the input. -/
def write (held : HeldCols) (r : Nat) (source : Nat → ColumnVector) (i seq : Nat) : HeldCols :=
  { held.copyRow r source i with seq := held.seq.set r seq }

theorem Sized.write (sized : Sized types held) (r : Nat) (source : Nat → ColumnVector)
    (i seq : Nat) : Sized types (held.write r source i seq) := by
  refine ⟨?_, fun column member => ?_⟩
  · rw [← sized.types_eq]
    refine List.ext_getElem (by simp [HeldCols.write, copyRow]) fun c inside inside' => ?_
    simp [HeldCols.write, copyRow]
  · obtain ⟨⟨before, c⟩, here, rfl⟩ := List.mem_map.mp member
    rw [HeldCols.write, List.length_set]
    exact (sized.holds before (List.fst_mem_of_mem_zipIdx here)).copyFrom

private theorem Sized.toHeld_write (sized : Sized types held) {sources : List ColumnVector}
    {source : Nat → ColumnVector} (found : ∀ c, source c = sources.getD c {})
    (typed : sources.map ColumnVector.type = types) (inside : r < held.seq.length) (i seq : Nat) :
    (held.write r source i seq).toHeld =
      ⟨held.toHeld.rows.set r (sources.map fun column => column.get i), held.seq.set r seq,
        held.order⟩ := by
  have rows : (List.range (held.seq.set r seq).length).map (held.copyRow r source i).rowAt =
      held.toHeld.rows.set r (sources.map fun column => column.get i) := by
    refine List.ext_getElem (by simp [toHeld]) fun k below below' => ?_
    rw [List.getElem_map, List.getElem_range, sized.rowAt_copyRow found typed inside,
      List.getElem_set]
    simp only [toHeld, List.getElem_map, List.getElem_range]
  exact congrArg (fun rows => (⟨rows, held.seq.set r seq, held.order⟩ : Held)) rows

end HeldCols

namespace SortOp

variable {sort : SortOp} {types : List ColType} {held : HeldCols} {batch : Batch}
  {items : List (Row × Nat)} {i n : Nat}

private theorem prefixOfCols_eq {cols : Nat → ColumnVector} {row : Row}
    (same : ∀ c, Row.at row c = (cols c).get i) : sort.prefixOfCols cols i = sort.prefixOf row := by
  unfold prefixOfCols prefixOf
  cases sort.keys with
  | nil => rfl
  | cons key rest =>
    dsimp only
    rw [same, ColumnVector.isNull_get]
    cases null : (cols key.col).nullAt i with
    | true => rfl
    | false => rw [ColumnVector.orderKeyAt_eq null]

private theorem prefixOfCols_rowAt (held : HeldCols) (i : Nat) :
    sort.prefixOfCols held.col i = sort.prefixOf (held.rowAt i) :=
  prefixOfCols_eq (held.at_rowAt i)

private theorem prefixOfCols_getRow (batch : Batch) (i : Nat) :
    sort.prefixOfCols batch.col i = sort.prefixOf (batch.getRow i) :=
  prefixOfCols_eq (ColumnVector.at_gets batch.cols i)

private theorem beforeCols_eq (held : HeldCols) (a b : Nat) (keys : List SortKey) :
    beforeCols held a b keys =
      before (held.rowAt a) (held.rowAt b) (held.seqAt a) (held.seqAt b) keys := by
  induction keys with
  | nil => rfl
  | cons key rest ih =>
    rw [beforeCols, before, ih, held.at_rowAt, held.at_rowAt, ColumnVector.isNull_get,
      ColumnVector.isNull_get]
    dsimp only
    cases left : (held.col key.col).nullAt a with
    | true => rfl
    | false =>
      cases right : (held.col key.col).nullAt b with
      | true => rfl
      | false => rw [ColumnVector.compareAt_eq left right]

/-- What a row number stands for is the same in both. -/
def Agrees (held : HeldCols) (held' : Held) (number : Nat) : Prop :=
  held'.row number = held.rowAt number ∧ held'.seqAt number = held.seqAt number

private theorem agrees_toHeld (inside : i < held.seq.length) : Agrees held held.toHeld i :=
  ⟨HeldCols.row_toHeld inside, rfl⟩

private theorem entryBeforeCols_eq {held' : Held} {a b : Entry} (left : Agrees held held' a.row)
    (right : Agrees held held' b.row) :
    sort.entryBeforeCols held a b = sort.entryBefore held' a b := by
  unfold entryBeforeCols entryBefore
  rw [beforeCols_eq, left.1, left.2, right.1, right.2]

private theorem place_cols (sort : SortOp) {held' : Held} (entry : Entry) (order : List Entry)
    (new : Agrees held held' entry.row) (others : ∀ other ∈ order, Agrees held held' other.row) :
    place (sort.entryBeforeCols held) entry order = place (sort.entryBefore held') entry order := by
  have same := @map_place _ _ (sort.entryBeforeCols held) entry (sort.entryBefore held') id order
    fun other here => entryBeforeCols_eq new (others other here)
  rwa [List.map_id, List.map_id] at same

/-- A full sort that holds columns holds what one that holds rows does. -/
theorem holdRow_holdAll {rows : List Row} (sized : HeldCols.Sized types held)
    (typed : batch.cols.map ColumnVector.type = types) (same : held.toHeld = sort.holdAll rows) :
    HeldCols.Sized types (sort.holdRow held batch i) ∧
      (sort.holdRow held batch i).toHeld = sort.holdAll (rows ++ [batch.getRow i]) := by
  have rowsSame : held.toHeld.rows = rows := congrArg Held.rows same
  have seqSame : held.seq = List.range rows.length := congrArg Held.seq same
  have orderSame : held.order = (sort.holdAll rows).order := congrArg Held.order same
  have length : held.seq.length = rows.length := by rw [seqSame, List.length_range]
  have added := sized.append batch i held.seq.length
  have grown := sized.toHeld_append typed i held.seq.length
  have code : sort.prefixOfCols (held.hold batch i).col held.seq.length =
      sort.prefixOf (batch.getRow i) := by
    rw [prefixOfCols_rowAt, sized.rowAt_hold typed, if_pos rfl]
  refine ⟨⟨added.types_eq, added.holds⟩, ?_⟩
  have rowsGrown := congrArg Held.rows grown
  have held' : (sort.holdRow held batch i).toHeld =
      ⟨held.toHeld.rows ++ [batch.getRow i], held.seq ++ [held.seq.length],
        held.order ++ [⟨sort.prefixOf (batch.getRow i), held.seq.length⟩]⟩ := by
    rw [← code]
    exact congrArg (fun rows => (⟨rows, _, _⟩ : Held)) rowsGrown
  rw [held', rowsSame, orderSame, seqSame, List.length_range, ← List.range_succ]
  simp only [holdAll, List.zipIdx_append, List.map_append, List.length_append,
    List.length_singleton, List.zipIdx_singleton, List.map_singleton, Nat.zero_add]

/-- What the columns hold after a row was appended, with or without a scratch row after it. -/
theorem grown_cols (sized : HeldCols.Sized types held)
    (typed : batch.cols.map ColumnVector.type = types) (keeps : sort.Keeps n held.toHeld items)
    (room : held.order.length < n) {seq : Nat} (spareRows : List Row) (spareSeqs : List Nat)
    (rowsLength : spareRows.length = if held.order.length + 1 = n then 1 else 0)
    (seqsLength : spareSeqs.length = if held.order.length + 1 = n then 1 else 0)
    {grown : HeldCols}
    (grownRows : grown.toHeld.rows = held.toHeld.rows ++ [batch.getRow i] ++ spareRows)
    (grownSeq : grown.seq = held.seq ++ [seq] ++ spareSeqs)
    (order : grown.order = place (sort.entryBeforeCols (held.append batch i seq))
      ⟨sort.prefixOfCols (held.append batch i seq).col held.seq.length, held.seq.length⟩
      held.order) :
    sort.Keeps n grown.toHeld (place sort.itemBefore (batch.getRow i, seq) items) := by
  have seqs := keeps.seq_length
  rw [HeldCols.seq_toHeld, HeldCols.order_toHeld, if_neg (Nat.ne_of_lt room), Nat.add_zero] at seqs
  have added := sized.toHeld_append typed i seq
  have length : (held.append batch i seq).seq.length = held.seq.length + 1 := List.length_append
  have code : sort.prefixOfCols (held.append batch i seq).col held.seq.length =
      sort.prefixOf (batch.getRow i) := by
    rw [prefixOfCols_rowAt]
    exact congrArg sort.prefixOf ((sized.rowAt_hold typed _).trans (if_pos rfl))
  have agrees : ∀ number ≤ held.seq.length,
      Agrees (held.append batch i seq) grown.toHeld number := by
    intro number inside
    have below := held.length_toHeld
    rw [Agrees, ← HeldCols.row_toHeld (by omega), added, Held.row, Held.row, grownRows, Held.seqAt,
      HeldCols.seq_toHeld, grownSeq, HeldCols.seqAt]
    refine ⟨List.getD_append _ _ _ _ ?_, List.getD_append _ _ _ _ ?_⟩
    · rw [List.length_append, List.length_singleton]
      omega
    · rw [List.length_append, List.length_singleton]
      omega
  have kept := grown_keeps keeps room (batch.getRow i) seq rowsLength seqsLength grownRows grownSeq
  have placed := place_cols sort ⟨sort.prefixOf (batch.getRow i), held.seq.length⟩ held.order
    (agrees _ (Nat.le_refl _))
    fun other here => agrees other.row (by
      have inside := keeps.inside other here
      rw [HeldCols.order_toHeld] at inside
      omega)
  rw [code, placed] at order
  rw [held.length_toHeld, HeldCols.order_toHeld, ← order] at kept
  exact kept

private theorem offerCols_room (sized : HeldCols.Sized types held)
    (typed : batch.cols.map ColumnVector.type = types) (keeps : sort.Keeps n held.toHeld items)
    (room : held.order.length < n) (seq : Nat) :
    HeldCols.Sized types (sort.offerCols n held batch i seq) ∧
      sort.Keeps n (sort.offerCols n held batch i seq).toHeld
        (place sort.itemBefore (batch.getRow i, seq) items) := by
  have positive : n ≠ 0 := Nat.ne_of_gt (Nat.lt_of_le_of_lt (Nat.zero_le _) room)
  have sizedOnce : HeldCols.Sized types (held.append batch i seq) := sized.append batch i seq
  have rowsOnce := congrArg Held.rows (sized.toHeld_append typed i seq)
  have count : (place (sort.entryBeforeCols (held.append batch i seq))
      ⟨sort.prefixOfCols (held.append batch i seq).col held.seq.length, held.seq.length⟩
      held.order).length = held.order.length + 1 := place_length _ _ _
  unfold offerCols
  rw [if_neg positive, if_pos room]
  dsimp only
  split
  · rename_i full
    have last : held.order.length + 1 = n := count.symm.trans full
    have sizedTwice := sizedOnce.append batch i 0
    have rowsTwice := congrArg Held.rows (sizedOnce.toHeld_append typed i 0)
    refine ⟨⟨sizedTwice.types_eq, sizedTwice.holds⟩,
      grown_cols sized typed keeps room [batch.getRow i] [0] ?_ ?_ ?_ rfl rfl⟩
    · rw [if_pos last]
      rfl
    · rw [if_pos last]
      rfl
    · exact rowsTwice.trans (congrArg (· ++ [batch.getRow i]) rowsOnce)
  · rename_i space
    have more : ¬ held.order.length + 1 = n := fun last => space (count.trans last)
    refine ⟨⟨sizedOnce.types_eq, sizedOnce.holds⟩,
      grown_cols sized typed keeps room [] [] ?_ ?_ ?_ ?_ rfl⟩
    · rw [if_neg more]
      rfl
    · rw [if_neg more]
      rfl
    · rw [List.append_nil]
      exact rowsOnce
    · rw [List.append_nil]
      rfl

/-- A row whose code comes after the worst one's is not better than the worst. -/
theorem itemBefore_of_code {a b : Row × Nat} (less : sort.prefixOf b.1 < sort.prefixOf a.1) :
    sort.itemBefore a b = false := by
  have different : sort.prefixOf a.1 ≠ sort.prefixOf b.1 := (UInt64.ne_of_lt less).symm
  unfold itemBefore
  rw [if_pos different]
  exact decide_eq_false (UInt64.lt_asymm less)

/-- The row in the scratch place is copied over the worst one. -/
theorem replaceCols_keeps (sized : HeldCols.Sized types held)
    (keeps : sort.Keeps n held.toHeld items) (full : held.order.length = n) {front : List Entry}
    {worst : Entry} (split : held.order = front ++ [worst]) {row : Row}
    (written : held.toHeld.row n = row) (seq : Nat) :
    HeldCols.Sized types (sort.replaceCols n held (sort.prefixOf row) worst seq) ∧
      sort.Keeps n (sort.replaceCols n held (sort.prefixOf row) worst seq).toHeld
        (place sort.itemBefore (row, seq) items.dropLast) := by
  have seqs := keeps.seq_length
  rw [HeldCols.seq_toHeld, HeldCols.order_toHeld, if_pos full, full] at seqs
  have worstIn : worst ∈ held.order := split ▸ List.mem_append_right _ List.mem_cons_self
  have worstInside : worst.row < n := full ▸ keeps.inside worst worstIn
  have rowsHeld := held.length_toHeld
  let copied := held.write worst.row held.col n seq
  have copiedSized : HeldCols.Sized types copied := sized.write worst.row held.col n seq
  have length : copied.seq.length = held.seq.length := List.length_set
  have copiedHeld : copied.toHeld =
      ⟨held.toHeld.rows.set worst.row row, held.seq.set worst.row seq, held.order⟩ := by
    have wrote := sized.toHeld_write (fun c => rfl) sized.types_eq
      (show worst.row < held.seq.length by omega) n seq
    rwa [show (held.cols.map fun column => column.get n) = row from
      (HeldCols.row_toHeld (by omega)).symm.trans written] at wrote
  have rowsLength : copied.toHeld.rows.length = held.toHeld.rows.length := by
    rw [copiedHeld, List.length_set]
  have same : ∀ number < n, number ≠ worst.row →
      copied.toHeld.row number = held.toHeld.row number ∧
        copied.toHeld.seqAt number = held.toHeld.seqAt number := by
    intro number _ other
    simp only [copiedHeld, Held.row, Held.seqAt, getD_set, Ne.symm other, false_and, if_false,
      HeldCols.seq_toHeld, and_self]
  have new : copied.toHeld.row worst.row = row ∧ copied.toHeld.seqAt worst.row = seq := by
    simp only [copiedHeld, Held.row, Held.seqAt]
    rw [getD_set, if_pos ⟨rfl, by omega⟩, getD_set, if_pos ⟨rfl, by omega⟩]
    exact ⟨rfl, rfl⟩
  have kept := swapped_keeps keeps full split rowsLength length same new
  have placed := place_cols sort ⟨sort.prefixOf row, worst.row⟩ front
    (@agrees_toHeld copied worst.row (by omega))
    fun other here => agrees_toHeld (by
      have member : other ∈ held.order := split ▸ List.mem_append_left _ here
      have inside : other.row < held.order.length := keeps.inside other member
      omega)
  have dropped : held.order.dropLast = front := by rw [split, List.dropLast_concat]
  rw [← placed, ← dropped] at kept
  exact ⟨⟨copiedSized.types_eq, copiedSized.holds⟩, kept⟩

/-- A row that was not turned away lies in the scratch place; the worst one goes where the row
is better. -/
theorem written_keeps (sized : HeldCols.Sized types held)
    (typed : batch.cols.map ColumnVector.type = types) (keeps : sort.Keeps n held.toHeld items)
    (full : held.order.length = n) {front : List Entry} {worst : Entry}
    (split : held.order = front ++ [worst]) (seq : Nat) :
    let written := held.write n batch.col i seq
    let code := sort.prefixOf (batch.getRow i)
    let after :=
      if sort.entryBeforeCols written ⟨code, n⟩ worst then sort.replaceCols n written code worst seq
      else written
    HeldCols.Sized types after ∧
      sort.Keeps n after.toHeld
        (if sort.itemBefore (batch.getRow i, seq) (held.toHeld.item worst) then
          place sort.itemBefore (batch.getRow i, seq) items.dropLast
        else items) := by
  intro written code after
  have seqs := keeps.seq_length
  rw [HeldCols.seq_toHeld, HeldCols.order_toHeld, if_pos full, full] at seqs
  have rowsHeld := held.length_toHeld
  have worstIn : worst ∈ held.order := split ▸ List.mem_append_right _ List.mem_cons_self
  have worstInside : worst.row < n := full ▸ keeps.inside worst worstIn
  have writtenSized : HeldCols.Sized types written := sized.write n batch.col i seq
  have writtenHeld : written.toHeld = scratch n held.toHeld (batch.getRow i) seq :=
    sized.toHeld_write (fun c => rfl) typed (by omega) i seq
  have kept : sort.Keeps n written.toHeld items :=
    writtenHeld ▸ scratch_keeps keeps full (batch.getRow i) seq
  have length : written.seq.length = n + 1 := by
    rw [← seqs]
    exact List.length_set
  have scratchInside : n < written.seq.length := by omega
  have swapInside : worst.row < written.seq.length := by omega
  have newItem : written.toHeld.item ⟨code, n⟩ = (batch.getRow i, seq) := by
    simp only [writtenHeld, scratch, Held.item, Held.row, Held.seqAt, HeldCols.seq_toHeld]
    rw [getD_set, if_pos ⟨rfl, by omega⟩, getD_set, if_pos ⟨rfl, by omega⟩]
  have newRow : written.toHeld.row n = batch.getRow i := congrArg Prod.fst newItem
  have coded : sort.Coded written.toHeld ⟨code, n⟩ := congrArg sort.prefixOf newRow.symm
  have worstItem : written.toHeld.item worst = held.toHeld.item worst := by
    have elsewhere : n ≠ worst.row := by omega
    simp only [writtenHeld, scratch, Held.item, Held.row, Held.seqAt, getD_set, elsewhere, false_and,
      if_false]
  have decides : sort.entryBeforeCols written ⟨code, n⟩ worst =
      sort.itemBefore (batch.getRow i, seq) (held.toHeld.item worst) := by
    rw [entryBeforeCols_eq (agrees_toHeld scratchInside) (agrees_toHeld swapInside),
      entryBefore_eq coded (kept.coded worst worstIn), newItem, worstItem]
  have result : after =
      if sort.itemBefore (batch.getRow i, seq) (held.toHeld.item worst) then
        sort.replaceCols n written code worst seq
      else written := by rw [← decides]
  rw [result]
  split
  · exact replaceCols_keeps writtenSized kept full split newRow seq
  · exact ⟨writtenSized, kept⟩

private theorem offerCols_full (sized : HeldCols.Sized types held)
    (typed : batch.cols.map ColumnVector.type = types) (keeps : sort.Keeps n held.toHeld items)
    (positive : n ≠ 0) (full : held.order.length = n) (seq : Nat) :
    HeldCols.Sized types (sort.offerCols n held batch i seq) ∧
      sort.Keeps n (sort.offerCols n held batch i seq).toHeld
        (keepBest sort.itemBefore n items (batch.getRow i, seq)) := by
  have seqs := keeps.seq_length
  rw [HeldCols.seq_toHeld, HeldCols.order_toHeld, if_pos full, full] at seqs
  have count : items.length = n := by
    rw [← keeps.items_eq, List.length_map, HeldCols.order_toHeld, full]
  have last : items.getLast? = held.order.getLast?.map held.toHeld.item := by
    rw [← keeps.items_eq, List.getLast?_map, HeldCols.order_toHeld]
  have rowsHeld := held.length_toHeld
  unfold offerCols keepBest
  rw [if_neg positive, if_neg positive, if_neg (Nat.not_lt.mpr (Nat.le_of_eq full.symm)),
    if_neg (Nat.not_lt.mpr (Nat.le_of_eq count.symm)), last]
  cases found : held.order.getLast? with
  | none => exact ⟨sized, keeps⟩
  | some worst =>
    obtain ⟨front, split_⟩ := List.getLast?_eq_some_iff.mp found
    have worstIn : worst ∈ held.order := List.mem_of_getLast? found
    have worstCode : worst.code = sort.prefixOf (held.toHeld.row worst.row) :=
      keeps.coded worst worstIn
    rw [Option.map_some]
    dsimp only
    rw [prefixOfCols_getRow]
    split
    · rename_i after
      have notBefore : sort.itemBefore (batch.getRow i, seq) (held.toHeld.item worst) = false :=
        itemBefore_of_code (worstCode ▸ after)
      rw [if_neg (by rw [notBefore]; exact Bool.false_ne_true)]
      exact ⟨sized, keeps⟩
    · exact written_keeps sized typed keeps full split_ seq

private theorem offerCols_keeps (sized : HeldCols.Sized types held)
    (typed : batch.cols.map ColumnVector.type = types) (keeps : sort.Keeps n held.toHeld items)
    (positive : n ≠ 0) (few : items.length ≤ n) (seq : Nat) :
    HeldCols.Sized types (sort.offerCols n held batch i seq) ∧
      sort.Keeps n (sort.offerCols n held batch i seq).toHeld
        (keepBest sort.itemBefore n items (batch.getRow i, seq)) := by
  have count : items.length = held.order.length := by
    rw [← keeps.items_eq, List.length_map, HeldCols.order_toHeld]
  by_cases full : held.order.length = n
  · exact offerCols_full sized typed keeps positive full seq
  · have room : held.order.length < n := Nat.lt_of_le_of_ne (count ▸ few) full
    unfold keepBest
    rw [if_neg positive, if_pos (by omega)]
    exact offerCols_room sized typed keeps room seq

/-- The rows of the live positions. -/
def liveRow (position : Batch × Nat) : Row := position.1.getRow position.2

private theorem liveOf_rows (batches : List Batch) :
    (liveOf batches).map liveRow = batches.flatMap Batch.rows := by
  rw [liveOf, List.map_flatMap]
  refine List.flatMap_congr fun batch _ => ?_
  rw [List.map_map]
  rfl

private theorem typed_liveOf {batches : List Batch}
    (typed : ∀ batch ∈ batches, batch.cols.map ColumnVector.type = types) :
    ∀ position ∈ liveOf batches, position.1.cols.map ColumnVector.type = types := by
  intro position member
  obtain ⟨batch, here, inside⟩ := List.mem_flatMap.mp member
  obtain ⟨_, _, rfl⟩ := List.mem_map.mp inside
  exact typed batch here

private theorem foldl_holdRow {rows : List Row} {live : List (Batch × Nat)}
    (typed : ∀ position ∈ live, position.1.cols.map ColumnVector.type = types)
    (sized : HeldCols.Sized types held) (same : held.toHeld = sort.holdAll rows) :
    HeldCols.Sized types (live.foldl (fun held (batch, i) => sort.holdRow held batch i) held) ∧
      (live.foldl (fun held (batch, i) => sort.holdRow held batch i) held).toHeld =
        sort.holdAll (rows ++ live.map liveRow) := by
  induction live generalizing held rows with
  | nil => exact ⟨sized, by rw [List.map_nil, List.append_nil]; exact same⟩
  | cons first rest ih =>
    obtain ⟨sizedAfter, sameAfter⟩ :=
      holdRow_holdAll (i := first.2) sized (typed first List.mem_cons_self) same
    have later := ih (fun position here => typed position (List.mem_cons_of_mem _ here)) sizedAfter
      sameAfter
    rw [List.append_assoc] at later
    exact later

private theorem foldl_offerCols {live : List ((Batch × Nat) × Nat)} (positive : n ≠ 0)
    (typed : ∀ position ∈ live, position.1.1.cols.map ColumnVector.type = types)
    (sized : HeldCols.Sized types held) (keeps : sort.Keeps n held.toHeld items)
    (few : items.length ≤ n) :
    HeldCols.Sized types
        (live.foldl (fun held ((batch, i), seq) => sort.offerCols n held batch i seq) held) ∧
      sort.Keeps n
        (live.foldl (fun held ((batch, i), seq) => sort.offerCols n held batch i seq) held).toHeld
        ((live.map fun (position, seq) => (liveRow position, seq)).foldl
          (keepBest sort.itemBefore n) items) := by
  induction live generalizing held items with
  | nil => exact ⟨sized, keeps⟩
  | cons first rest ih =>
    obtain ⟨sizedAfter, keepsAfter⟩ :=
      offerCols_keeps (i := first.1.2) sized (typed first List.mem_cons_self) keeps positive few
        first.2
    exact ih (fun position here => typed position (List.mem_cons_of_mem _ here)) sizedAfter
      keepsAfter (keepBest_length _ _ few)

private theorem foldl_offerCols_zero (live : List ((Batch × Nat) × Nat)) (held : HeldCols) :
    live.foldl (fun held ((batch, i), seq) => sort.offerCols 0 held batch i seq) held = held := by
  induction live generalizing held with
  | nil => rfl
  | cons first rest ih => exact ih held

/-- Nothing is held. -/
theorem sized_empty (types : List ColType) :
    HeldCols.Sized types { cols := types.map fun type => { type } } := by
  refine ⟨?_, fun column member => ?_⟩
  · rw [List.map_map]
    exact List.map_id types
  · obtain ⟨type, _, rfl⟩ := List.mem_map.mp member
    exact ⟨rfl, by cases type <;> rfl⟩

/-- What is held once the input has been read, not yet in order. -/
def gathered (sort : SortOp) (types : List ColType) (batches : List Batch) : HeldCols :=
  match sort.limit with
  | none =>
    (liveOf batches).foldl (fun held (batch, i) => sort.holdRow held batch i)
      { cols := types.map fun type => { type } }
  | some n =>
    (liveOf batches).zipIdx.foldl (fun held ((batch, i), seq) => sort.offerCols n held batch i seq)
      { cols := types.map fun type => { type } }

private theorem holdBatches_eq (sort : SortOp) (types : List ColType) (batches : List Batch) :
    sort.holdBatches types batches =
      { sort.gathered types batches with
        order := sorted (sort.entryBeforeCols (sort.gathered types batches))
          (sort.gathered types batches).order } := by
  unfold holdBatches gathered
  cases sort.limit <;> rfl

/-- The entries stand for the items that a sort of rows holds. -/
structure Stands (sort : SortOp) (types : List ColType) (held : HeldCols)
    (items : List (Row × Nat)) : Prop where
  sized : HeldCols.Sized types held
  items_eq : held.order.map held.toHeld.item = items
  coded : ∀ entry ∈ held.order, sort.Coded held.toHeld entry
  inside : ∀ entry ∈ held.order, entry.row < held.seq.length

private theorem gathered_stands {batches : List Batch}
    (typed : ∀ batch ∈ batches, batch.cols.map ColumnVector.type = types) :
    sort.Stands types (sort.gathered types batches) (sort.kept (batches.flatMap Batch.rows)) := by
  have live := typed_liveOf typed
  unfold gathered kept
  rw [← liveOf_rows]
  cases sort.limit with
  | none =>
    obtain ⟨sized, same⟩ := @foldl_holdRow sort types _ [] _ live (sized_empty types) rfl
    obtain ⟨items, coded⟩ := holdAll_items sort ((liveOf batches).map liveRow)
    rw [List.nil_append] at same
    have order := congrArg Held.order same
    have seqs := congrArg Held.seq same
    rw [HeldCols.order_toHeld] at order
    rw [HeldCols.seq_toHeld] at seqs
    refine ⟨sized, ?_, ?_, ?_⟩
    · rw [order, same, items]
    · rw [order, same]
      exact coded
    · rw [order, seqs]
      intro entry member
      obtain ⟨⟨row, number⟩, here, rfl⟩ := List.mem_map.mp member
      have found := List.mem_zipIdx_iff_getElem?.mp here
      simpa [holdAll] using (List.getElem?_eq_some_iff.mp found).1
  | some n =>
    dsimp only
    rw [List.zipIdx_map]
    by_cases zero : n = 0
    · subst zero
      rw [foldl_offerCols_zero, foldl_keepBest_zero]
      exact ⟨sized_empty types, rfl, fun _ here => absurd here List.not_mem_nil,
        fun _ here => absurd here List.not_mem_nil⟩
    · obtain ⟨sized, keeps⟩ := @foldl_offerCols sort types _ [] n (liveOf batches).zipIdx zero
        (fun position here => live position.1 (List.fst_mem_of_mem_zipIdx here)) (sized_empty types)
        (empty_keeps zero) (Nat.zero_le n)
      refine ⟨sized, keeps.items_eq, keeps.coded, fun entry here => ?_⟩
      exact Nat.lt_of_lt_of_le (keeps.inside entry here)
        (Nat.le_trans (Nat.le_add_right _ _) (Nat.le_of_eq keeps.seq_length.symm))

/-- The entries in order stand for the rows in a stable order of the keys, or the first of
them. -/
theorem holdBatches_order {batches : List Batch}
    (typed : ∀ batch ∈ batches, batch.cols.map ColumnVector.type = types)
    (sortable : Sortable sort.keys (batches.flatMap Batch.rows)) :
    HeldCols.Sized types (sort.holdBatches types batches) ∧
      ((sort.holdBatches types batches).order.map fun entry =>
          (sort.holdBatches types batches).rowAt entry.row) =
        stableRows sort.keys sort.limit (batches.flatMap Batch.rows) := by
  have stands := @gathered_stands sort types batches typed
  rw [holdBatches_eq, ← sorted_kept sortable]
  refine ⟨⟨stands.sized.types_eq, stands.sized.holds⟩, ?_⟩
  have same := @map_sorted _ _ (sort.entryBeforeCols (sort.gathered types batches))
    (sort.entryBefore (sort.gathered types batches).toHeld) id _ fun a aIn b bIn =>
      entryBeforeCols_eq (agrees_toHeld (stands.inside a aIn)) (agrees_toHeld (stands.inside b bIn))
  rw [List.map_id, List.map_id] at same
  have rows := @ordered_of_items sort (sort.gathered types batches).toHeld stands.coded
  rw [HeldCols.order_toHeld, stands.items_eq, ← same] at rows
  rw [← rows]
  refine List.map_congr_left fun entry member => ?_
  exact (HeldCols.row_toHeld
    (stands.inside entry ((List.mergeSort_perm _ _).mem_iff.mp member))).symm

/-- A batch that is handed out holds the rows of the next entries. -/
theorem produceBatch_rows (sized : HeldCols.Sized types held) {left : List Entry}
    (more : left ≠ []) (batchRows : Nat) (out : Batch) (max : Nat) :
    ∃ batch, produceBatch types batchRows held left out max =
        some (batch, left.drop (min (min max batchRows) left.length)) ∧
      batch.rows = (left.take (min (min max batchRows) left.length)).map fun entry =>
        held.rowAt entry.row := by
  unfold produceBatch
  rw [if_neg more]
  refine ⟨_, rfl, ?_⟩
  generalize count : min (min max batchRows) left.length = n
  have idxLength : ((left.take n).map Entry.row).length = n := by
    rw [List.length_map, List.length_take]
    omega
  have formatted : ((out.format types n).cols.map ColumnVector.type) = types := by
    refine List.ext_getElem (by simp [Batch.format]) fun c inside inside' => ?_
    simp [Batch.format]
  obtain ⟨length, same⟩ := HeldCols.same_types (sized.types_eq.trans formatted.symm)
  have rows : ∀ k < n, ((out.format types n).cols.zipIdx.map fun (column, c) =>
      column.gather (held.col c) ((left.take n).map Entry.row)).map (fun column => column.get k) =
        held.rowAt (((left.take n).map Entry.row).getD k 0) := by
    intro k inside
    refine (HeldCols.gets_zipIdx
      (fun column c => column.gather (held.col c) ((left.take n).map Entry.row)) True length
      fun c below below' => ?_).trans (if_pos trivial)
    have col : held.col c = held.cols[c] := by
      rw [HeldCols.col, List.getD_eq_getElem?_getD, List.getElem?_eq_getElem below']
      rfl
    have room : ∀ i < ((left.take n).map Entry.row).length,
        ((out.format types n).cols[c]).Has i := by
      intro i small
      simp only [Batch.format, List.getElem_map]
      exact ColumnVector.has_format _ (idxLength ▸ small)
    rw [if_pos trivial, col, ColumnVector.get_gather room (same c below below') (by omega)]
  refine List.ext_getElem ?_ fun k below below' => ?_
  · simp [Batch.rows, Batch.liveRows, Batch.count, Batch.format, ← count]
  · have inside : k < n := by
      rw [List.length_map, List.length_take] at below'
      omega
    have inside' : k < (left.take n).length := by rwa [List.length_map] at below'
    have number : ((left.take n).map Entry.row).getD k 0 = (left.take n)[k].row := by
      rw [List.getD_eq_getElem?_getD, List.getElem?_eq_getElem (idxLength.symm ▸ inside),
        Option.getD_some, List.getElem_map]
    rw [List.getElem_map, ← number, ← rows k inside]
    simp [Batch.rows, Batch.liveRows, Batch.row, Batch.getRow, Batch.format]

/-- Enough calls hand out everything that is left. -/
theorem drainBatches_rows (sized : HeldCols.Sized types held) {batchRows : Nat}
    (positive : 1 ≤ batchRows) {calls : List (Batch × Nat)} (budgets : ∀ call ∈ calls, 1 ≤ call.2)
    {left : List Entry} (enough : left.length ≤ calls.length) :
    (drainBatches types batchRows held left calls).flatMap Batch.rows =
      left.map fun entry => held.rowAt entry.row := by
  induction calls generalizing left with
  | nil =>
    cases List.length_eq_zero_iff.mp (Nat.le_zero.mp enough)
    rfl
  | cons call calls ih =>
    obtain ⟨out, max⟩ := call
    have budget : 1 ≤ max := budgets (out, max) List.mem_cons_self
    unfold drainBatches
    by_cases none_ : left = []
    · subst none_
      rfl
    · obtain ⟨batch, found, rows⟩ := produceBatch_rows sized none_ batchRows out max
      have some_ : 0 < left.length := List.length_pos_of_ne_nil none_
      rw [found]
      dsimp only
      rw [List.flatMap_cons, rows, ih (fun call here => budgets call (List.mem_cons_of_mem _ here)) (by
          rw [List.length_drop]
          rw [List.length_cons] at enough
          omega), ← List.map_append, List.take_append_drop]

end SortOp

private theorem stableRows_length_le (keys : List SortKey) (limit : Option Nat) (rows : List Row) :
    (stableRows keys limit rows).length ≤ rows.length := by
  unfold stableRows
  cases limit with
  | none => rw [List.length_mergeSort]
  | some n => rw [List.length_take, List.length_mergeSort]; exact Nat.min_le_right _ _

/-- ORDER BY is a stable sort and with a limit the front of it: row by row and batch by batch,
with the codes and without. -/
theorem sort_stable {schema : OutSchema} {rows : List Row}
    (typed : ∀ row ∈ rows, TypedRow schema row)
    (noDouble : ∀ position, typeAt schema position ≠ .kDouble)
    (keys : List SortKey) (limit : Option Nat) (prefixes : Bool) :
    let sort : SortOp := { keys, limit, prefixes }
    let types := schema.map fun column => column.column.type
    (∀ child : RowPath, child.Delivers rows →
      (sort.run child).Delivers (stableRows keys limit rows)) ∧
    ∀ batches : List Batch, batches.flatMap Batch.rows = rows →
      (∀ batch ∈ batches, batch.cols.map ColumnVector.type = types) →
      ∀ batchRows ≥ 1, ∀ calls : List (Batch × Nat), (∀ call ∈ calls, 1 ≤ call.2) →
        rows.length ≤ calls.length →
        (SortOp.drainBatches types batchRows (sort.holdBatches types batches)
          (sort.holdBatches types batches).order calls).flatMap Batch.rows =
            stableRows keys limit rows := by
  intro sort types
  have sortable : Sortable sort.keys rows := sortable_of_typed typed noDouble keys
  refine ⟨fun child delivers => ?_, fun batches same typedBatches batchRows positive calls budgets
    enough => ?_⟩
  · have ordered := @SortOp.run_delivers sort child rows delivers
    rwa [SortOp.ordered_eq sortable] at ordered
  · subst same
    obtain ⟨sized, order⟩ := @SortOp.holdBatches_order sort types batches typedBatches sortable
    rw [SortOp.drainBatches_rows sized positive budgets ?_, order]
    have count := congrArg List.length order
    rw [List.length_map] at count
    exact count ▸ Nat.le_trans (stableRows_length_le _ _ _) enough

/-- The best two of four rows, NULL first, over a batch of which every row is live. -/
theorem sort_stable_two :
    let rows : List Row := [[.ofInt64 1, .ofText (bytes "b")], [.ofInt64 2, .null .kText],
      [.ofInt64 3, .ofText (bytes "a")], [.ofInt64 4, .null .kText]]
    let sort : SortOp := { keys := [⟨1, true⟩], limit := some 2 }
    let batch : Batch := {
      cols := [{ ints := [1, 2, 3, 4], nulls := [false, false, false, false] },
        { type := .kText, texts := [bytes "b", [], bytes "a", []],
          nulls := [false, true, false, true] }]
      size := 4 }
    let held := sort.holdBatches [.kInt64, .kText] [batch]
    (sort.run (rowsPath rows)).Delivers (stableRows sort.keys sort.limit rows) ∧
      (SortOp.drainBatches [.kInt64, .kText] 8 held held.order
        [({}, 1), ({}, 8), ({}, 8), ({}, 8)]).flatMap Batch.rows =
          stableRows sort.keys sort.limit rows := by
  intro rows sort batch held
  let schema : OutSchema := [⟨[], bytes "k", .kInt64, true⟩, ⟨[], bytes "v", .kText, true⟩]
  have typed : ∀ row ∈ rows, TypedRow schema row := by decide
  have noDouble : ∀ position, typeAt schema position ≠ .kDouble := by
    intro position
    match position with
    | 0 => decide
    | 1 => decide
    | position + 2 => exact nofun
  obtain ⟨byRow, byBatch⟩ := sort_stable typed noDouble [⟨1, true⟩] (some 2) true
  exact ⟨byRow _ (rowsPath_delivers rows),
    byBatch [batch] (by decide) (by decide) 8 (by decide) _ (by decide) (by decide)⟩

end Labdb.Query
