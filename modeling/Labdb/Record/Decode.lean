import Labdb.Heap.SlottedPage
import Labdb.Query.Room
import Labdb.Record.Layout
import Mathlib.Data.List.Forall2

/-! Every decoder finds in a record the row that was encoded. -/

namespace Labdb.Record

open Labdb.Data Labdb.Heap Labdb.Query

/-- A field that a column may hold: an INT32 is in range, a BOOL is 0 or 1. -/
structure Matches (column : Column) (field : Field) : Prop where
  type : field.type = column.type
  int32 : field.isNull = false → column.type = .kInt32 →
    -2 ^ 31 ≤ field.i64.toInt ∧ field.i64.toInt < 2 ^ 31
  bool : field.isNull = false → column.type = .kBool → field.i64 = 0 ∨ field.i64 = 1

/-- A row whose fields match the columns. -/
def RowMatches (schema : Schema) (row : Row) : Prop := List.Forall₂ Matches schema.columns row

theorem RowMatches.column {schema : Schema} {row : Row} {j : Nat} {field : Field}
    (fits : RowMatches schema row) (isField : row[j]? = some field) :
    ∃ column, schema.columns[j]? = some column ∧ Matches column field := by
  obtain ⟨length, each⟩ := List.forall₂_iff_get.mp fits
  obtain ⟨inside, rfl⟩ := List.getElem?_eq_some_iff.mp isField
  exact ⟨_, List.getElem?_eq_getElem (length ▸ inside), each j (length ▸ inside) inside⟩

section Values

variable {schema : Schema} {row : Row} {rec : List UInt8} {j : Nat} {column : Column}
  {field : Field}

theorem load_of_slice {width at_ value : Nat} (found : slice rec at_ width = some (leBytes width value))
    (small : value < 256 ^ width) : load width rec at_ = .ok value := by
  rw [load, within_some found, ok_bind, leValue_leBytes small]
  rfl

private theorem byteAt_of_slice {at_ : Nat} {byte : UInt8} (found : slice rec at_ 1 = some [byte]) :
    byteAt rec at_ = .ok byte := by
  obtain ⟨-, -, same⟩ := slice_eq_some.mp found
  exact within_some (same 0 Nat.one_pos)

/-- A number in range survives 32 bits. -/
theorem toInt32_toInt64 {number : Int64} (range : -2 ^ 31 ≤ number.toInt ∧ number.toInt < 2 ^ 31) :
    number.toInt32.toInt64 = number := by
  refine Int64.toInt_inj.mp ?_
  rw [Int32.toInt_toInt64, Int64.toInt_toInt32]
  exact Int.bmod_eq_of_le (by omega) (by omega)

/-- An integer or a boolean is read as it was written. -/
theorem Encoded.loadInt_eq (encoded : Encoded schema row rec) (fits : Matches column field)
    (isColumn : schema.columns[j]? = some column) (isField : row[j]? = some field)
    (value : field.isNull = false) (noText : column.type ≠ .kText) (noDouble : column.type ≠ .kDouble) :
    loadInt column.type rec (slotOffset schema j) = .ok field.i64 := by
  have slot := encoded.slots j column field isColumn isField value
  cases type : column.type with
  | kText => exact absurd type noText
  | kDouble => exact absurd type noDouble
  | kInt64 =>
    rw [type] at slot
    have loaded : load 8 rec (slotOffset schema j) = .ok field.i64.toUInt64.toNat :=
      load_of_slice slot (UInt64.toNat_lt _)
    simp only [loadInt, loaded, ok_bind, UInt64.ofNat_toNat, Int64.toInt64_toUInt64]
    rfl
  | kInt32 =>
    rw [type] at slot
    have loaded : load 4 rec (slotOffset schema j) = .ok field.i64.toInt32.toUInt32.toNat :=
      load_of_slice slot (UInt32.toNat_lt _)
    simp only [loadInt, loaded, ok_bind, UInt32.ofNat_toNat, Int32.toInt32_toUInt32,
      toInt32_toInt64 (fits.int32 value type)]
    rfl
  | kBool =>
    rw [type] at slot
    have loaded : byteAt rec (slotOffset schema j) = .ok (if field.i64 = 0 then 0 else 1) :=
      byteAt_of_slice slot
    simp only [loadInt, loaded, ok_bind]
    rcases fits.bool value type with zero | one
    · rw [zero]
      rfl
    · rw [one]
      rfl

private theorem Encoded.loadDouble_eq (encoded : Encoded schema row rec)
    (isColumn : schema.columns[j]? = some column) (isField : row[j]? = some field)
    (value : field.isNull = false) (double : column.type = .kDouble) :
    loadDouble rec (slotOffset schema j) = .ok field.f64 := by
  have slot := encoded.slots j column field isColumn isField value
  rw [double] at slot
  have loaded : load 8 rec (slotOffset schema j) = .ok field.f64.bits.toNat :=
    load_of_slice slot field.f64.bits.isLt
  rw [loadDouble, loaded, ok_bind, BitVec.ofNat_toNat, BitVec.setWidth_eq]
  rfl

/-- The texts before a column's, its own, and those after it. -/
theorem textsOf_split {pairs : List (Column × Field)} {pair : Column × Field}
    (here : pairs[j]? = some pair) :
    textsOf pairs = textsOf (pairs.take j) ++ (textOf pair ++ textsOf (pairs.drop (j + 1))) := by
  have split := List.take_append_drop (j + 1) pairs
  rw [List.take_add_one, here, List.append_assoc] at split
  exact (congrArg textsOf split.symm).trans (textsOf_append _ _)

/-- A text that is in a record has an offset and a length of 16 bits. -/
theorem Encoded.text_bounds (encoded : Encoded schema row rec)
    (isColumn : schema.columns[j]? = some column) (isField : row[j]? = some field)
    (value : field.isNull = false) (text : column.type = .kText) :
    nullBitmapBytes schema + fixedPartBytes schema +
      (textsOf ((schema.columns.zip row).take j)).length + field.text.length ≤ rec.length := by
  have split := textsOf_split (pair_at isColumn isField)
  have isText : textOf (column, field) = field.text := by
    simp only [textOf, value, text, Bool.false_eq_true, if_false, if_true]
  rw [isText] at split
  rw [encoded.length, split, List.length_append, List.length_append]
  omega

/-- A text's slot is its pointer: no offset or length loses a bit. -/
theorem Encoded.text_pointer (encoded : Encoded schema row rec)
    (short : rec.length ≤ kMaxRecordSize)
    (isColumn : schema.columns[j]? = some column) (isField : row[j]? = some field)
    (value : field.isNull = false) (text : column.type = .kText) :
    load 2 rec (slotOffset schema j) =
        .ok (textsOf ((schema.columns.zip row).take j)).length ∧
      load 2 rec (slotOffset schema j + 2) = .ok field.text.length := by
  have slot := encoded.slots j column field isColumn isField value
  have bounds := encoded.text_bounds isColumn isField value text
  have page : kMaxRecordSize < 2 ^ 16 := by decide
  generalize (textsOf ((schema.columns.zip row).take j)).length = voff at *
  have narrow : ∀ n : Nat, n ≤ kMaxRecordSize → n.toUInt16.toNat = n := by
    intro n small
    rw [Nat.toUInt16, UInt16.toNat_ofNat']
    exact Nat.mod_eq_of_lt (Nat.lt_of_le_of_lt small page)
  have pointer : slice rec (slotOffset schema j) 4 =
      some (leBytes 2 voff ++ leBytes 2 field.text.length) := by
    rw [text] at slot
    have whole : slice rec (slotOffset schema j) 4 =
      some (leBytes 2 voff.toUInt16.toNat ++ leBytes 2 field.text.length.toUInt16.toNat) := slot
    rwa [narrow voff (by omega), narrow field.text.length (by omega)] at whole
  constructor
  · have front := slice_part pointer (show 0 + 2 ≤ 4 by decide)
    exact load_of_slice front (by omega)
  · have back := slice_part pointer (show 2 + 2 ≤ 4 by decide)
    exact load_of_slice back (by omega)

private theorem Encoded.loadText_eq (encoded : Encoded schema row rec)
    (short : rec.length ≤ kMaxRecordSize)
    (isColumn : schema.columns[j]? = some column) (isField : row[j]? = some field)
    (value : field.isNull = false) (text : column.type = .kText) :
    loadText (nullBitmapBytes schema + fixedPartBytes schema) rec (slotOffset schema j) =
      .ok field.text := by
  have bounds := encoded.text_bounds isColumn isField value text
  have split := textsOf_split (pair_at isColumn isField)
  have isText : textOf (column, field) = field.text := by
    simp only [textOf, value, text, Bool.false_eq_true, if_false, if_true]
  have part := slice_part encoded.texts
    (show (textsOf ((schema.columns.zip row).take j)).length + field.text.length ≤ _ by
      rw [encoded.length] at bounds
      omega)
  rw [isText] at split
  rw [split, List.drop_left, List.take_left] at part
  obtain ⟨offset, length⟩ := encoded.text_pointer short isColumn isField value text
  simp only [loadText, offset, length, ok_bind, checkThat_true (decide_eq_true bounds)]
  exact within_some part

/-- Where a column's type and its slot are found in a schema and in its layout. -/
theorem typeOf_eq (isColumn : schema.columns[j]? = some column) :
    typeOf schema j = column.type := by
  rw [typeOf, isColumn]

/-- The value of a column. -/
theorem Encoded.readAt_eq (encoded : Encoded schema row rec) (short : rec.length ≤ kMaxRecordSize)
    (fits : Matches column field)
    (isColumn : schema.columns[j]? = some column) (isField : row[j]? = some field)
    (value : field.isNull = false) :
    readAt schema rec j (slotOffset schema j) = .ok field.plain := by
  have room := slotOffset_end_le isColumn
  have length := encoded.length
  unfold readAt
  rw [typeOf_eq isColumn]
  by_cases text : column.type = .kText
  · have width : slotWidth column.type = 4 := if_pos text
    simp only [text, if_true, checkThat_true (decide_eq_true (show slotOffset schema j + 4 ≤
      rec.length by omega)), ok_bind, encoded.loadText_eq short isColumn isField value text]
    simp [Field.plain, value, fits.type, text]
    rfl
  · have width : slotWidth column.type = fixedWidth column.type := if_neg text
    simp only [text, if_false, checkThat_true (decide_eq_true (show slotOffset schema j +
      fixedWidth column.type ≤ rec.length by omega)), ok_bind]
    by_cases double : column.type = .kDouble
    · simp only [double, if_true, encoded.loadDouble_eq isColumn isField value double, ok_bind]
      simp [Field.plain, value, fits.type, double, Field.f64]
      rfl
    · simp only [double, if_false, encoded.loadInt_eq fits isColumn isField value text double,
        ok_bind]
      simp [Field.plain, value, fits.type, text]
      rfl

private theorem plain_null (fits : Matches column field) (null : field.isNull = true) :
    Field.null column.type = field.plain := by
  simp [Field.null, Field.plain, null, fits.type]

/-- A column of a row that was encoded, whose bit and slot are read. -/
theorem Encoded.read_eq (encoded : Encoded schema row rec) (short : rec.length ≤ kMaxRecordSize)
    (fits : RowMatches schema row) (isField : row[j]? = some field) :
    (do
      if ← nullAt rec j then pure (Field.null (typeOf schema j))
      else readAt schema rec j (slotOffset schema j)) = .ok field.plain := by
  obtain ⟨column, isColumn, matches_⟩ := fits.column isField
  rw [encoded.nulls j field isField, ok_bind]
  cases null : field.isNull with
  | true =>
    rw [typeOf_eq isColumn, plain_null matches_ null]
    rfl
  | false => exact encoded.readAt_eq short matches_ isColumn isField null

private theorem Encoded.bitmap_le (encoded : Encoded schema row rec) :
    nullBitmapBytes schema ≤ rec.length := by
  rw [encoded.length]
  omega

theorem Encoded.project_eq (encoded : Encoded schema row rec) (short : rec.length ≤ kMaxRecordSize)
    (fits : RowMatches schema row) (isField : row[j]? = some field) :
    project schema rec j = .ok field.plain := by
  have inside : j < schema.columns.length :=
    encoded.count ▸ (List.getElem?_eq_some_iff.mp isField).1
  unfold project
  rw [checkThat_true (decide_eq_true inside), checkThat_true (decide_eq_true encoded.bitmap_le)]
  exact encoded.read_eq short fits isField

/-- A loop of which every round succeeds. -/
theorem mapM_each {α β : Type} {step : α → Codec β} {holds : α → β → Prop} {items : List α}
    (each : ∀ item ∈ items, ∃ out, step item = .ok out ∧ holds item out) :
    ∃ outs, items.mapM step = .ok outs ∧ List.Forall₂ holds items outs := by
  induction items with
  | nil => exact ⟨[], rfl, .nil⟩
  | cons first rest ih =>
    obtain ⟨out, stepped, ok⟩ := each first List.mem_cons_self
    obtain ⟨outs, looped, all⟩ := ih fun item here => each item (List.mem_cons_of_mem first here)
    refine ⟨out :: outs, ?_, .cons ok all⟩
    rw [List.mapM_cons, stepped, ok_bind, looped, ok_bind]
    rfl

theorem mapM_map {α β : Type} {step : α → Codec β} {f : α → β} {items : List α}
    (each : ∀ item ∈ items, step item = .ok (f item)) : items.mapM step = .ok (items.map f) := by
  obtain ⟨outs, looped, all⟩ := @mapM_each _ _ step (fun item out => f item = out) items
    fun item here => ⟨f item, each item here, rfl⟩
  rw [← List.forall₂_map_left_iff, List.forall₂_eq_eq_eq] at all
  rw [looped, all]

theorem Encoded.decode_eq (encoded : Encoded schema row rec) (short : rec.length ≤ kMaxRecordSize)
    (fits : RowMatches schema row) : decode schema rec = .ok (row.map Field.plain) := by
  unfold decode
  rw [checkThat_true (decide_eq_true encoded.bitmap_le), ok_bind]
  have looped := @mapM_map _ _ _ (fun i => (Row.at row i).plain) (List.range schema.columns.length)
    fun i member => by
      have inside : i < row.length := encoded.count ▸ List.mem_range.mp member
      have isField := List.getElem?_eq_getElem inside
      rw [Row.at, List.getD_eq_getElem?_getD, isField]
      exact encoded.read_eq short fits isField
  rw [looped]
  refine congrArg Except.ok (List.ext_getElem (by simp [encoded.count]) fun i inside inside' => ?_)
  rw [List.length_map] at inside'
  simp [Row.at, List.getD_eq_getElem?_getD, List.getElem?_eq_getElem inside']

section Layout

/-- The offsets of a layout are those of the schema, where 32 bits hold them. -/
theorem slotAt_ofSchema {j : Nat} (inside : j < schema.columns.length)
    (small : slotOffset schema j < 2 ^ 32) :
    (RecordLayout.ofSchema schema).slotAt j = slotOffset schema j := by
  have at_ : ∀ (columns : List Column) (off j : Nat), j < columns.length →
      (RecordLayout.slotsFrom off columns)[j]? =
        some (off + slotBytes (columns.take j)).toUInt32 := by
    intro columns
    induction columns with
    | nil => exact fun off j inside => absurd inside (Nat.not_lt_zero j)
    | cons first rest ih =>
      intro off j inside
      cases j with
      | zero => rfl
      | succ j =>
        rw [RecordLayout.slotsFrom, List.getElem?_cons_succ,
          ih _ j (Nat.lt_of_succ_lt_succ inside), List.take_succ_cons, Nat.add_assoc]
        rfl
  rw [RecordLayout.slotAt, List.getD_eq_getElem?_getD, RecordLayout.ofSchema, at_ _ _ _ inside]
  change (slotOffset schema j).toUInt32.toNat = slotOffset schema j
  rw [Nat.toUInt32, UInt32.toNat_ofNat']
  exact Nat.mod_eq_of_lt small

private theorem typeAt_ofSchema (isColumn : schema.columns[j]? = some column) :
    (RecordLayout.ofSchema schema).typeAt j = column.type := by
  rw [RecordLayout.typeAt, List.getD_eq_getElem?_getD, RecordLayout.ofSchema, List.getElem?_map,
    isColumn]
  rfl

theorem Encoded.slotAt_eq (encoded : Encoded schema row rec) (short : rec.length ≤ kMaxRecordSize)
    (isColumn : schema.columns[j]? = some column) :
    (RecordLayout.ofSchema schema).slotAt j = slotOffset schema j := by
  have room := slotOffset_end_le isColumn
  have length := encoded.length
  have page : kMaxRecordSize < 2 ^ 32 := by decide
  exact slotAt_ofSchema (List.getElem?_eq_some_iff.mp isColumn).1 (by omega)

private theorem Encoded.fixed_le (encoded : Encoded schema row rec) :
    (RecordLayout.ofSchema schema).varStart ≤ rec.length := by
  rw [encoded.length]
  exact Nat.le_add_right _ _

/-- A field that held something else before. -/
theorem Encoded.decodeField_eq (encoded : Encoded schema row rec)
    (short : rec.length ≤ kMaxRecordSize) (fits : RowMatches schema row)
    (isField : row[j]? = some field) (old : Field) :
    ∃ new, decodeField (.ofSchema schema) rec old j = .ok new ∧ new.plain = field.plain := by
  obtain ⟨column, isColumn, matches_⟩ := fits.column isField
  unfold decodeField
  rw [typeAt_ofSchema isColumn, encoded.slotAt_eq short isColumn, encoded.nulls j field isField]
  simp only [ok_bind]
  cases null : field.isNull with
  | true =>
    refine ⟨_, rfl, ?_⟩
    simp [Field.plain, null, matches_.type]
  | false =>
    by_cases text : column.type = .kText
    · have loaded : loadText (RecordLayout.ofSchema schema).varStart rec (slotOffset schema j) =
          .ok field.text := encoded.loadText_eq short isColumn isField null text
      simp only [Bool.false_eq_true, if_false, text, loaded, ok_bind]
      refine ⟨_, rfl, ?_⟩
      simp [Field.plain, null, matches_.type, text]
    · by_cases double : column.type = .kDouble
      · simp only [Bool.false_eq_true, if_false, double,
          encoded.loadDouble_eq isColumn isField null double, ok_bind]
        refine ⟨_, rfl, ?_⟩
        simp [Field.plain, null, matches_.type, double, Field.f64]
      · have loaded := encoded.loadInt_eq matches_ isColumn isField null text double
        refine ⟨{ old with type := column.type, isNull := false, i64 := field.i64, text := [] },
          ?_, ?_⟩
        · cases type : column.type <;> rw [type] at loaded text double
          case kText => exact absurd rfl text
          case kDouble => exact absurd rfl double
          all_goals
            simp only [Bool.false_eq_true, if_false, loaded, ok_bind]
            rfl
        · simp [Field.plain, null, matches_.type, text]

/-- A row that held other fields before. -/
theorem Encoded.decodeInto_eq (encoded : Encoded schema row rec)
    (short : rec.length ≤ kMaxRecordSize) (fits : RowMatches schema row) (old : Row) :
    ∃ new, decodeInto (.ofSchema schema) rec old = .ok new ∧
      new.map Field.plain = row.map Field.plain := by
  unfold decodeInto
  rw [checkThat_true (decide_eq_true encoded.fixed_le), ok_bind]
  have count : (resized old (RecordLayout.ofSchema schema).types.length).length = row.length := by
    have types : (RecordLayout.ofSchema schema).types.length = row.length := by
      rw [RecordLayout.ofSchema, List.length_map, encoded.count]
    rw [resized, List.length_append, List.length_take, List.length_replicate, types]
    omega
  have each : ∀ item ∈ (resized old (RecordLayout.ofSchema schema).types.length).zipIdx,
      ∃ out, decodeField (.ofSchema schema) rec item.1 item.2 = .ok out ∧
        (row.map Field.plain)[item.2]? = some out.plain := by
    intro item member
    have inside : item.2 < row.length := count ▸ (List.mem_zipIdx' member).1
    have isField := List.getElem?_eq_getElem inside
    obtain ⟨new, decoded, same⟩ := encoded.decodeField_eq short fits isField item.1
    refine ⟨new, decoded, ?_⟩
    rw [List.getElem?_map, isField, same]
    rfl
  obtain ⟨outs, looped, all⟩ := mapM_each each
  refine ⟨outs, looped, List.ext_getElem? fun i => ?_⟩
  obtain ⟨length, each⟩ := List.forall₂_iff_get.mp all
  rw [List.length_zipIdx, count] at length
  by_cases inside : i < outs.length
  · have read := each i (by rw [List.length_zipIdx]; omega) inside
    simp only [List.get_eq_getElem, List.getElem_zipIdx, Nat.zero_add] at read
    rw [read, List.getElem?_map, List.getElem?_eq_getElem inside]
    rfl
  · rw [List.getElem?_eq_none (by rw [List.length_map]; omega), List.getElem?_eq_none (by
      rw [List.length_map]
      omega)]

/-- A cell of a column of the type, whatever was there. -/
theorem Encoded.decodeCell_eq (encoded : Encoded schema row rec)
    (short : rec.length ≤ kMaxRecordSize) (fits : RowMatches schema row)
    (isField : row[j]? = some field) {target : ColumnVector} (same : target.type = field.type)
    {i : Nat} (has : target.Has i) :
    decodeCell (.ofSchema schema) rec target j i = .ok (target.set i field) := by
  obtain ⟨column, isColumn, matches_⟩ := fits.column isField
  obtain ⟨nullRoom, valueRoom⟩ := has
  have put : ∀ {α : Type} {items : List α}, i < items.length → ∀ item : α,
      setAt items i item = .ok (items.set i item) := fun room _ => if_pos room
  unfold ColumnVector.capacity at valueRoom
  unfold decodeCell ColumnVector.set
  rw [typeAt_ofSchema isColumn, encoded.slotAt_eq short isColumn, encoded.nulls j field isField]
  simp only [ok_bind, put nullRoom]
  have type : target.type = column.type := same.trans matches_.type
  cases isType : column.type <;> rw [isType] at type <;> rw [type] at valueRoom
  case kText =>
    cases null : field.isNull with
    | true =>
      simp only [type, if_true, pure_bind, put valueRoom, ok_bind]
      rfl
    | false =>
      have loaded : loadText (RecordLayout.ofSchema schema).varStart rec (slotOffset schema j) =
          .ok field.text := encoded.loadText_eq short isColumn isField null isType
      simp only [type, Bool.false_eq_true, if_false, loaded, put valueRoom, ok_bind]
      rfl
  case kDouble =>
    cases null : field.isNull with
    | true =>
      simp only [type, if_true, pure_bind, put valueRoom, ok_bind]
      rfl
    | false =>
      have loaded := encoded.loadDouble_eq isColumn isField null isType
      simp only [type, Bool.false_eq_true, if_false, loaded, put valueRoom, ok_bind]
      rfl
  all_goals
    cases null : field.isNull with
    | true =>
      simp only [type, if_true, pure_bind, put valueRoom, ok_bind]
      rfl
    | false =>
      have loaded := encoded.loadInt_eq matches_ isColumn isField null (by rw [isType]; decide)
        (by rw [isType]; decide)
      rw [isType] at loaded
      simp only [type, Bool.false_eq_true, if_false, loaded, put valueRoom, ok_bind]
      rfl

end Layout

end Values

/-- The rows of a run, one value each of column `c`, in a column from row `at_` on. -/
def setCells (c : Nat) : Nat → List Row → ColumnVector → ColumnVector
  | _, [], column => column
  | at_, row :: rows, column => setCells c (at_ + 1) rows (column.set at_ (Row.at row c))

/-- The rows of a run in a batch. -/
def setRows (at_ : Nat) (rows : List Row) (batch : Batch) : Batch :=
  { batch with cols := batch.cols.zipIdx.map fun (column, c) => setCells c at_ rows column }

section Runs

variable {schema : Schema} {column : ColumnVector} {batch : Batch} {c at_ : Nat} {rows : List Row}
  {recs : List (List UInt8)}

/-- The records are those of the rows. -/
def EncodedAll (schema : Schema) (rows : List Row) (recs : List (List UInt8)) : Prop :=
  List.Forall₂ (fun row rec => RowMatches schema row ∧ Encoded schema row rec ∧
    rec.length ≤ kMaxRecordSize) rows recs

theorem EncodedAll.fits (encoded : EncodedAll schema rows recs) :
    ∀ row ∈ rows, RowMatches schema row := by
  induction encoded with
  | nil => exact nofun
  | cons first rest ih =>
    intro row member
    rcases List.mem_cons.mp member with rfl | later
    · exact first.1
    · exact ih row later

private theorem get_setCells (has : ∀ i, at_ ≤ i → i < at_ + rows.length → column.Has i)
    (same : ∀ row ∈ rows, column.type = (Row.at row c).type) (k : Nat) :
    (setCells c at_ rows column).get k =
      if at_ ≤ k ∧ k < at_ + rows.length then (Row.at (rows.getD (k - at_) []) c).plain
      else column.get k := by
  induction rows generalizing at_ column with
  | nil =>
    rw [setCells, if_neg]
    rw [List.length_nil]
    omega
  | cons row rows ih =>
    rw [List.length_cons] at has ⊢
    have here : column.Has at_ := has at_ (Nat.le_refl _) (by omega)
    rw [setCells, ih (fun i past below => (has i (by omega) (by omega)).set _)
      (fun row member => by
        rw [ColumnVector.type_set]
        exact same row (List.mem_cons_of_mem _ member)),
      ColumnVector.get_set here (same row List.mem_cons_self)]
    by_cases first : at_ = k
    · subst first
      rw [if_neg (by omega), if_pos rfl, if_pos (by omega), Nat.sub_self]
      rfl
    · by_cases later : at_ + 1 ≤ k ∧ k < at_ + 1 + rows.length
      · have next : k - at_ = k - (at_ + 1) + 1 := by omega
        rw [if_pos later, if_pos (by omega), next]
        rfl
      · rw [if_neg later, if_neg first, if_neg (by omega)]

theorem decodeCells_eq (encoded : EncodedAll schema rows recs) (inside : c < schema.columns.length)
    (has : ∀ i, at_ ≤ i → i < at_ + rows.length → column.Has i) (same : column.type = typeOf schema c) :
    decodeCells (.ofSchema schema) c at_ recs column = .ok (setCells c at_ rows column) := by
  induction encoded generalizing at_ column with
  | nil => rfl
  | @cons row rec rows recs first rest ih =>
    obtain ⟨fits, encoded, short⟩ := first
    have isField : row[c]? = some (Row.at row c) := by
      have below : c < row.length := encoded.count ▸ inside
      rw [Row.at, List.getD_eq_getElem?_getD, List.getElem?_eq_getElem below]
      rfl
    obtain ⟨isOf, isColumn, matches_⟩ := fits.column isField
    have type : column.type = (Row.at row c).type := by
      rw [same, typeOf_eq isColumn, matches_.type]
    rw [List.length_cons] at has
    have here : column.Has at_ := has at_ (Nat.le_refl _) (by omega)
    rw [decodeCells, encoded.decodeCell_eq short fits isField type here, ok_bind, setCells]
    refine ih (fun i past below => (has i (by omega) (by omega)).set _) ?_
    rw [ColumnVector.type_set, same]

/-- A batch whose columns are of the schema's types, with room for `count` rows from row `at_`
on. -/
structure Formatted (schema : Schema) (batch : Batch) (at_ count : Nat) : Prop where
  types : batch.cols.map ColumnVector.type = schema.columns.map Column.type
  room : ∀ column ∈ batch.cols, ∀ i, at_ ≤ i → i < at_ + count → column.Has i

/-- What `format` leaves of any batch. -/
theorem formatted_format (schema : Schema) (batch : Batch) {n count : Nat}
    (inside : at_ + count ≤ n) :
    Formatted schema (batch.format (schema.columns.map Column.type) n) at_ count := by
  refine ⟨?_, fun column member i _ below => ?_⟩
  · refine List.ext_getElem (by simp [Batch.format]) fun c _ _ => ?_
    simp [Batch.format]
  · obtain ⟨⟨type, c⟩, _, rfl⟩ := List.mem_map.mp member
    exact ColumnVector.has_format type (by omega)

theorem Formatted.length {count : Nat} (formatted : Formatted schema batch at_ count) :
    batch.cols.length = schema.columns.length := by
  have length := congrArg List.length formatted.types
  rwa [List.length_map, List.length_map] at length

theorem Formatted.type {count : Nat} (formatted : Formatted schema batch at_ count)
    (here : batch.cols[c]? = some column) : column.type = typeOf schema c := by
  have both := congrArg (fun types => types[c]?) formatted.types
  simp only [List.getElem?_map, here, Option.map_some] at both
  cases isColumn : schema.columns[c]? with
  | none => rw [isColumn] at both; cases both
  | some found =>
    rw [isColumn] at both
    rw [typeOf_eq isColumn]
    exact Option.some.inj both

/-- Every column is changed as the change of one column says. -/
theorem eachColumn_eq {count : Nat} (formatted : Formatted schema batch at_ count)
    {change : ColumnVector → Nat → Codec ColumnVector} {f : ColumnVector → Nat → ColumnVector}
    (each : ∀ column c, batch.cols[c]? = some column → change column c = .ok (f column c)) :
    eachColumn (.ofSchema schema) change batch =
      .ok { batch with cols := batch.cols.zipIdx.map fun (column, c) => f column c } := by
  have types : (RecordLayout.ofSchema schema).types.length = batch.cols.length := by
    rw [RecordLayout.ofSchema, List.length_map, formatted.length]
  have looped := @mapM_map _ _ (fun (column, c) =>
      if c < (RecordLayout.ofSchema schema).types.length then change column c else pure column)
    (fun (column, c) => f column c) batch.cols.zipIdx fun (column, c) member => by
      have here := List.mem_zipIdx_iff_getElem?.mp member
      have inside := (List.getElem?_eq_some_iff.mp here).1
      dsimp only at here inside ⊢
      rw [if_pos (types ▸ inside)]
      exact each column c here
  unfold eachColumn
  rw [if_neg (by omega), looped]
  rfl

/-- A batch into which the rows of a run were written. -/
theorem getRow_setRows (formatted : Formatted schema batch at_ rows.length)
    (fits : ∀ row ∈ rows, RowMatches schema row) (k : Nat) :
    (setRows at_ rows batch).getRow k =
      if at_ ≤ k ∧ k < at_ + rows.length then (rows.getD (k - at_) []).map Field.plain
      else batch.getRow k := by
  have each : ∀ c column, batch.cols[c]? = some column →
      (setCells c at_ rows column).get k =
        if at_ ≤ k ∧ k < at_ + rows.length then (Row.at (rows.getD (k - at_) []) c).plain
        else column.get k := by
    intro c column here
    refine get_setCells (formatted.room column (List.mem_of_getElem? here)) (fun row member => ?_) k
    have inside : c < row.length := by
      rw [← (fits row member).length_eq, ← formatted.length]
      exact (List.getElem?_eq_some_iff.mp here).1
    have isField : row[c]? = some (Row.at row c) := by
      rw [Row.at, List.getD_eq_getElem?_getD, List.getElem?_eq_getElem inside]
      rfl
    obtain ⟨isOf, isColumn, matches_⟩ := (fits row member).column isField
    rw [formatted.type here, typeOf_eq isColumn, matches_.type]
  have read : (setRows at_ rows batch).getRow k = batch.cols.zipIdx.map fun (column, c) =>
      (setCells c at_ rows column).get k := by
    rw [Batch.getRow, setRows, List.map_map]
    rfl
  rw [read]
  split
  · rename_i chosen
    have inside : k - at_ < rows.length := by omega
    have isRow : rows.getD (k - at_) [] ∈ rows := by
      rw [List.getD_eq_getElem?_getD, List.getElem?_eq_getElem inside]
      exact List.getElem_mem inside
    have count : (rows.getD (k - at_) []).length = batch.cols.length := by
      rw [← (fits _ isRow).length_eq, formatted.length]
    generalize rows.getD (k - at_) [] = row at each isRow count ⊢
    refine List.ext_getElem (by simp [count]) fun c below below' => ?_
    rw [List.length_map] at below'
    have here : batch.cols[c]? = some batch.cols[c] := List.getElem?_eq_getElem (by omega)
    have value := each c _ here
    rw [if_pos chosen, Row.at, List.getD_eq_getElem?_getD, List.getElem?_eq_getElem below',
      Option.getD_some] at value
    simpa using value
  · rename_i notChosen
    refine List.ext_getElem (by simp [Batch.getRow]) fun c below below' => ?_
    rw [List.length_map, List.length_zipIdx] at below
    have value := each c _ (List.getElem?_eq_getElem below)
    rw [if_neg notChosen] at value
    simpa [Batch.getRow] using value

/-- A batch with room for the rows is formatted for them. -/
theorem formatted_of_room {count : Nat}
    (ready : batch.Ready (schema.columns.map Column.type)) (room : at_ + count ≤ batch.room) :
    Formatted schema batch at_ count :=
  ⟨ready.types_eq, fun _ here i _ below => ready.has (by omega) here⟩

private theorem setCells_same (c at_ : Nat) (rows : List Row) (column : ColumnVector) :
    (setCells c at_ rows column).type = column.type ∧
      (setCells c at_ rows column).nulls.length = column.nulls.length ∧
      ∀ type, (setCells c at_ rows column).lengthFor type = column.lengthFor type := by
  induction rows generalizing at_ column with
  | nil => exact ⟨rfl, rfl, fun _ => rfl⟩
  | cons row rows ih =>
    obtain ⟨type, nulls, values⟩ := ih (at_ + 1) (column.set at_ (Row.at row c))
    rw [setCells]
    refine ⟨type.trans (ColumnVector.type_set _), nulls.trans (ColumnVector.length_nulls_set _ _ _),
      fun type => (values type).trans (ColumnVector.lengthFor_set _ _ _ type)⟩

/-- Rows that are written change neither the types nor the room. -/
theorem setRows_ready {types : List ColType} (ready : batch.Ready types) (at_ : Nat)
    (rows : List Row) :
    (setRows at_ rows batch).Ready types ∧ (setRows at_ rows batch).room = batch.room := by
  refine ⟨⟨?_, fun column member => ?_⟩, ?_⟩
  · rw [← ready.types_eq]
    refine List.ext_getElem (by simp [setRows]) fun c _ _ => ?_
    simp [setRows, (setCells_same _ _ _ _).1]
  · obtain ⟨⟨before, c⟩, here, rfl⟩ := List.mem_map.mp member
    obtain ⟨type, nulls, values⟩ := setCells_same c at_ rows before
    have backs := ready.backs before (List.fst_mem_of_mem_zipIdx here)
    rw [ColumnVector.Backs, type, nulls, values]
    exact backs
  · rw [Batch.room_eq, Batch.room_eq]
    refine congrArg (List.foldl min batch.sel.length) (List.ext_getElem (by simp [setRows]) fun c _ _ => ?_)
    simp [setRows, (setCells_same _ _ _ _).2.1]

theorem decodeRun_eq (encoded : EncodedAll schema rows recs)
    (formatted : Formatted schema batch at_ rows.length) :
    decodeRun (.ofSchema schema) recs batch at_ = .ok (setRows at_ rows batch) := by
  have checked : (recs.forM fun rec =>
      checkThat ((RecordLayout.ofSchema schema).varStart ≤ rec.length)
        (bytes "record shorter than its fixed part")) = .ok () := by
    clear formatted
    induction encoded with
    | nil => rfl
    | cons first rest ih =>
      unfold List.forM
      rw [checkThat_true (decide_eq_true first.2.1.fixed_le), ok_bind, ih]
  unfold decodeRun
  rw [checked, ok_bind]
  refine eachColumn_eq formatted (f := fun column c => setCells c at_ rows column)
    fun column c here => ?_
  have inside : c < schema.columns.length :=
    formatted.length ▸ (List.getElem?_eq_some_iff.mp here).1
  exact decodeCells_eq encoded inside (formatted.room column (List.mem_of_getElem? here))
    (formatted.type here)

theorem decodeTo_eq {row : Row} {rec : List UInt8} {i : Nat} (encoded : EncodedAll schema [row] [rec])
    (formatted : Formatted schema batch i 1) :
    decodeTo (.ofSchema schema) rec batch i = .ok (setRows i [row] batch) := by
  obtain ⟨⟨fits, encoded', short⟩, -⟩ := List.forall₂_cons.mp encoded
  unfold decodeTo
  rw [checkThat_true (decide_eq_true encoded'.fixed_le), ok_bind]
  refine eachColumn_eq formatted (f := fun column c => setCells c i [row] column)
    fun column c here => ?_
  have inside : c < schema.columns.length :=
    formatted.length ▸ (List.getElem?_eq_some_iff.mp here).1
  have once : decodeCells (.ofSchema schema) c i [rec] column =
      decodeCell (.ofSchema schema) rec column c i := bind_pure _
  rw [← once]
  exact decodeCells_eq encoded inside (formatted.room column (List.mem_of_getElem? here))
    (formatted.type here)

end Runs

theorem encoded_of_encode {schema : Schema} {row : Row} {rec : List UInt8}
    (fits : RowMatches schema row) (wrote : encode schema row = .ok rec) :
    Encoded schema row rec := by
  rcases encode_spec fits.length_eq.symm with ⟨rec', wrote', found⟩ | failed
  · cases wrote.symm.trans wrote'
    exact found
  · cases wrote.symm.trans failed

/-- A row is written to bytes without an access outside of them. Of what is not too long for a
page, every decoder makes the row again: a whole row, one column, a row that held other fields,
and rows of a batch that held others, each on its own. No offset or length of a text loses a
bit. -/
theorem decoders_undo_encode (schema : Schema) :
    (∀ row, RowMatches schema row → encode schema row ≠ .error .outside) ∧
    (∀ row rec, RowMatches schema row → encode schema row = .ok rec →
      rec.length ≤ kMaxRecordSize →
      decode schema rec = .ok (row.map Field.plain) ∧
      (∀ i field, row[i]? = some field → project schema rec i = .ok field.plain) ∧
      (∀ old, ∃ new, decodeInto (.ofSchema schema) rec old = .ok new ∧
        new.map Field.plain = row.map Field.plain) ∧
      (∀ batch i, Formatted schema batch i 1 →
        ∃ after, decodeTo (.ofSchema schema) rec batch i = .ok after ∧
          after.getRow i = row.map Field.plain ∧
          ∀ k ≠ i, after.getRow k = batch.getRow k) ∧
      ∀ j column field, schema.columns[j]? = some column → row[j]? = some field →
        field.isNull = false → column.type = .kText →
        load 2 rec (slotOffset schema j) =
            .ok (textsOf ((schema.columns.zip row).take j)).length ∧
          load 2 rec (slotOffset schema j + 2) = .ok field.text.length) ∧
    ∀ rows recs, List.Forall₂ (fun row rec => RowMatches schema row ∧
        encode schema row = .ok rec ∧ rec.length ≤ kMaxRecordSize) rows recs →
      ∀ batch at_, Formatted schema batch at_ rows.length →
        ∃ after, decodeRun (.ofSchema schema) recs batch at_ = .ok after ∧
          ∀ k, after.getRow k =
            if at_ ≤ k ∧ k < at_ + rows.length then (rows.getD (k - at_) []).map Field.plain
            else batch.getRow k := by
  refine ⟨fun row fits faults => ?_, fun row rec fits wrote short => ?_,
    fun rows recs all batch at_ formatted => ?_⟩
  · rcases encode_spec fits.length_eq.symm with ⟨rec, wrote, -⟩ | failed
    · cases faults.symm.trans wrote
    · cases faults.symm.trans failed
  · have found := encoded_of_encode fits wrote
    refine ⟨found.decode_eq short fits, fun i field => found.project_eq short fits,
      found.decodeInto_eq short fits, fun batch i formatted => ?_,
      fun j column field => found.text_pointer short⟩
    have one : EncodedAll schema [row] [rec] := .cons ⟨fits, found, short⟩ .nil
    have rows := @getRow_setRows schema batch i [row] formatted fun other member =>
      List.mem_singleton.mp member ▸ fits
    refine ⟨_, decodeTo_eq one formatted, ?_, fun k other => ?_⟩
    · rw [rows, if_pos (by rw [List.length_singleton]; omega), Nat.sub_self]
      rfl
    · rw [rows, if_neg (by rw [List.length_singleton]; omega)]
  · have each : EncodedAll schema rows recs := all.imp fun row rec ⟨fits, wrote, short⟩ =>
      ⟨fits, encoded_of_encode fits wrote, short⟩
    exact ⟨_, decodeRun_eq each formatted, getRow_setRows formatted each.fits⟩

/-- A row of five types, NULLs and an empty text among its fields, in a batch that was used. -/
theorem decoders_undo_encode_row :
    let schema : Schema := ⟨[⟨bytes "id", .kInt64, false⟩, ⟨bytes "a", .kInt32, true⟩,
      ⟨bytes "s", .kText, true⟩, ⟨bytes "f", .kBool, true⟩, ⟨bytes "t", .kText, true⟩,
      ⟨bytes "u", .kText, true⟩, ⟨bytes "d", .kDouble, true⟩]⟩
    let row : Row := [.ofInt64 (-7), .ofInt32 (-2), .null .kText, .ofBool true, .ofText [],
      .ofText (bytes "xyz"), .ofDouble ⟨0x3FF0000000000000⟩]
    ∃ rec, encode schema row = .ok rec ∧ decode schema rec = .ok row ∧
      (∃ new, decodeInto (.ofSchema schema) rec [.ofText (bytes "old"), .ofInt64 9] = .ok new ∧
        new.map Field.plain = row) ∧
      ∃ after, decodeTo (.ofSchema schema) rec
          (({} : Batch).format (schema.columns.map Column.type) 4) 2 = .ok after ∧
        after.getRow 2 = row := by
  intro schema row
  have fits : RowMatches schema row := by
    refine .cons ⟨rfl, ?_, ?_⟩ (.cons ⟨rfl, ?_, ?_⟩ (.cons ⟨rfl, ?_, ?_⟩ (.cons ⟨rfl, ?_, ?_⟩
      (.cons ⟨rfl, ?_, ?_⟩ (.cons ⟨rfl, ?_, ?_⟩ (.cons ⟨rfl, ?_, ?_⟩ .nil)))))) <;> decide
  have plain : row.map Field.plain = row := by decide
  obtain ⟨-, decoders, -⟩ := decoders_undo_encode schema
  obtain ⟨rec, wrote, short⟩ : ∃ rec, encode schema row = .ok rec ∧
      rec.length ≤ kMaxRecordSize := by
    rcases encode_spec fits.length_eq.symm with ⟨rec, wrote, found⟩ | failed
    · exact ⟨rec, wrote, found.length ▸ by decide⟩
    · exact absurd failed (by decide +kernel)
  obtain ⟨decoded, -, intoRow, intoBatch, -⟩ := decoders row rec fits wrote short
  rw [plain] at decoded intoRow intoBatch
  obtain ⟨after, ran, found, -⟩ := intoBatch _ 2 (@formatted_format 2 schema {} 4 1 (by decide))
  exact ⟨rec, wrote, decoded, intoRow _, after, ran, found⟩

end Labdb.Record
