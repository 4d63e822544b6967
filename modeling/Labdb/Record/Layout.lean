import Labdb.Record.Codec

/-! What `encode` writes: a bit for each column, a slot for each, and the texts one after
another. -/

namespace Labdb.Record

open Labdb.Data Labdb.Query

theorem within_some {α : Type} {found : Option α} {item : α} (here : found = some item) :
    within found = .ok item := by
  rw [here]
  rfl

theorem checkThat_true {holds : Bool} (passes : holds = true) (message : Text) :
    checkThat holds message = .ok () := if_pos passes

theorem checkThat_false {holds : Bool} (fails : holds = false) (message : Text) :
    checkThat holds message = .error (.failed message) := by
  rw [fails]
  rfl

@[simp] theorem ok_bind {α β : Type} (item : α) (next : α → Codec β) :
    ((.ok item : Codec α) >>= next) = next item := rfl

private theorem nullAt_iff {rec : List UInt8} {i : Nat} {isNull : Bool} :
    nullAt rec i = .ok isNull ↔
      ∃ byte, rec[i / 8]? = some byte ∧ byte.toNat.testBit (i % 8) = isNull := by
  unfold nullAt byteAt
  cases rec[i / 8]? with
  | none => exact ⟨nofun, nofun⟩
  | some byte =>
    constructor
    · intro found
      cases found
      exact ⟨byte, rfl, rfl⟩
    · rintro ⟨_, same, rfl⟩
      cases same
      rfl

section Offsets

variable {schema : Schema} {i j : Nat} {column : Column}

private theorem slotBytes_append (front back : List Column) :
    slotBytes (front ++ back) = slotBytes front + slotBytes back := by
  rw [slotBytes, List.map_append, List.sum_append]
  rfl

private theorem slotBytes_take_succ {columns : List Column} (here : columns[i]? = some column) :
    slotBytes (columns.take (i + 1)) = slotBytes (columns.take i) + slotWidth column.type := by
  rw [List.take_add_one, here, slotBytes_append]
  rfl

/-- The slots lie one after another in the fixed part. -/
theorem slotOffset_add_le (here : schema.columns[i]? = some column) (before : i < j) :
    slotOffset schema i + slotWidth column.type ≤ slotOffset schema j := by
  have more : schema.columns.take j =
      schema.columns.take (i + 1) ++ (schema.columns.take j).drop (i + 1) := by
    have split := List.take_append_drop (i + 1) (schema.columns.take j)
    rw [List.take_take, Nat.min_eq_left before] at split
    exact split.symm
  unfold slotOffset
  rw [more, slotBytes_append, slotBytes_take_succ here]
  omega

theorem slotOffset_end_le (here : schema.columns[i]? = some column) :
    slotOffset schema i + slotWidth column.type ≤
      nullBitmapBytes schema + fixedPartBytes schema := by
  have inside := (List.getElem?_eq_some_iff.mp here).1
  have below := slotOffset_add_le here inside
  rwa [slotOffset, slotOffset, List.take_length] at below

theorem le_slotOffset (schema : Schema) (i : Nat) : nullBitmapBytes schema ≤ slotOffset schema i :=
  Nat.le_add_right _ _

/-- A column's bit lies in the bitmap. -/
theorem bit_lt (inside : i < schema.columns.length) : i / 8 < nullBitmapBytes schema := by
  unfold nullBitmapBytes
  omega

end Offsets

/-- A text that lies in the variable part. -/
def textOf (pair : Column × Field) : Text :=
  if pair.2.isNull then [] else if pair.1.type = .kText then pair.2.text else []

def textsOf (pairs : List (Column × Field)) : Text := pairs.flatMap textOf

/-- A slot of a value, before which texts of `voff` bytes were written. -/
def slotOf (type : ColType) (field : Field) (voff : Nat) : List UInt8 :=
  match type with
  | .kInt64 => leBytes 8 field.i64.toUInt64.toNat
  | .kInt32 => leBytes 4 field.i64.toInt32.toUInt32.toNat
  | .kBool => [if field.i64 = 0 then 0 else 1]
  | .kDouble => leBytes 8 field.f64.bits.toNat
  | .kText => leBytes 2 voff.toUInt16.toNat ++ leBytes 2 field.text.length.toUInt16.toNat

private theorem length_slotOf (type : ColType) (field : Field) (voff : Nat) :
    (slotOf type field voff).length = slotWidth type := by
  cases type <;> simp [slotOf, slotWidth, fixedWidth]

/-- What the columns done so far have written. -/
structure Written (schema : Schema) (done : List (Column × Field)) (out var : List UInt8) :
    Prop where
  columns : done.map Prod.fst = schema.columns.take done.length
  length : out.length = nullBitmapBytes schema + fixedPartBytes schema
  nulls : ∀ j < schema.columns.length,
    nullAt out j = .ok ((done[j]?.map fun pair => pair.2.isNull).getD false)
  slots : ∀ j column field, done[j]? = some (column, field) → field.isNull = false →
    slice out (slotOffset schema j) (slotWidth column.type) =
      some (slotOf column.type field (textsOf (done.take j)).length)
  var_eq : var = textsOf done

def tooLong : Text := bytes "text too long for a 16-bit length"

section Write

variable {schema : Schema} {done : List (Column × Field)} {out var : List UInt8}
  {column : Column} {field : Field}

private theorem testBit_marked (byte : UInt8) {k : Nat} (small : k < 8) (j : Nat) :
    (byte ||| (1 <<< k).toUInt8).toNat.testBit j = (byte.toNat.testBit j || decide (k = j)) := by
  have power : 2 ^ k ≤ 2 ^ 7 := Nat.pow_le_pow_right (by decide) (by omega)
  have mark : ((1 <<< k).toUInt8).toNat = 2 ^ k := by
    rw [Nat.toUInt8, UInt8.toNat_ofNat', Nat.one_shiftLeft]
    exact Nat.mod_eq_of_lt (Nat.lt_of_le_of_lt power (by decide))
  rw [UInt8.toNat_or, mark, Nat.testBit_or, Nat.testBit_two_pow]

/-- A column's bit after another column was marked. -/
theorem nullAt_marked {out out' : List UInt8} {byte : UInt8} {i j : Nat} {isNull : Bool}
    (found : out[i / 8]? = some byte)
    (wrote : overwrite out (i / 8) [byte ||| (1 <<< (i % 8)).toUInt8] = some out')
    (before : nullAt out j = .ok isNull) : nullAt out' j = .ok (isNull || decide (i = j)) := by
  obtain ⟨byte', found', bit⟩ := nullAt_iff.mp before
  rw [nullAt_iff]
  by_cases same : i / 8 = j / 8
  · rw [← same, found] at found'
    cases found'
    refine ⟨_, ?_, testBit_marked byte (Nat.mod_lt i (by decide)) (j % 8) |>.trans ?_⟩
    · rw [getElem?_overwrite wrote, ← same, if_pos ⟨Nat.le_refl _, Nat.lt_succ_self _⟩,
        Nat.sub_self]
      rfl
    · rw [bit]
      refine congrArg (isNull || ·) (decide_eq_decide.mpr ?_)
      omega
  · refine ⟨byte', ?_, ?_⟩
    · rw [getElem?_overwrite_outside wrote (by rw [List.length_singleton]; omega), found']
    · rw [bit, decide_eq_false (by rintro rfl; exact same rfl), Bool.or_false]

/-- The bits stay where only slots are written. -/
theorem nullAt_congr {out out' : List UInt8} {j : Nat} (same : out'[j / 8]? = out[j / 8]?) :
    nullAt out' j = nullAt out j := by
  unfold nullAt byteAt
  rw [same]

theorem textsOf_append (front back : List (Column × Field)) :
    textsOf (front ++ back) = textsOf front ++ textsOf back := List.flatMap_append

private theorem textsOf_concat (done : List (Column × Field)) (pair : Column × Field) :
    textsOf (done ++ [pair]) = textsOf done ++ textOf pair := by
  rw [textsOf_append, textsOf, textsOf, List.flatMap_singleton]

private theorem Written.columns_concat (written : Written schema done out var)
    (here : schema.columns[done.length]? = some column) :
    (done ++ [(column, field)]).map Prod.fst =
      schema.columns.take (done ++ [(column, field)]).length := by
  rw [List.map_append, written.columns, List.length_append, List.length_singleton, List.take_add_one,
    here]
  rfl

/-- A NULL is a bit. -/
theorem Written.null (written : Written schema done out var)
    (here : schema.columns[done.length]? = some column) (null : field.isNull = true) :
    ∃ out', encodeColumn schema (out, var) done.length column.type field = .ok (out', var) ∧
      Written schema (done ++ [(column, field)]) out' var := by
  have inside := (List.getElem?_eq_some_iff.mp here).1
  have bit := bit_lt inside
  have room : done.length / 8 < out.length := by
    have length := written.length
    omega
  obtain ⟨byte, found⟩ : ∃ byte, out[done.length / 8]? = some byte :=
    ⟨_, List.getElem?_eq_getElem room⟩
  obtain ⟨out', wrote⟩ : ∃ out',
      overwrite out (done.length / 8) [byte ||| (1 <<< (done.length % 8)).toUInt8] = some out' :=
    ⟨_, overwrite_eq room⟩
  refine ⟨out', ?_, written.columns_concat here, ?_, ?_, ?_, ?_⟩
  · simp only [encodeColumn, null, if_true, byteAt, within_some found, ok_bind, storeByte,
      within_some wrote]
    rfl
  · rw [length_overwrite wrote, written.length]
  · intro j below
    rw [nullAt_marked found wrote (written.nulls j below)]
    refine congrArg Except.ok ?_
    rcases Nat.lt_trichotomy j done.length with earlier | same | later
    · rw [List.getElem?_append_left earlier, decide_eq_false (by omega), Bool.or_false]
    · subst same
      rw [List.getElem?_concat_length, decide_eq_true rfl, Bool.or_true]
      exact null.symm
    · rw [List.getElem?_eq_none (by omega), List.getElem?_eq_none (by simp; omega),
        decide_eq_false (by omega), Bool.or_false]
  · intro j column' field' found' value
    rcases Nat.lt_or_ge j done.length with earlier | later
    · rw [List.getElem?_append_left earlier] at found'
      rw [slice_overwrite_of_disjoint wrote (Or.inr (by
          have bitmap := le_slotOffset schema j
          rw [List.length_singleton]
          omega)), written.slots j column' field' found' value,
        List.take_append_of_le_length (Nat.le_of_lt earlier)]
    · have last : j = done.length := by
        have below := (List.getElem?_eq_some_iff.mp found').1
        rw [List.length_append, List.length_singleton] at below
        omega
      subst last
      rw [List.getElem?_concat_length] at found'
      cases found'
      rw [null] at value
      cases value
  · rw [textsOf_concat, written.var_eq, textOf, if_pos null, List.append_nil]

/-- A value's slot, and its text after the others. -/
theorem Written.value (written : Written schema done out var)
    (here : schema.columns[done.length]? = some column) (value : field.isNull = false)
    {out' : List UInt8}
    (wrote : overwrite out (slotOffset schema done.length)
      (slotOf column.type field var.length) = some out') :
    Written schema (done ++ [(column, field)]) out' (var ++ textOf (column, field)) := by
  have width := length_slotOf column.type field var.length
  refine ⟨written.columns_concat here, ?_, ?_, ?_, ?_⟩
  · rw [length_overwrite wrote, written.length]
  · intro j below
    have bit := bit_lt below
    have bitmap := le_slotOffset schema done.length
    rw [nullAt_congr (getElem?_overwrite_outside wrote (Or.inl (by omega))), written.nulls j below]
    refine congrArg Except.ok ?_
    rcases Nat.lt_trichotomy j done.length with earlier | same | later
    · rw [List.getElem?_append_left earlier]
    · subst same
      rw [List.getElem?_concat_length, List.getElem?_eq_none (Nat.le_refl _)]
      exact value.symm
    · rw [List.getElem?_eq_none (by omega), List.getElem?_eq_none (by simp; omega)]
  · intro j column' field' found' value'
    rcases Nat.lt_or_ge j done.length with earlier | later
    · rw [List.getElem?_append_left earlier] at found'
      have sameColumn : schema.columns[j]? = some column' := by
        have both := congrArg (fun columns => columns[j]?) written.columns
        rw [List.getElem?_map, found', List.getElem?_take_of_lt earlier] at both
        exact both.symm
      rw [slice_overwrite_of_disjoint wrote (Or.inl (slotOffset_add_le sameColumn earlier)),
        written.slots j column' field' found' value',
        List.take_append_of_le_length (Nat.le_of_lt earlier)]
    · have last : j = done.length := by
        have below := (List.getElem?_eq_some_iff.mp found').1
        rw [List.length_append, List.length_singleton] at below
        omega
      subst last
      rw [List.getElem?_concat_length] at found'
      cases found'
      rw [← width, slice_overwrite_self wrote, List.take_left, written.var_eq]
  · rw [textsOf_concat, written.var_eq]

private theorem encodeColumn_value (i : Nat) (value : field.isNull = false)
    (short : column.type = .kText → field.text.length ≤ 0xFFFF)
    {out' : List UInt8}
    (wrote : overwrite out (slotOffset schema i) (slotOf column.type field var.length) = some out') :
    encodeColumn schema (out, var) i column.type field =
      .ok (out', var ++ textOf (column, field)) := by
  unfold encodeColumn textOf
  dsimp only
  rw [value]
  cases type : column.type <;> rw [type] at wrote <;> simp only [slotOf] at wrote
  case kText =>
    obtain ⟨half, first, second⟩ := overwrite_append wrote
    rw [length_leBytes] at second
    simp only [Bool.false_eq_true, if_false, if_true, checkThat_true (decide_eq_true (short type)),
      ok_bind, store, within_some first, within_some second]
    rfl
  all_goals
    simp only [Bool.false_eq_true, if_false, store, storeByte, within_some wrote, ok_bind,
      reduceCtorEq, List.append_nil]
    rfl

/-- A text that a 16-bit length does not hold is refused. -/
theorem encodeColumn_long (state : List UInt8 × List UInt8) (i : Nat) (value : field.isNull = false)
    (text : column.type = .kText) (long : 0xFFFF < field.text.length) :
    encodeColumn schema state i column.type field = .error (.failed tooLong) := by
  have fails : checkThat (field.text.length ≤ 0xFFFF) (bytes "text too long for a 16-bit length") =
      .error (.failed tooLong) := if_neg (by simpa using long)
  unfold encodeColumn
  dsimp only
  rw [value, text]
  simp only [Bool.false_eq_true, if_false, fails]
  rfl

private theorem encodeColumn_written (written : Written schema done out var)
    (here : schema.columns[done.length]? = some column) (field : Field) :
    (∃ out' var', encodeColumn schema (out, var) done.length column.type field = .ok (out', var') ∧
        Written schema (done ++ [(column, field)]) out' var') ∨
      encodeColumn schema (out, var) done.length column.type field = .error (.failed tooLong) := by
  by_cases null : field.isNull = true
  · obtain ⟨out', wrote, after⟩ := written.null here null
    exact Or.inl ⟨out', var, wrote, after⟩
  · have value : field.isNull = false := by simpa using null
    by_cases long : column.type = .kText ∧ 0xFFFF < field.text.length
    · exact Or.inr (encodeColumn_long (out, var) done.length value long.1 long.2)
    · have room : slotOffset schema done.length +
          (slotOf column.type field var.length).length ≤ out.length := by
        rw [length_slotOf, written.length]
        exact slotOffset_end_le here
      have wrote := overwrite_eq room
      exact Or.inl ⟨_, _, encodeColumn_value _ value
        (fun text => Nat.not_lt.mp fun past => long ⟨text, past⟩) wrote,
        written.value here value wrote⟩

/-- The loop writes every column, or finds a text that is too long. -/
theorem encodeColumns_written {todo : List (Column × Field)} (written : Written schema done out var)
    (all : (done ++ todo).map Prod.fst = schema.columns) :
    (∃ out' var', encodeColumns schema done.length todo (out, var) = .ok (out', var') ∧
        Written schema (done ++ todo) out' var') ∨
      encodeColumns schema done.length todo (out, var) = .error (.failed tooLong) := by
  induction todo generalizing done out var with
  | nil => exact Or.inl ⟨out, var, rfl, by rwa [List.append_nil]⟩
  | cons pair rest ih =>
    obtain ⟨column, field⟩ := pair
    have here : schema.columns[done.length]? = some column := by
      rw [← all, List.map_append, List.getElem?_append_right (by rw [List.length_map]),
        List.length_map, Nat.sub_self]
      rfl
    unfold encodeColumns
    rcases encodeColumn_written written here field with ⟨out', var', wrote, after⟩ | failed
    · have later := ih after (by rwa [List.append_assoc, List.singleton_append])
      rw [List.length_append, List.length_singleton, List.append_assoc,
        List.singleton_append] at later
      rw [wrote]
      exact later
    · rw [failed]
      exact Or.inr rfl

end Write

/-- What a record holds of a row. -/
structure Encoded (schema : Schema) (row : Row) (rec : List UInt8) : Prop where
  length : rec.length = nullBitmapBytes schema + fixedPartBytes schema +
    (textsOf (schema.columns.zip row)).length
  count : row.length = schema.columns.length
  nulls : ∀ j field, row[j]? = some field → nullAt rec j = .ok field.isNull
  slots : ∀ j column field, schema.columns[j]? = some column → row[j]? = some field →
    field.isNull = false → slice rec (slotOffset schema j) (slotWidth column.type) =
      some (slotOf column.type field (textsOf ((schema.columns.zip row).take j)).length)
  texts : slice rec (nullBitmapBytes schema + fixedPartBytes schema)
    (textsOf (schema.columns.zip row)).length = some (textsOf (schema.columns.zip row))

private theorem blank_written (schema : Schema) :
    Written schema [] (List.replicate (nullBitmapBytes schema + fixedPartBytes schema) 0) [] := by
  refine ⟨rfl, List.length_replicate, fun j below => ?_, nofun, rfl⟩
  have bit := bit_lt below
  rw [nullAt_iff]
  exact ⟨0, List.getElem?_replicate_of_lt (by omega), Nat.zero_testBit _⟩

theorem pair_at {schema : Schema} {row : Row} {j : Nat} {column : Column} {field : Field}
    (isColumn : schema.columns[j]? = some column) (isField : row[j]? = some field) :
    (schema.columns.zip row)[j]? = some (column, field) :=
  List.getElem?_zip_eq_some.mpr ⟨isColumn, isField⟩

theorem Written.encoded {schema : Schema} {row : Row} {out var : List UInt8}
    (count : row.length = schema.columns.length)
    (written : Written schema (schema.columns.zip row) out var) :
    Encoded schema row (out ++ var) := by
  refine ⟨?_, count, ?_, ?_, ?_⟩
  · rw [List.length_append, written.length, written.var_eq]
  · intro j field here
    have below : j < schema.columns.length := count ▸ (List.getElem?_eq_some_iff.mp here).1
    have bit := bit_lt below
    have length := written.length
    rw [nullAt_congr (List.getElem?_append_left (by omega)), written.nulls j below,
      pair_at (List.getElem?_eq_getElem below) here]
    rfl
  · intro j column field isColumn isField value
    exact slice_append (written.slots j column field (pair_at isColumn isField) value) var
  · rw [← written.length, written.var_eq]
    have middle := slice_middle out (textsOf (schema.columns.zip row)) []
    rwa [List.append_nil] at middle

/-- A row of as many fields as there are columns is encoded, or one of its texts is refused. -/
theorem encode_spec {schema : Schema} {row : Row} (count : row.length = schema.columns.length) :
    (∃ rec, encode schema row = .ok rec ∧ Encoded schema row rec) ∨
      encode schema row = .error (.failed tooLong) := by
  unfold encode
  rw [checkThat_true (decide_eq_true count), ok_bind]
  rcases @encodeColumns_written schema [] _ _ (schema.columns.zip row) (blank_written schema)
    (List.map_fst_zip (Nat.le_of_eq count.symm)) with ⟨out, var, wrote, written⟩ | failed
  · refine Or.inl ⟨out ++ var, ?_, written.encoded count⟩
    rw [List.length_nil] at wrote
    simp only [wrote]
    rfl
  · rw [List.length_nil] at failed
    simp only [failed]
    exact Or.inr rfl

end Labdb.Record
