import Labdb.Exec.Select
import Labdb.Query.AccessRows
import Labdb.Query.Room
import Labdb.Record.Decode

/-! A batch that is narrowed by a comparison keeps the rows for which the row path's test
holds. -/

namespace Labdb.Exec

open Labdb.Data Labdb.Query Labdb.Record Labdb.Sql

/-- A batch that can be read: rows of these types, and every live row at a place that each
column has. -/
structure Sound (types : List ColType) (batch : Batch) : Prop extends batch.Ready types where
  room : batch.size ≤ batch.room
  listed : batch.selected = true → batch.live ≤ batch.sel.length
  inside : ∀ i ∈ batch.liveRows, i < batch.size

section Reads

variable {column : ColumnVector} {i : Nat}

theorem within_getElem {α : Type} {items : List α} (inside : i < items.length) (default : α) :
    within items[i]? = .ok (items.getD i default) := by
  rw [List.getD_eq_getElem?_getD, List.getElem?_eq_getElem inside]
  rfl

private theorem readNull_eq (has : column.Has i) : readNull column i = .ok (column.nullAt i) :=
  within_getElem has.null false

private theorem readText_eq (has : column.Has i) (type : column.type = .kText) :
    readText column i = .ok (column.textAt i) := by
  have value := has.value
  rw [ColumnVector.capacity, type] at value
  exact within_getElem value []

private theorem readDouble_eq (has : column.Has i) (type : column.type = .kDouble) :
    readDouble column i = .ok (column.doubleAt i) := by
  have value := has.value
  rw [ColumnVector.capacity, type] at value
  exact within_getElem value ⟨0⟩

private theorem readInt_eq (has : column.Has i) (noText : column.type ≠ .kText)
    (noDouble : column.type ≠ .kDouble) : readInt column i = .ok (column.intAt i) := by
  have value : i < column.ints.length := by
    have value := has.value
    unfold ColumnVector.capacity at value
    split at value
    · rename_i text
      exact absurd text noText
    · rename_i double
      exact absurd double noDouble
    · exact value
  exact within_getElem value 0

private theorem readField_eq (has : column.Has i) : readField column i = .ok (column.get i) := by
  unfold readField ColumnVector.get
  rw [readNull_eq has, ok_bind]
  have texts := readText_eq has
  have doubles := readDouble_eq has
  have ints := readInt_eq has
  cases type : column.type with
  | kText =>
    cases column.nullAt i with
    | true => rfl
    | false =>
      dsimp only
      rw [if_neg Bool.false_ne_true, texts type]
      rfl
  | kDouble =>
    cases column.nullAt i with
    | true => rfl
    | false =>
      dsimp only
      rw [if_neg Bool.false_ne_true, doubles type]
      rfl
  | kInt64 | kInt32 | kBool =>
    cases column.nullAt i with
    | true => rfl
    | false =>
      dsimp only
      rw [if_neg Bool.false_ne_true, ints (type ▸ nofun) (type ▸ nofun)]
      rfl

private theorem get_isNull (column : ColumnVector) (i : Nat) :
    (column.get i).isNull = column.nullAt i := by
  unfold ColumnVector.get
  cases column.type <;> rfl

private theorem get_type (column : ColumnVector) (i : Nat) : (column.get i).type = column.type := by
  unfold ColumnVector.get
  cases column.type <;> rfl

private theorem get_text (type : column.type = .kText) (value : column.nullAt i = false) :
    (column.get i).text = column.textAt i := by
  simp [ColumnVector.get, type, value]

private theorem get_f64 (type : column.type = .kDouble) (value : column.nullAt i = false) :
    (column.get i).f64 = column.doubleAt i := by
  simp only [ColumnVector.get, type, value, Field.f64, Bool.false_eq_true, if_false]
  rfl

private theorem get_i64 (noText : column.type ≠ .kText) (noDouble : column.type ≠ .kDouble)
    (value : column.nullAt i = false) : (column.get i).i64 = column.intAt i := by
  unfold ColumnVector.get
  split
  · rename_i text
    exact absurd text noText
  · rename_i double
    exact absurd double noDouble
  · simp [value]

private theorem readAsDouble_eq (has : column.Has i) (noText : column.type ≠ .kText)
    (value : column.nullAt i = false) :
    readAsDouble column i = .ok (column.get i).asDouble := by
  unfold readAsDouble Field.asDouble
  rw [get_type]
  by_cases double : column.type = .kDouble
  · rw [if_pos double, if_pos double, readDouble_eq has double, get_f64 double value]
  · rw [if_neg double, if_neg double, readInt_eq has noText double, ok_bind,
      get_i64 noText double value]
    rfl

end Reads

section Rows

variable {types : List ColType} {batch : Batch}

theorem Sound.has (sound : Sound types batch) {i : Nat} (live : i ∈ batch.liveRows)
    {column : ColumnVector} (here : column ∈ batch.cols) : column.Has i :=
  sound.toReady.has (Nat.lt_of_lt_of_le (sound.inside i live) sound.room) here

private theorem readRow_eq {i : Nat} (has : ∀ column ∈ batch.cols, column.Has i) :
    readRow batch i = .ok (batch.getRow i) :=
  mapM_map fun column here => readField_eq (has column here)

theorem Sound.readPosition_eq (sound : Sound types batch) {k : Nat} (inside : k < batch.count) :
    readPosition batch.selected batch.sel k = .ok (batch.row k) := by
  unfold readPosition Batch.row
  unfold Batch.count at inside
  cases selected : batch.selected with
  | false => rfl
  | true =>
    rw [selected, if_pos rfl] at inside
    exact within_getElem (Nat.lt_of_lt_of_le inside (sound.listed selected)) 0

/-- A reader gets the live rows. -/
theorem Sound.readRows_eq (sound : Sound types batch) : readRows batch = .ok batch.rows := by
  rw [readRows, Batch.rows, Batch.liveRows, List.map_map]
  refine mapM_map fun k member => ?_
  have inside := List.mem_range.mp member
  rw [sound.readPosition_eq inside, ok_bind]
  exact readRow_eq fun column here => sound.has (List.mem_map_of_mem member) here

end Rows

/-- The type of the right side of a comparison. -/
def rightType (types : List ColType) (c : BoundComparison) : ColType :=
  if c.rightIsColumn then types.getD c.right .kInt64 else c.literal.type

/-- A comparison of two sides of one class, for rows of these types. -/
structure Typed (types : List ColType) (c : BoundComparison) : Prop where
  left : c.left < types.length
  right : c.rightIsColumn = true → c.right < types.length
  asText : c.asText = decide (types.getD c.left .kInt64 = .kText)
  rightText : c.asText = decide (rightType types c = .kText)
  asDouble : c.asDouble = (decide (types.getD c.left .kInt64 = .kDouble) ||
    decide (rightType types c = .kDouble))
  literal : c.literal.Ordered

/-- A row of these types without a NaN. -/
structure TypedRow (types : List ColType) (row : Row) : Prop where
  types_eq : row.map Field.type = types
  ordered : ∀ field ∈ row, field.Ordered

/-- A magnitude that is infinity's at most, with a sign. -/
theorem isNaN_signed (negative : Prop) [Decidable negative] {magnitude : Nat}
    (small : magnitude ≤ 2047 * 2 ^ 52) :
    (Double.mk (BitVec.ofNat 64 (if negative then 2 ^ 63 + magnitude else magnitude))).isNaN =
      false := by
  refine decide_eq_false fun ⟨exponent, fraction⟩ => ?_
  unfold Double.exponent at exponent
  unfold Double.fraction at fraction
  dsimp only at exponent fraction
  rw [BitVec.toNat_ofNat] at exponent fraction
  split at exponent <;> rename_i sign
  · rw [if_pos sign] at fraction
    omega
  · rw [if_neg sign] at fraction
    omega

theorem isNaN_ofRat (value : ℚ) : (Double.ofRat value).isNaN = false := by
  unfold Double.ofRat
  dsimp only
  split
  · decide
  · exact isNaN_signed _ (Nat.min_le_right _ _)

/-- A double for a field that is no NaN. -/
theorem isNaN_asDouble {field : Field} (ordered : field.Ordered) :
    field.asDouble.isNaN = false := by
  unfold Field.asDouble
  split
  · rename_i double
    exact ordered double
  · exact isNaN_ofRat _

/-- Without a NaN, the two ways to compare doubles agree. -/
theorem doubleHolds_eq {x y : Double} (xNumber : x.isNaN = false) (yNumber : y.isNaN = false)
    (op : TokenType) : doubleHolds op x y =
      holds op (if y.lt x then .gt else if x.lt y then .lt else .eq) := by
  rw [compareRanks xNumber yNumber]
  have less : ∀ {x y : Double}, x.isNaN = false → y.isNaN = false →
      x.lt y = decide (x.rank < y.rank) := by
    intro x y xNumber yNumber
    rw [Double.lt, xNumber, yNumber]
    rfl
  have equal : x.eq y = decide (x.rank = y.rank) := by
    rw [Double.eq, xNumber, yNumber]
    rfl
  rcases Int.lt_trichotomy x.rank y.rank with before | same | after
  · have order : compare x.rank y.rank = .lt := Std.compare_eq_lt.mpr before
    rw [order]
    cases op <;> simp only [doubleHolds, holds, less xNumber yNumber, less yNumber xNumber, equal] <;>
      simp <;> omega
  · have order : compare x.rank y.rank = .eq := Std.compare_eq_iff_eq.mpr same
    rw [order]
    cases op <;> simp only [doubleHolds, holds, less xNumber yNumber, less yNumber xNumber, equal] <;>
      simp <;> omega
  · have order : compare x.rank y.rank = .gt := Std.compare_eq_gt.mpr after
    rw [order]
    cases op <;> simp only [doubleHolds, holds, less xNumber yNumber, less yNumber xNumber, equal] <;>
      simp <;> omega

private theorem plain_type (field : Field) : field.plain.type = field.type := rfl

theorem compareFields_plain {a b : Field} {asText asDouble : Bool} (aText : asText = decide (a.type = .kText))
    (bText : asText = decide (b.type = .kText)) (aValue : a.isNull = false)
    (bValue : b.isNull = false) :
    compareFields a.plain b.plain asText asDouble = compareFields a b asText asDouble := by
  have plain_text : ∀ {field : Field}, field.isNull = false → field.type = .kText →
      field.plain.text = field.text := by
    intro field value text
    simp [Field.plain, value, text]
  have plain_i64 : ∀ {field : Field}, field.isNull = false → field.type ≠ .kText →
      field.plain.i64 = field.i64 := by
    intro field value noText
    simp [Field.plain, value, noText]
  unfold compareFields
  cases asText with
  | true =>
    rw [if_pos rfl, if_pos rfl, plain_text aValue (of_decide_eq_true aText.symm),
      plain_text bValue (of_decide_eq_true bText.symm)]
  | false =>
    have aNumber := plain_i64 aValue (of_decide_eq_false aText.symm)
    have bNumber := plain_i64 bValue (of_decide_eq_false bText.symm)
    simp only [Bool.false_eq_true, if_false, Field.asDouble, Field.f64, plain_type, aNumber,
      bNumber]
    rfl

theorem test_plain {c : BoundComparison} {a b : Field} (aText : c.asText = decide (a.type = .kText))
    (bText : c.asText = decide (b.type = .kText)) : c.test a.plain b.plain = c.test a b := by
  have same : ∀ field : Field, field.plain.isNull = field.isNull := fun _ => rfl
  unfold BoundComparison.test
  rw [same, same]
  cases isNull : (a.isNull || b.isNull) with
  | true => rw [Bool.not_true, Bool.false_and, Bool.false_and]
  | false =>
    obtain ⟨aValue, bValue⟩ := Bool.or_eq_false_iff.mp isNull
    rw [compareFields_plain aText bText aValue bValue]

/-- A comparison looks at nothing but the values. -/
theorem eval_plain {types : List ColType} {c : BoundComparison} {row : Row} (typed : Typed types c)
    (types_eq : row.map Field.type = types) : eval c (row.map Field.plain) = eval c row := by
  have at_ : ∀ position, position < types.length →
      (Row.at row position).type = types.getD position .kInt64 ∧
        Row.at (row.map Field.plain) position = (Row.at row position).plain := by
    intro position inside
    rw [← types_eq, List.length_map] at inside
    have here := List.getElem?_eq_getElem inside
    rw [← types_eq]
    simp only [Row.at, List.getD_eq_getElem?_getD, List.getElem?_map, here, Option.map_some,
      Option.getD_some, and_self]
  obtain ⟨leftType, leftField⟩ := at_ c.left typed.left
  have aText : c.asText = decide ((Row.at row c.left).type = .kText) := by
    rw [leftType, typed.asText]
  have rightText := typed.rightText
  unfold rightType at rightText
  rw [eval, eval, leftField]
  cases isColumn : c.rightIsColumn with
  | true =>
    obtain ⟨type, field⟩ := at_ c.right (typed.right isColumn)
    rw [isColumn, if_pos rfl] at rightText
    rw [if_pos rfl, if_pos rfl, field]
    exact test_plain aText (by rw [type, rightText])
  | false =>
    rw [isColumn, if_neg Bool.false_ne_true] at rightText
    rw [if_neg Bool.false_ne_true, if_neg Bool.false_ne_true]
    have once := test_plain aText rightText
    have again := @test_plain c (Row.at row c.left).plain c.literal aText rightText
    rw [Field.plain_plain] at again
    exact again.symm.trans once

/-- What planning binds is typed. -/
theorem bind_typed {toChars : Double → Text} {schema : OutSchema} {c : Comparison}
    {b : BoundComparison} (bound : Query.bind toChars schema c = .ok b) (literal : c.literal.Ordered) :
    Typed (schema.map fun column => column.column.type) b := by
  have type_eq : ∀ position, position < schema.length →
      (schema.map fun column => column.column.type).getD position .kInt64 =
        typeAt schema position := by
    intro position inside
    rw [List.getD_eq_getElem?_getD, List.getElem?_map, typeAt, List.getElem?_eq_getElem inside]
    rfl
  have textOf : ∀ {a b : ColType}, typeClass a = typeClass b →
      decide (a = .kText) = decide (b = .kText) := by
    intro a b same
    cases a <;> cases b <;> first | rfl | cases same
  unfold Query.bind at bound
  split at bound
  · cases bound
  · obtain ⟨left, found, bound⟩ := ok_of_bind bound
    have inside := resolve_lt found
    dsimp only at bound
    split at bound
    · obtain ⟨right, foundRight, bound⟩ := ok_of_bind bound
      have insideRight := resolve_lt foundRight
      split at bound
      · cases bound
      · rename_i same
        cases bound
        have rightIs : ∀ c : BoundComparison, c.rightIsColumn = true → c.right = right →
            rightType (schema.map fun column => column.column.type) c = typeAt schema right := by
          rintro c isColumn rfl
          rw [rightType, if_pos isColumn, type_eq _ insideRight]
        refine ⟨by rwa [List.length_map], fun _ => by rwa [List.length_map], ?_, ?_, ?_,
          fun double => by cases double⟩
        · rw [type_eq left inside]
        · rw [rightIs _ rfl rfl]
          exact textOf (not_not.mp same)
        · rw [type_eq left inside, rightIs _ rfl rfl]
    · split at bound
      · cases bound
        refine ⟨by rwa [List.length_map], fun isColumn => absurd isColumn Bool.false_ne_true, ?_,
          rfl, ?_, fun _ => (by decide : Double.isNaN ⟨0⟩ = false)⟩
        · rw [type_eq left inside]
        · rw [type_eq left inside]
          exact (Bool.or_self _).symm
      · split at bound
        · cases bound
        · rename_i same
          cases bound
          refine ⟨by rwa [List.length_map], fun isColumn => absurd isColumn Bool.false_ne_true, ?_,
            ?_, ?_, literal⟩
          · rw [type_eq left inside]
          · exact textOf (not_not.mp same).symm
          · rw [type_eq left inside]
            rfl

section Test

variable {types : List ColType} {batch : Batch} {c : BoundComparison} {i : Nat}

/-- The field on the right of a comparison. -/
def rightField (c : BoundComparison) (right : Option ColumnVector) (i : Nat) : Field :=
  match right with
  | some column => column.get i
  | none => c.literal

/-- The test of a place that the columns have, where a literal is not NULL. -/
theorem testAt_eq {left : ColumnVector} {right : Option ColumnVector} (hasLeft : left.Has i)
    (hasRight : ∀ column, right = some column → column.Has i)
    (value : right = none → c.literal.isNull = false)
    (asText : c.asText = decide (left.type = .kText))
    (rightText : c.asText = decide ((rightField c right i).type = .kText))
    (asDouble : c.asDouble = (decide (left.type = .kDouble) ||
      decide ((rightField c right i).type = .kDouble)))
    (leftOrdered : (left.get i).Ordered) (rightOrdered : (rightField c right i).Ordered) :
    testAt c left right i = .ok (c.test (left.get i) (rightField c right i)) := by
  have nullRight : readRight readNull false right i = .ok (rightField c right i).isNull := by
    cases right with
    | none => exact congrArg Except.ok (value rfl).symm
    | some column =>
      rw [rightField, get_isNull]
      exact readNull_eq (hasRight column rfl)
  unfold testAt BoundComparison.test
  rw [readNull_eq hasLeft, ok_bind, nullRight, ok_bind, get_isNull]
  by_cases text : c.asText = true
  · have leftText : left.type = .kText := of_decide_eq_true (asText.symm.trans text)
    have fieldText := of_decide_eq_true (rightText.symm.trans text)
    rw [if_pos text]
    cases isNull : (left.nullAt i || (rightField c right i).isNull) with
    | true => rfl
    | false =>
      obtain ⟨leftValue, rightValue⟩ := Bool.or_eq_false_iff.mp isNull
      have textRight : readRight readText c.literal.text right i =
          .ok (rightField c right i).text := by
        cases right with
        | none => rfl
        | some column =>
          rw [rightField, get_isNull] at rightValue
          rw [rightField, get_type] at fieldText
          rw [rightField, get_text fieldText rightValue]
          exact readText_eq (hasRight column rfl) fieldText
      rw [if_neg Bool.false_ne_true, readText_eq hasLeft leftText, ok_bind, textRight, ok_bind,
        compareFields, if_pos text, get_text leftText leftValue]
      rfl
  · have leftNoText : left.type ≠ .kText := fun isText => text (asText.trans (decide_eq_true isText))
    have fieldNoText : (rightField c right i).type ≠ .kText :=
      fun isText => text (rightText.trans (decide_eq_true isText))
    rw [if_neg text]
    by_cases double : c.asDouble = true
    · rw [if_pos double]
      cases isNull : (left.nullAt i || (rightField c right i).isNull) with
      | true => rfl
      | false =>
        obtain ⟨leftValue, rightValue⟩ := Bool.or_eq_false_iff.mp isNull
        have doubleRight : readRight readAsDouble c.literal.asDouble right i =
            .ok (rightField c right i).asDouble := by
          cases right with
          | none => rfl
          | some column =>
            rw [rightField, get_isNull] at rightValue
            rw [rightField, get_type] at fieldNoText
            exact readAsDouble_eq (hasRight column rfl) fieldNoText rightValue
        rw [if_neg Bool.false_ne_true, readAsDouble_eq hasLeft leftNoText leftValue, ok_bind,
          doubleRight, ok_bind, compareFields, if_neg text, if_pos double,
          doubleHolds_eq (isNaN_asDouble leftOrdered) (isNaN_asDouble rightOrdered)]
        rfl
    · have noDoubles := asDouble.symm.trans (Bool.not_eq_true _ ▸ double)
      obtain ⟨leftNo, rightNo⟩ := Bool.or_eq_false_iff.mp noDoubles
      have leftNoDouble := of_decide_eq_false leftNo
      have fieldNoDouble := of_decide_eq_false rightNo
      have intRight : ∃ value, readRight readInt c.literal.i64 right i = .ok value ∧
          ((rightField c right i).isNull = false → value = (rightField c right i).i64) := by
        cases right with
        | none => exact ⟨_, rfl, fun _ => rfl⟩
        | some column =>
          rw [rightField, get_type] at fieldNoText fieldNoDouble
          refine ⟨_, readInt_eq (hasRight column rfl) fieldNoText fieldNoDouble, fun value => ?_⟩
          rw [rightField, get_isNull] at value
          exact (get_i64 fieldNoText fieldNoDouble value).symm
      obtain ⟨value, read, same⟩ := intRight
      rw [if_neg double, readInt_eq hasLeft leftNoText leftNoDouble, ok_bind, read, ok_bind]
      cases isNull : (left.nullAt i || (rightField c right i).isNull) with
      | true => rfl
      | false =>
        obtain ⟨leftValue, rightValue⟩ := Bool.or_eq_false_iff.mp isNull
        rw [compareFields, if_neg text, if_neg double, same rightValue,
          get_i64 leftNoText leftNoDouble leftValue]
        rfl

end Test

section Keep

variable {pred : Nat → Codec Bool} {p : Nat → Bool}

/-- The positions kept so far lie before those still to be read. -/
theorem keepLoop_eq {selected : Bool} (positions : List Nat) {k n : Nat} {sel : List Nat}
    (tests : ∀ i ∈ positions, pred i = .ok (p i))
    (reads : ∀ j < positions.length,
      readPosition selected sel (k + j) = .ok (positions.getD j 0))
    (behind : n ≤ k) (room : k + positions.length ≤ sel.length) :
    ∃ after, keepLoop pred selected positions.length k n sel =
        .ok (n + (positions.filter p).length, after) ∧ after.length = sel.length ∧
      after.take (n + (positions.filter p).length) = sel.take n ++ positions.filter p := by
  induction positions generalizing k n sel with
  | nil =>
    refine ⟨sel, rfl, rfl, ?_⟩
    rw [List.filter_nil, List.append_nil]
    rfl
  | cons i positions ih =>
    rw [List.length_cons] at room
    have inside : n < sel.length := by omega
    have first : readPosition selected sel k = .ok i := reads 0 (Nat.succ_pos _)
    have later : ∀ j < positions.length,
        readPosition selected (sel.set n i) (k + 1 + j) = .ok (positions.getD j 0) := by
      intro j below
      have next := reads (j + 1) (Nat.succ_lt_succ below)
      rw [← Nat.add_assoc, Nat.add_right_comm] at next
      rw [readPosition, List.getElem?_set_ne (by omega)]
      exact next
    obtain ⟨after, looped, length, taken⟩ :=
      @ih (k + 1) (if p i then n + 1 else n) (sel.set n i)
        (fun i here => tests i (List.mem_cons_of_mem _ here)) later (by split <;> omega)
        (by rw [List.length_set]; omega)
    have ran : keepLoop pred selected (positions.length + 1) k n sel =
        keepLoop pred selected positions.length (k + 1) (if p i then n + 1 else n)
          (sel.set n i) := by
      rw [keepLoop, first, ok_bind, setAt, if_pos (show n < sel.length from inside)]
      change (pred i >>= _) = _
      rw [tests i List.mem_cons_self, ok_bind]
    refine ⟨after, ?_, length.trans List.length_set, ?_⟩
    · rw [List.length_cons, ran, looped, List.filter_cons]
      cases p i with
      | true =>
        rw [if_pos rfl, if_pos rfl, List.length_cons, Nat.add_assoc, Nat.add_comm 1]
      | false => rfl
    · rw [List.filter_cons]
      cases passes : p i with
      | true =>
        rw [passes, if_pos rfl, List.take_add_one, List.take_set_of_le (Nat.le_refl n),
          List.getElem?_set_self inside, Option.toList_some, List.append_assoc] at taken
        rw [if_pos rfl, List.length_cons, Nat.add_comm (positions.filter p).length, ← Nat.add_assoc]
        exact taken
      | false =>
        rw [passes, if_neg Bool.false_ne_true, List.take_set_of_le (Nat.le_refl n)] at taken
        exact taken

theorem length_liveRows (batch : Batch) : batch.liveRows.length = batch.count := by
  rw [Batch.liveRows, List.length_map, List.length_range]

theorem length_rows (batch : Batch) : batch.rows.length = batch.count := by
  rw [Batch.rows, List.length_map, length_liveRows]

private theorem liveRows_selected {batch : Batch} (selected : batch.selected = true)
    (listed : batch.live ≤ batch.sel.length) : batch.liveRows = batch.sel.take batch.live := by
  refine List.ext_getElem ?_ fun k below _ => ?_
  · rw [length_liveRows, Batch.count, if_pos selected, List.length_take, Nat.min_eq_left listed]
  · rw [length_liveRows, Batch.count, if_pos selected] at below
    simp only [Batch.liveRows, List.getElem_map, List.getElem_range, Batch.row, selected, if_true,
      List.getElem_take]
    rw [List.getD_eq_getElem?_getD, List.getElem?_eq_getElem (by omega), Option.getD_some]

variable {types : List ColType} {batch : Batch}

private theorem Sound.count_le (sound : Sound types batch) : batch.count ≤ batch.sel.length := by
  have room := sound.room
  have sel := batch.room_le_sel
  have listed := sound.listed
  unfold Batch.count
  split
  · rename_i selected
    exact listed selected
  · omega

/-- The live rows that pass stay, in order. -/
theorem Sound.keepIf_eq (sound : Sound types batch)
    (tests : ∀ i ∈ batch.liveRows, pred i = .ok (p i)) :
    ∃ after, keepIf pred batch = .ok after ∧ Sound types after ∧ after.cols = batch.cols ∧
      after.liveRows = batch.liveRows.filter p := by
  have length := length_liveRows batch
  have room := sound.count_le
  have reads : ∀ j < batch.liveRows.length,
      readPosition batch.selected batch.sel (0 + j) = .ok (batch.liveRows.getD j 0) := by
    intro j below
    rw [Nat.zero_add, sound.readPosition_eq (length ▸ below), List.getD_eq_getElem?_getD,
      List.getElem?_eq_getElem below]
    simp [Batch.liveRows]
  obtain ⟨sel, looped, same, taken⟩ :=
    keepLoop_eq batch.liveRows tests reads (Nat.le_refl 0) (by omega)
  rw [Nat.zero_add] at looped taken
  have fewer := List.length_filter_le p batch.liveRows
  have listed : (batch.liveRows.filter p).length ≤ sel.length := by omega
  have live : Batch.liveRows { batch with
      selected := true, sel, live := (batch.liveRows.filter p).length } =
        batch.liveRows.filter p := by
    rw [liveRows_selected rfl listed]
    exact taken
  refine ⟨{ batch with selected := true, sel, live := (batch.liveRows.filter p).length }, ?_,
    ⟨⟨sound.types_eq, sound.backs⟩, ?_, fun _ => listed, ?_⟩, rfl, live⟩
  · unfold keepIf
    rw [← length, looped]
    rfl
  · have enough := sound.room
    rw [Batch.room_eq] at enough ⊢
    rw [same]
    exact enough
  · intro i member
    rw [live] at member
    exact sound.inside i (List.mem_of_mem_filter member)

end Keep

section Select

variable {types : List ColType} {batch : Batch} {c : BoundComparison}

theorem Sound.column (sound : Sound types batch) {position : Nat}
    (inside : position < types.length) :
    ∃ column, batch.cols[position]? = some column ∧ column ∈ batch.cols ∧
      column.type = types.getD position .kInt64 ∧
      ∀ i, Row.at (batch.getRow i) position = column.get i := by
  have length := congrArg List.length sound.types_eq
  rw [List.length_map] at length
  obtain ⟨column, here⟩ : ∃ column, batch.cols[position]? = some column :=
    ⟨_, List.getElem?_eq_getElem (by omega)⟩
  refine ⟨column, here, List.mem_of_getElem? here, ?_, fun i => ?_⟩
  · rw [← sound.types_eq, List.getD_eq_getElem?_getD, List.getElem?_map, here]
    rfl
  · rw [Row.at, Batch.getRow, List.getD_eq_getElem?_getD, List.getElem?_map, here]
    rfl

private theorem Sound.rightColumn_eq (sound : Sound types batch) (typed : Typed types c)
    (value : (!c.rightIsColumn && c.literal.isNull) = false) :
    ∃ right, rightColumn c batch = .ok right ∧ (∀ column, right = some column → column ∈ batch.cols) ∧
      (right = none → c.literal.isNull = false) ∧
      ∀ i, (rightField c right i).type = rightType types c ∧
        rightField c right i =
          if c.rightIsColumn then Row.at (batch.getRow i) c.right else c.literal := by
  unfold rightColumn rightType
  cases isColumn : c.rightIsColumn with
  | true =>
    obtain ⟨column, here, member, type, field⟩ := sound.column (typed.right isColumn)
    refine ⟨some column, ?_, fun other same => Option.some.inj same ▸ member, nofun, fun i => ⟨?_, ?_⟩⟩
    · rw [if_pos rfl, within_some here]
      rfl
    · exact (get_type column i).trans type
    · exact (field i).symm
  | false =>
    rw [isColumn] at value
    exact ⟨none, rfl, nofun, fun _ => value, fun _ => ⟨rfl, rfl⟩⟩

/-- A term keeps the rows for which it holds. -/
theorem Sound.select_eq (sound : Sound types batch) (typed : Typed types c)
    (ordered : ∀ row ∈ batch.rows, ∀ field ∈ row, field.Ordered) :
    ∃ after, select c batch = .ok after ∧ Sound types after ∧
      after.rows = batch.rows.filter (eval c) := by
  obtain ⟨left, isLeft, inLeft, leftType, leftField⟩ := sound.column typed.left
  unfold select
  by_cases empty : batch.count = 0
  · have nothing : batch.rows = [] := List.length_eq_zero_iff.mp (by rw [length_rows, empty])
    refine ⟨batch, if_pos empty, sound, ?_⟩
    rw [nothing, List.filter_nil]
  · rw [if_neg empty, within_some isLeft, ok_bind]
    cases null : (!c.rightIsColumn && c.literal.isNull) with
    | true =>
      have none_ : batch.rows.filter (eval c) = [] := by
        refine List.filter_eq_nil_iff.mpr fun row _ => ?_
        obtain ⟨noColumn, isNull⟩ := Bool.and_eq_true_iff.mp null
        rw [Bool.not_eq_true'] at noColumn
        rw [eval, noColumn, if_neg Bool.false_ne_true, BoundComparison.test, isNull, Bool.or_true]
        exact Bool.false_ne_true
      refine ⟨{ batch with selected := true, live := 0 }, if_pos rfl,
        ⟨⟨sound.types_eq, sound.backs⟩, sound.room, fun _ => Nat.zero_le _,
          fun _ live => absurd live List.not_mem_nil⟩, ?_⟩
      rw [none_]
      rfl
    | false =>
      obtain ⟨right, found, inRight, value, field⟩ := sound.rightColumn_eq typed null
      have tests : ∀ i ∈ batch.liveRows,
          testAt c left right i = .ok (eval c (batch.getRow i)) := by
        intro i live
        obtain ⟨rightType_, rightField_⟩ := field i
        have fields := ordered (batch.getRow i) (List.mem_map_of_mem live)
        have leftOrdered : (left.get i).Ordered := fields _ (List.mem_map_of_mem inLeft)
        have rightOrdered : (rightField c right i).Ordered := by
          cases right with
          | none => exact typed.literal
          | some column => exact fields _ (List.mem_map_of_mem (inRight column rfl))
        rw [eval, leftField, ← rightField_]
        refine testAt_eq (sound.has live inLeft) (fun column same => ?_) value ?_ ?_ ?_
          leftOrdered rightOrdered
        · exact sound.has live (inRight column same)
        · rw [leftType, typed.asText]
        · rw [rightType_, typed.rightText]
        · rw [leftType, rightType_, typed.asDouble]
      obtain ⟨after, kept, soundAfter, cols, live⟩ := sound.keepIf_eq tests
      refine ⟨after, ?_, soundAfter, ?_⟩
      · rw [if_neg Bool.false_ne_true, found, ok_bind, kept]
      · rw [Batch.rows, Batch.rows, live, List.filter_map]
        refine List.map_congr_left fun i _ => ?_
        rw [Batch.getRow, Batch.getRow, cols]

/-- The terms of a filter keep the rows for which all of them hold. -/
theorem Sound.selectAll_eq (sound : Sound types batch) {preds : List BoundComparison}
    (typed : ∀ pred ∈ preds, Typed types pred)
    (ordered : ∀ row ∈ batch.rows, ∀ field ∈ row, field.Ordered) :
    ∃ after, selectAll preds batch = .ok after ∧ Sound types after ∧
      after.rows = batch.rows.filter fun row => preds.all (eval · row) := by
  induction preds generalizing batch with
  | nil =>
    refine ⟨batch, rfl, sound, ?_⟩
    simp only [List.all_nil, List.filter_true]
  | cons pred preds ih =>
    obtain ⟨first, selected, soundFirst, rows⟩ :=
      sound.select_eq (typed pred List.mem_cons_self) ordered
    have orderedFirst : ∀ row ∈ first.rows, ∀ field ∈ row, field.Ordered := by
      intro row member
      rw [rows] at member
      exact ordered row (List.mem_of_mem_filter member)
    obtain ⟨after, others, soundAfter, rowsAfter⟩ :=
      ih soundFirst (fun other here => typed other (List.mem_cons_of_mem pred here)) orderedFirst
    have both : first.rows.filter (fun row => preds.all (eval · row)) =
        batch.rows.filter fun row => (pred :: preds).all (eval · row) := by
      rw [rows, List.filter_filter]
      simp only [List.all_cons, Bool.and_comm]
    unfold selectAll
    rw [selected, ok_bind]
    by_cases empty : first.count = 0
    · have nothing : first.rows = [] := List.length_eq_zero_iff.mp (by rw [length_rows, empty])
      refine ⟨first, if_pos empty, soundFirst, ?_⟩
      rw [← both, nothing, List.filter_nil]
    · exact ⟨after, (if_neg empty).trans others, soundAfter, rowsAfter.trans both⟩

end Select

end Labdb.Exec
