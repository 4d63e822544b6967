import Labdb.Data.Lists
import Labdb.Query.Batch

/-! What reading a column gives after it was written: at the row written, and at the others. -/

namespace Labdb.Query

open Labdb.Data

theorem length_grow {α : Type} (fill : α) (items : List α) (n : Nat) :
    (grow fill items n).length = max items.length n := by
  rw [grow, List.length_append, List.length_replicate]
  omega

/-- A field with its value and nothing else: of a NULL, its type. -/
def Field.plain (field : Field) : Field where
  type := field.type
  isNull := field.isNull
  i64 := if field.isNull || field.type = .kText then 0 else field.i64
  text := if field.isNull || field.type ≠ .kText then [] else field.text

theorem Field.plain_plain (field : Field) : field.plain.plain = field.plain := by
  unfold plain
  cases field.isNull <;> cases field.type <;> rfl

namespace ColumnVector

variable {column source : ColumnVector} {i j k n : Nat}

/-- How many values the array of the column's type holds. -/
def capacity (column : ColumnVector) : Nat :=
  match column.type with
  | .kText => column.texts.length
  | .kDouble => column.doubles.length
  | _ => column.ints.length

/-- Row `i` may be read and written. -/
structure Has (column : ColumnVector) (i : Nat) : Prop where
  null : i < column.nulls.length
  value : i < column.capacity

/-- The column holds `n` rows and no more. -/
structure Holds (column : ColumnVector) (n : Nat) : Prop where
  nulls : column.nulls.length = n
  values : column.capacity = n

theorem Holds.has (holds : column.Holds n) (inside : i < n) : column.Has i :=
  ⟨holds.nulls.symm ▸ inside, holds.values.symm ▸ inside⟩

@[simp] theorem type_copyFrom : (column.copyFrom i source j).type = column.type := by
  unfold copyFrom
  cases column.type <;> rfl

@[simp] theorem nulls_copyFrom :
    (column.copyFrom i source j).nulls = column.nulls.set i (source.nullAt j) := by
  unfold copyFrom
  cases column.type <;> rfl

@[simp] theorem capacity_copyFrom : (column.copyFrom i source j).capacity = column.capacity := by
  unfold copyFrom capacity
  cases type : column.type <;> simp

@[simp] theorem type_pushFrom : (column.pushFrom source j).type = column.type := by
  unfold pushFrom
  cases column.type <;> rfl

theorem Holds.copyFrom (holds : column.Holds n) : (column.copyFrom i source j).Holds n :=
  ⟨by rw [nulls_copyFrom, List.length_set, holds.nulls], capacity_copyFrom.trans holds.values⟩

theorem Holds.pushFrom (holds : column.Holds n) : (column.pushFrom source j).Holds (n + 1) := by
  obtain ⟨nulls, values⟩ := holds
  unfold ColumnVector.pushFrom
  unfold capacity at values
  cases type : column.type <;> rw [type] at values <;>
    refine ⟨by simp [nulls], ?_⟩ <;> simp [capacity, values]

/-- The row that was copied is the one of the source. -/
theorem get_copyFrom (has : column.Has i) (same : column.type = source.type) (k : Nat) :
    (column.copyFrom i source j).get k = if i = k then source.get j else column.get k := by
  obtain ⟨null, value⟩ := has
  unfold get
  rw [type_copyFrom]
  have nullAt_ : (column.copyFrom i source j).nullAt k =
      if i = k then source.nullAt j else column.nullAt k := by
    simp only [nullAt, nulls_copyFrom, getD_set, null, and_true]
  rw [nullAt_, ← same]
  unfold capacity at value
  cases type : column.type <;> rw [type] at value <;>
    simp only [copyFrom, type, intAt, textAt, doubleAt, getD_set, value, and_true] <;> split <;>
    rfl

/-- The row that was appended is the one of the source. -/
theorem get_pushFrom (holds : column.Holds n) (same : column.type = source.type) (k : Nat) :
    (column.pushFrom source j).get k = if k = n then source.get j else column.get k := by
  obtain ⟨nulls, values⟩ := holds
  unfold get
  rw [type_pushFrom]
  have nullAt_ : (column.pushFrom source j).nullAt k =
      if k = n then source.nullAt j else column.nullAt k := by
    have pushed : (column.pushFrom source j).nulls = column.nulls ++ [source.nullAt j] := by
      unfold pushFrom
      cases column.type <;> rfl
    rw [nullAt, pushed, getD_concat nulls]
    rfl
  rw [nullAt_, ← same]
  unfold capacity at values
  cases type : column.type <;> rw [type] at values <;>
    simp only [pushFrom, type, intAt, textAt, doubleAt, getD_concat values] <;> split <;> rfl

@[simp] theorem type_set (field : Field) : (column.set i field).type = column.type := by
  unfold set
  cases column.type <;> rfl

theorem Has.set (has : column.Has k) (field : Field) : (column.set i field).Has k := by
  obtain ⟨null, value⟩ := has
  unfold capacity at value
  unfold ColumnVector.set
  refine ⟨?_, ?_⟩
  · cases type : column.type <;> simpa using null
  · unfold capacity
    cases type : column.type <;> rw [type] at value <;> simpa [type] using value

/-- The row that was set is the field's value. -/
theorem get_set (has : column.Has i) {field : Field} (same : column.type = field.type) (k : Nat) :
    (column.set i field).get k = if i = k then field.plain else column.get k := by
  obtain ⟨null, value⟩ := has
  have nulls : (column.set i field).nulls = column.nulls.set i field.isNull := by
    unfold set
    cases column.type <;> rfl
  have nullAt_ : (column.set i field).nullAt k =
      if i = k then field.isNull else column.nullAt k := by
    simp only [nullAt, nulls, getD_set, null, and_true]
  unfold get
  rw [type_set, nullAt_]
  unfold capacity at value
  cases type : column.type <;> rw [type] at value same <;>
    simp only [set, type, intAt, textAt, doubleAt, getD_set, value, and_true] <;> split <;>
    simp [Field.plain, ← same, Field.f64] <;> cases field.isNull <;> simp

@[simp] theorem type_format (type : ColType) : (column.format type n).type = type := by
  unfold format
  cases type <;> rfl

/-- A formatted column has room for `n` rows. -/
theorem has_format (type : ColType) (inside : i < n) : (column.format type n).Has i := by
  have nulls : (column.format type n).nulls = grow false column.nulls n := by
    unfold format
    cases type <;> rfl
  refine ⟨?_, ?_⟩
  · rw [nulls, length_grow]
    omega
  · unfold capacity format
    cases type <;> simp only [length_grow] <;> omega

theorem Has.copyFrom (has : column.Has k) : (column.copyFrom i source j).Has k :=
  ⟨by rw [nulls_copyFrom, List.length_set]; exact has.null,
    by rw [capacity_copyFrom]; exact has.value⟩

theorem get_gatherAt (idx : List Nat) (at_ : Nat) (has : ∀ i < at_ + idx.length, column.Has i)
    (same : column.type = source.type) (k : Nat) :
    (gatherAt source at_ idx column).get k =
      if at_ ≤ k ∧ k < at_ + idx.length then source.get (idx.getD (k - at_) 0) else column.get k := by
  induction idx generalizing at_ column with
  | nil =>
    rw [gatherAt, if_neg]
    rw [List.length_nil]
    omega
  | cons i idx ih =>
    rw [List.length_cons] at has ⊢
    have here := has at_ (by omega)
    rw [gatherAt, ih (at_ + 1) (fun i inside => (has i (by omega)).copyFrom)
      (type_copyFrom.trans same), get_copyFrom here same]
    by_cases first : at_ = k
    · subst first
      rw [if_neg (by omega), if_pos rfl, if_pos (by omega), Nat.sub_self]
      rfl
    · by_cases later : at_ + 1 ≤ k ∧ k < at_ + 1 + idx.length
      · have next : k - at_ = k - (at_ + 1) + 1 := by omega
        rw [if_pos later, if_pos (by omega), next]
        rfl
      · rw [if_neg later, if_neg first, if_neg (by omega)]

theorem get_gather {idx : List Nat} (has : ∀ i < idx.length, column.Has i)
    (same : column.type = source.type) (inside : k < idx.length) :
    (column.gather source idx).get k = source.get (idx.getD k 0) := by
  rw [gather, get_gatherAt idx 0 (fun i inside => has i (by omega)) same, if_pos (by omega),
    Nat.sub_zero]

end ColumnVector

end Labdb.Query
