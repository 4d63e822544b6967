import Labdb.Query.Columns

/-! The rows a batch has room for: which columns a batch of given types may hold, and that
making room keeps every row. -/

namespace Labdb.Query

private theorem getD_grow {α : Type} (fill : α) (items : List α) (n i : Nat) :
    (grow fill items n).getD i fill = items.getD i fill := by
  rw [grow, List.getD_eq_getElem?_getD, List.getD_eq_getElem?_getD]
  by_cases inside : i < items.length
  · rw [List.getElem?_append_left inside]
  · rw [List.getElem?_append_right (Nat.not_lt.mp inside),
      List.getElem?_eq_none (Nat.not_lt.mp inside), List.getElem?_replicate]
    split <;> rfl

theorem le_doubled (steps room n : Nat) (positive : 0 < room) (enough : n ≤ steps) :
    n ≤ doubled steps room n := by
  have grows : ∀ steps room, 0 < room → n ≤ room + steps → n ≤ doubled steps room n := by
    intro steps
    induction steps with
    | zero => exact fun room _ reaches => reaches
    | succ steps ih =>
      intro room positive reaches
      unfold doubled
      split
      · exact ih (room * 2) (by omega) (by omega)
      · omega
  exact grows steps room positive (by omega)

theorem foldl_min_le (lengths : List Nat) (start : Nat) :
    lengths.foldl min start ≤ start ∧ ∀ length ∈ lengths, lengths.foldl min start ≤ length := by
  induction lengths generalizing start with
  | nil => exact ⟨Nat.le_refl _, nofun⟩
  | cons first rest ih =>
    obtain ⟨below, each⟩ := ih (min start first)
    rw [List.foldl_cons]
    refine ⟨Nat.le_trans below (Nat.min_le_left _ _), fun length member => ?_⟩
    rcases List.mem_cons.mp member with rfl | later
    · exact Nat.le_trans below (Nat.min_le_right _ _)
    · exact each length later

theorem le_foldl_min (lengths : List Nat) (start n : Nat) (first : n ≤ start)
    (each : ∀ length ∈ lengths, n ≤ length) : n ≤ lengths.foldl min start := by
  induction lengths generalizing start with
  | nil => exact first
  | cons length rest ih =>
    exact ih (min start length) (Nat.le_min.mpr ⟨first, each length List.mem_cons_self⟩)
      fun other here => each other (List.mem_cons_of_mem _ here)

namespace ColumnVector

/-- How many values the array of a type holds. -/
def lengthFor (column : ColumnVector) : ColType → Nat
  | .kText => column.texts.length
  | .kDouble => column.doubles.length
  | _ => column.ints.length

theorem capacity_eq (column : ColumnVector) : column.capacity = column.lengthFor column.type := by
  unfold capacity lengthFor
  cases column.type <;> rfl

/-- Wherever there is a NULL flag, there is a value of the type. -/
def Backs (column : ColumnVector) (type : ColType) : Prop :=
  column.nulls.length ≤ column.lengthFor type

private theorem nulls_format (column : ColumnVector) (type : ColType) (n : Nat) :
    (column.format type n).nulls = grow false column.nulls n := by
  unfold format
  cases type <;> rfl

theorem Backs.format {column : ColumnVector} {type : ColType} (backs : column.Backs type)
    (n : Nat) : (column.format type n).Backs type := by
  unfold Backs at backs ⊢
  rw [nulls_format, length_grow]
  unfold ColumnVector.format lengthFor
  unfold lengthFor at backs
  cases type <;> simp only [length_grow] at backs ⊢ <;> omega

/-- Growing keeps every value. -/
theorem get_format_self (column : ColumnVector) (n i : Nat) :
    (column.format column.type n).get i = column.get i := by
  unfold get nullAt
  rw [nulls_format, getD_grow, type_format]
  cases type : column.type <;>
    simp only [format, textAt, doubleAt, intAt, getD_grow]

@[simp] theorem length_nulls_set (column : ColumnVector) (i : Nat) (field : Field) :
    (column.set i field).nulls.length = column.nulls.length := by
  unfold set
  cases column.type <;> simp

@[simp] theorem lengthFor_set (column : ColumnVector) (i : Nat) (field : Field) (type : ColType) :
    (column.set i field).lengthFor type = column.lengthFor type := by
  unfold set lengthFor
  cases column.type <;> cases type <;> simp

end ColumnVector

namespace Batch

variable {batch : Batch} {types : List ColType} {n i : Nat}

/-- A batch whose columns are of these types, with a value wherever there is a NULL flag. -/
structure Ready (types : List ColType) (batch : Batch) : Prop where
  types_eq : batch.cols.map ColumnVector.type = types
  backs : ∀ column ∈ batch.cols, column.Backs column.type

theorem room_eq (batch : Batch) :
    batch.room = (batch.cols.map fun column => column.nulls.length).foldl min batch.sel.length := by
  rw [room, List.foldl_map]

/-- A place below the room is one that every column has. -/
theorem Ready.has (ready : batch.Ready types) (below : i < batch.room) {column : ColumnVector}
    (here : column ∈ batch.cols) : column.Has i := by
  rw [room_eq] at below
  have length := (foldl_min_le (batch.cols.map fun column => column.nulls.length)
    batch.sel.length).2 _ (List.mem_map_of_mem here)
  have backs := ready.backs column here
  rw [ColumnVector.Backs, ← column.capacity_eq] at backs
  exact ⟨by omega, by omega⟩

theorem room_le_sel (batch : Batch) : batch.room ≤ batch.sel.length := by
  rw [room_eq]
  exact (foldl_min_le _ _).1

/-- Columns that back their types in a batch are those of a batch formatted for the types. -/
theorem ready_format (batch : Batch) (types : List ColType) (n : Nat)
    (backs : ∀ c type, types[c]? = some type → (batch.col c).Backs type) :
    (batch.format types n).Ready types := by
  refine ⟨?_, fun column member => ?_⟩
  · refine List.ext_getElem (by simp [format]) fun c _ _ => ?_
    simp [format]
  · obtain ⟨⟨type, c⟩, here, rfl⟩ := List.mem_map.mp member
    rw [ColumnVector.type_format]
    exact (backs c type (List.mem_zipIdx_iff_getElem?.mp here)).format n

theorem selected_ensure (batch : Batch) (n : Nat) :
    (batch.ensure n).selected = batch.selected := by
  unfold Batch.ensure
  split <;> rfl

theorem Ready.ensure (ready : batch.Ready types) (n : Nat) :
    (batch.ensure n).Ready types ∧ n ≤ (batch.ensure n).room ∧ batch.room ≤ (batch.ensure n).room ∧
      ∀ i, (batch.ensure n).getRow i = batch.getRow i := by
  unfold Batch.ensure
  split
  · rename_i enough
    exact ⟨ready, enough, Nat.le_refl _, fun _ => rfl⟩
  · dsimp only
    generalize start : (if batch.sel.length < 16 then 16 else batch.sel.length) = first
    have positive : 0 < first := by
      split at start <;> omega
    have enough := le_doubled n first n positive (Nat.le_refl n)
    generalize doubled n first n = room at enough
    refine ⟨⟨?_, fun column member => ?_⟩, ?_, ?_, fun i => ?_⟩
    · rw [List.map_map, ← ready.types_eq]
      exact List.map_congr_left fun column _ => ColumnVector.type_format _
    · obtain ⟨before, here, rfl⟩ := List.mem_map.mp member
      rw [ColumnVector.type_format]
      exact ColumnVector.Backs.format (ready.backs before here) room
    · rw [room_eq]
      refine le_foldl_min _ _ _ ?_ fun length member => ?_
      · rw [length_grow]
        omega
      · rw [List.map_map] at member
        obtain ⟨column, _, rfl⟩ := List.mem_map.mp member
        rw [Function.comp, ColumnVector.nulls_format, length_grow]
        omega
    · rw [room_eq, room_eq]
      have below := foldl_min_le (batch.cols.map fun column => column.nulls.length) batch.sel.length
      refine le_foldl_min _ _ _ ?_ fun length member => ?_
      · rw [length_grow]
        omega
      · rw [List.map_map] at member
        obtain ⟨column, here, rfl⟩ := List.mem_map.mp member
        have least := below.2 _ (List.mem_map_of_mem here)
        rw [Function.comp, ColumnVector.nulls_format, length_grow]
        omega
    · rw [getRow, getRow, List.map_map]
      exact List.map_congr_left fun column _ => ColumnVector.get_format_self column room i

end Batch

end Labdb.Query
