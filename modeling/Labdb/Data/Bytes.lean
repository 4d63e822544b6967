import Labdb.Data.Memory

/-! Strings of bytes whose ranges are read and overwritten, or not at all where a range runs
past the end. -/

namespace Labdb.Data

/-- The bytes of a range. -/
def slice (bytes : List UInt8) (at_ count : Nat) : Option (List UInt8) :=
  if at_ + count ≤ bytes.length then some ((bytes.drop at_).take count) else none

/-- The bytes with those of a range replaced. -/
def overwrite (bytes : List UInt8) (at_ : Nat) (new : List UInt8) : Option (List UInt8) :=
  if at_ + new.length ≤ bytes.length then
    some (bytes.take at_ ++ new ++ bytes.drop (at_ + new.length))
  else none

variable {bytes new after : List UInt8} {at_ count i : Nat}

/-- A range is known by its bytes. -/
theorem slice_eq_some {range : List UInt8} :
    slice bytes at_ count = some range ↔
      at_ + count ≤ bytes.length ∧ range.length = count ∧
        ∀ i < count, bytes[at_ + i]? = range[i]? := by
  unfold slice
  constructor
  · intro found
    split at found
    · rename_i inside
      cases found
      refine ⟨inside, by rw [List.length_take, List.length_drop]; omega, fun i below => ?_⟩
      rw [List.getElem?_take_of_lt below, List.getElem?_drop]
    · cases found
  · rintro ⟨inside, length, same⟩
    rw [if_pos inside]
    refine congrArg some (List.ext_getElem? fun i => ?_)
    by_cases below : i < count
    · rw [List.getElem?_take_of_lt below, List.getElem?_drop, same i below]
    · rw [List.getElem?_eq_none (by rw [List.length_take]; omega),
        List.getElem?_eq_none (by omega)]

theorem overwrite_eq (inside : at_ + new.length ≤ bytes.length) :
    overwrite bytes at_ new =
      some (bytes.take at_ ++ new ++ bytes.drop (at_ + new.length)) :=
  if_pos inside

theorem length_overwrite (wrote : overwrite bytes at_ new = some after) :
    after.length = bytes.length := by
  unfold overwrite at wrote
  split at wrote
  · cases wrote
    simp only [List.length_append, List.length_take, List.length_drop]
    omega
  · cases wrote

theorem getElem?_overwrite (wrote : overwrite bytes at_ new = some after) (i : Nat) :
    after[i]? = if at_ ≤ i ∧ i < at_ + new.length then new[i - at_]? else bytes[i]? := by
  unfold overwrite at wrote
  split at wrote
  · rename_i inside
    cases wrote
    have front : (bytes.take at_).length = at_ := by
      rw [List.length_take]
      omega
    rcases Nat.lt_or_ge i at_ with before | past
    · rw [if_neg (by omega), List.append_assoc, List.getElem?_append_left (by omega),
        List.getElem?_take_of_lt before]
    · rw [List.append_assoc, List.getElem?_append_right (by omega), front]
      rcases Nat.lt_or_ge i (at_ + new.length) with within_ | beyond
      · rw [if_pos ⟨past, within_⟩, List.getElem?_append_left (by omega)]
      · rw [if_neg (by omega), List.getElem?_append_right (by omega), List.getElem?_drop]
        congr 1
        omega
  · cases wrote

theorem getElem?_overwrite_outside (wrote : overwrite bytes at_ new = some after)
    (outside : i < at_ ∨ at_ + new.length ≤ i) : after[i]? = bytes[i]? := by
  rw [getElem?_overwrite wrote, if_neg (by omega)]

theorem slice_overwrite_self (wrote : overwrite bytes at_ new = some after) :
    slice after at_ new.length = some new := by
  have inside : at_ + new.length ≤ bytes.length := by
    by_contra past
    rw [overwrite, if_neg past] at wrote
    cases wrote
  refine slice_eq_some.mpr ⟨length_overwrite wrote ▸ inside, rfl, fun i below => ?_⟩
  rw [getElem?_overwrite wrote, if_pos ⟨Nat.le_add_right _ _, by omega⟩, Nat.add_sub_cancel_left]

theorem slice_overwrite_of_disjoint {at' : Nat} (wrote : overwrite bytes at' new = some after)
    (apart : at_ + count ≤ at' ∨ at' + new.length ≤ at_) :
    slice after at_ count = slice bytes at_ count := by
  unfold slice
  rw [length_overwrite wrote]
  split
  · refine congrArg some (List.ext_getElem? fun i => ?_)
    by_cases below : i < count
    · rw [List.getElem?_take_of_lt below, List.getElem?_take_of_lt below, List.getElem?_drop,
        List.getElem?_drop, getElem?_overwrite_outside wrote (by omega)]
    · rw [List.getElem?_take_eq_none (Nat.not_lt.mp below),
        List.getElem?_take_eq_none (Nat.not_lt.mp below)]
  · rfl

/-- Two ranges side by side are one. -/
theorem overwrite_next (wrote : overwrite bytes at_ new = some after) (next : List UInt8) :
    overwrite after (at_ + new.length) next = overwrite bytes at_ (new ++ next) := by
  have length := length_overwrite wrote
  unfold overwrite at wrote ⊢
  split at wrote
  · cases wrote
    have front : (bytes.take at_ ++ new).length = at_ + new.length := by
      rw [List.length_append, List.length_take]
      omega
    rw [length, List.length_append, ← Nat.add_assoc]
    split
    · rw [List.take_left' front, ← List.drop_drop, List.drop_left' front, List.drop_drop,
        List.append_assoc (bytes.take at_) new next]
    · rfl
  · cases wrote

theorem overwrite_append {next : List UInt8} (wrote : overwrite bytes at_ (new ++ next) = some after) :
    ∃ half, overwrite bytes at_ new = some half ∧
      overwrite half (at_ + new.length) next = some after := by
  have inside : at_ + new.length ≤ bytes.length := by
    by_contra past
    rw [overwrite, if_neg (by rw [List.length_append]; omega)] at wrote
    cases wrote
  have first := overwrite_eq inside
  exact ⟨_, first, (overwrite_next first next).trans wrote⟩

/-- Bytes that follow leave a range as it is. -/
theorem slice_append {range : List UInt8} (found : slice bytes at_ count = some range)
    (more : List UInt8) : slice (bytes ++ more) at_ count = some range := by
  obtain ⟨inside, length, same⟩ := slice_eq_some.mp found
  refine slice_eq_some.mpr ⟨by rw [List.length_append]; omega, length, fun i below => ?_⟩
  rw [List.getElem?_append_left (by omega), same i below]

/-- A range in the middle. -/
theorem slice_middle (front middle back : List UInt8) :
    slice (front ++ (middle ++ back)) front.length middle.length = some middle := by
  rw [slice, if_pos (by simp only [List.length_append]; omega), List.drop_left, List.take_left]

/-- A part of a range. -/
theorem slice_part {range : List UInt8} {skip few : Nat} (found : slice bytes at_ count = some range)
    (fits : skip + few ≤ count) :
    slice bytes (at_ + skip) few = some ((range.drop skip).take few) := by
  obtain ⟨inside, length, same⟩ := slice_eq_some.mp found
  refine slice_eq_some.mpr ⟨by omega, by rw [List.length_take, List.length_drop]; omega,
    fun i below => ?_⟩
  rw [List.getElem?_take_of_lt below, List.getElem?_drop, Nat.add_assoc, same _ (by omega)]

end Labdb.Data
