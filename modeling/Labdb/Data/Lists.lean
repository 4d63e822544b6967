import Mathlib.Data.List.Basic

/-! Lists as arrays that are written and appended to, read with a default past their ends. -/

namespace Labdb.Data

variable {α : Type}

theorem getD_set (items : List α) (i : Nat) (item default : α) (k : Nat) :
    (items.set i item).getD k default =
      if i = k ∧ i < items.length then item else items.getD k default := by
  rw [List.getD_eq_getElem?_getD, List.getD_eq_getElem?_getD, List.getElem?_set]
  by_cases same : i = k
  · subst same
    by_cases inside : i < items.length
    · rw [if_pos rfl, if_pos inside, if_pos ⟨rfl, inside⟩, Option.getD_some]
    · rw [if_pos rfl, if_neg inside, if_neg fun both => inside both.2,
        List.getElem?_eq_none (Nat.le_of_not_lt inside)]
  · rw [if_neg same, if_neg fun both => same both.1]

theorem getD_concat {items : List α} {n : Nat} (length : items.length = n) (item default : α)
    (k : Nat) : (items ++ [item]).getD k default = if k = n then item else items.getD k default := by
  rw [List.getD_eq_getElem?_getD, List.getD_eq_getElem?_getD]
  rcases Nat.lt_trichotomy k n with before | same | after
  · rw [if_neg (Nat.ne_of_lt before), List.getElem?_append_left (length ▸ before)]
  · rw [if_pos same, same, ← length, List.getElem?_concat_length, Option.getD_some]
  · rw [if_neg (Nat.ne_of_gt after), List.getElem?_eq_none (by simp; omega),
      List.getElem?_eq_none (by omega)]

end Labdb.Data
