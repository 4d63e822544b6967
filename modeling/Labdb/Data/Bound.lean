import Mathlib.Data.List.Basic

/-! Bounds on the elements of an order, inclusive or not, and the tighter of two of them. -/

namespace Labdb.Data

variable {α : Type} (cmp : α → α → Ordering)

/-- Not below a bound. For an upper bound, the comparison is the other way round. -/
def Above (bound : Option α) (incl : Bool) (value : α) : Prop :=
  ∀ least, bound = some least → cmp least value = .lt ∨ incl = true ∧ cmp least value = .eq

/-- Whether a bound is tighter than the one there is, if any. -/
def tighter (bound : Option α) (value : α) (incl : Bool) : Bool :=
  match bound with
  | none => true
  | some least => cmp value least = .gt || cmp value least = .eq && !incl

section Order

variable {cmp} [Std.TransCmp cmp] {bound : Option α} {incl incl' : Bool} {least value other : α}

omit [Std.TransCmp cmp] in
theorem above_none : Above cmp none incl value := fun _ absent => nomatch absent

omit [Std.TransCmp cmp] in
theorem above_some : Above cmp (some least) incl value ↔
    cmp least value = .lt ∨ incl = true ∧ cmp least value = .eq := by
  constructor
  · intro above
    exact above least rfl
  · intro inside other same
    cases same
    exact inside

theorem above_of_lt (less : cmp least other = .lt) (above : Above cmp (some other) incl' value) :
    Above cmp (some least) incl value := by
  rw [above_some] at above ⊢
  rcases above with below | ⟨-, equal⟩
  · exact Or.inl (Std.TransCmp.lt_trans less below)
  · exact Or.inl (Std.TransCmp.lt_of_lt_of_eq less equal)

private theorem above_of_eq (same : cmp least other = .eq) (weaker : incl' = true → incl = true)
    (above : Above cmp (some other) incl' value) : Above cmp (some least) incl value := by
  rw [above_some] at above ⊢
  rcases above with below | ⟨inclusive, equal⟩
  · exact Or.inl (Std.TransCmp.lt_of_eq_of_lt same below)
  · exact Or.inr ⟨weaker inclusive, Std.TransCmp.eq_trans same equal⟩

/-- The tighter of two bounds is both of them. -/
theorem above_tighter :
    Above cmp (if tighter cmp bound other incl' then some other else bound)
        (if tighter cmp bound other incl' then incl' else incl) value ↔
      Above cmp bound incl value ∧ Above cmp (some other) incl' value := by
  cases bound with
  | none => simp only [tighter, if_true, above_none, true_and]
  | some least =>
    cases order : cmp other least with
    | gt =>
      have less := Std.OrientedCmp.gt_iff_lt.mp order
      simp only [tighter, order, decide_true, Bool.true_or, if_true]
      exact ⟨fun above => ⟨above_of_lt less above, above⟩, And.right⟩
    | lt =>
      simp only [tighter, order, reduceCtorEq, decide_false, Bool.false_and, Bool.or_false,
        Bool.false_eq_true, if_false]
      exact ⟨fun above => ⟨above, above_of_lt order above⟩, And.left⟩
    | eq =>
      have same := Std.OrientedCmp.eq_comm.mp order
      cases incl' with
      | true =>
        simp only [tighter, order, reduceCtorEq, decide_false, decide_true, Bool.not_true,
          Bool.and_false, Bool.or_false, Bool.false_eq_true, if_false]
        exact ⟨fun above => ⟨above, above_of_eq order (fun _ => rfl) above⟩, And.left⟩
      | false =>
        simp only [tighter, order, reduceCtorEq, decide_false, decide_true, Bool.not_false,
          Bool.and_true, Bool.or_true, if_true]
        have weaker : false = true → incl = true := nofun
        exact ⟨fun above => ⟨above_of_eq same weaker above, above⟩, And.right⟩

end Order

end Labdb.Data
