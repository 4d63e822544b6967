import Mathlib.Data.List.Basic

/-! Binary search for the first element of a list that fails a test, and where it ends on a list
in which what passes comes first. -/

namespace Labdb.Data

variable {α : Type}

/-- The loop between `lo` and `hi`, for as many rounds. -/
def searchBetween (test : Nat → Bool) : Nat → Nat → Nat → Nat
  | 0, lo, _ => lo
  | rounds + 1, lo, hi =>
    if lo < hi then
      let mid := (lo + hi) / 2
      if test mid then searchBetween test rounds (mid + 1) hi else searchBetween test rounds lo mid
    else lo

/-- What has passed lies below the loop's bounds, and what has failed from them on. -/
theorem searchBetween_spec {test : Nat → Bool} {count rounds lo hi : Nat}
    (first : ∀ i j, i ≤ j → j < count → test j = true → test i = true)
    (rounds_ : hi - lo ≤ rounds) (ordered : lo ≤ hi) (inside : hi ≤ count)
    (below : ∀ i < lo, test i = true) (from_ : ∀ i, hi ≤ i → i < count → test i = false) :
    searchBetween test rounds lo hi ≤ count ∧
      (∀ i < searchBetween test rounds lo hi, test i = true) ∧
      ∀ i, searchBetween test rounds lo hi ≤ i → i < count → test i = false := by
  induction rounds generalizing lo hi with
  | zero =>
    obtain rfl : lo = hi := by omega
    exact ⟨inside, below, from_⟩
  | succ rounds ih =>
    unfold searchBetween
    split
    · rename_i less
      dsimp only
      split
      · rename_i passes
        apply ih (by omega) (by omega) inside
        · exact fun i small => first i ((lo + hi) / 2) (by omega) (by omega) passes
        · exact from_
      · rename_i fails
        apply ih (by omega) (by omega) (by omega) below
        intro i least small
        rw [Bool.eq_false_iff]
        exact fun passes => fails (first ((lo + hi) / 2) i least small passes)
    · obtain rfl : lo = hi := by omega
      exact ⟨inside, below, from_⟩

/-- How many elements of the list a binary search passes. -/
def searchList (test : α → Bool) (items : List α) : Nat :=
  searchBetween (fun i => (items[i]?).any test) items.length 0 items.length

theorem searchBetween_le {test : Nat → Bool} {rounds lo hi : Nat} (ordered : lo ≤ hi) :
    searchBetween test rounds lo hi ≤ hi := by
  induction rounds generalizing lo hi with
  | zero => exact ordered
  | succ rounds ih =>
    rw [searchBetween]
    split
    · dsimp only
      split
      · exact ih (by omega)
      · exact Nat.le_trans (ih (by omega)) (by omega)
    · exact ordered

/-- However the list is ordered, the search ends inside it. -/
theorem searchList_le_length (test : α → Bool) (items : List α) :
    searchList test items ≤ items.length :=
  searchBetween_le (Nat.zero_le _)

private theorem searchBetween_none {test : Nat → Bool} (never : ∀ i, test i = false)
    (rounds hi : Nat) : searchBetween test rounds 0 hi = 0 := by
  induction rounds generalizing hi with
  | zero => rfl
  | succ rounds ih => simp [searchBetween, never, ih]

/-- Where nothing passes, the search ends at the front. -/
theorem searchList_none {test : α → Bool} {items : List α} (never : ∀ a ∈ items, test a = false) :
    searchList test items = 0 := by
  apply searchBetween_none
  intro i
  cases here : items[i]? with
  | none => rfl
  | some a => exact never a (List.mem_of_getElem? here)

/-- Where what passes comes first, the search cuts the list there. -/
theorem searchList_spec {test : α → Bool} {items : List α}
    (first : items.Pairwise fun a b => test b = true → test a = true) :
    ∃ front back, items = front ++ back ∧ front.length = searchList test items ∧
      (∀ a ∈ front, test a = true) ∧ ∀ b ∈ back, test b = false := by
  have passes : ∀ i (inside : i < items.length),
      (items[i]?).any test = test items[i] := fun i inside => by
    rw [List.getElem?_eq_getElem inside]
    rfl
  obtain ⟨short, below, above⟩ := @searchBetween_spec (fun i => (items[i]?).any test)
    items.length items.length 0 items.length
    (fun i j ordered inside passed => by
      rw [passes j inside] at passed
      rw [passes i (by omega)]
      rcases Nat.lt_or_ge i j with less | same
      · exact List.pairwise_iff_getElem.mp first i j (by omega) inside less passed
      · obtain rfl : i = j := by omega
        exact passed)
    (Nat.le_refl _) (Nat.zero_le _) (Nat.le_refl _) (fun i small => absurd small (Nat.not_lt_zero i))
    (fun i least inside => absurd inside (Nat.not_lt.mpr least))
  change searchList test items ≤ items.length at short
  refine ⟨items.take (searchList test items), items.drop (searchList test items),
    (List.take_append_drop _ _).symm, List.length_take_of_le short, fun a member => ?_,
    fun b member => ?_⟩
  · obtain ⟨i, inside, rfl⟩ := List.mem_iff_getElem.mp member
    rw [List.length_take] at inside
    rw [List.getElem_take, ← passes i (by omega)]
    exact below i (by omega : i < searchList test items)
  · obtain ⟨i, inside, rfl⟩ := List.mem_iff_getElem.mp member
    rw [List.length_drop] at inside
    rw [List.getElem_drop, ← passes _ (by omega)]
    exact above _ (Nat.le_add_right _ _) (by omega)

/-- Where it ends when the list is cut already. -/
theorem searchList_eq {test : α → Bool} {front back : List α} (passes : ∀ a ∈ front, test a = true)
    (fails : ∀ b ∈ back, test b = false) : searchList test (front ++ back) = front.length := by
  have first : (front ++ back).Pairwise fun a b => test b = true → test a = true := by
    refine List.pairwise_append.mpr ⟨?_, ?_, fun a inFront b _ _ => passes a inFront⟩
    · exact List.pairwise_of_forall_mem_list fun a member b _ _ => passes a member
    · exact List.pairwise_of_forall_mem_list fun a _ b member passed =>
        absurd passed (Bool.eq_false_iff.mp (fails b member))
  obtain ⟨front', back', same, length, passes', fails'⟩ := searchList_spec first
  rw [← length]
  rcases List.append_eq_append_iff.mp same with ⟨more, rfl, rfl⟩ | ⟨more, rfl, rfl⟩
  · cases more with
    | nil => rw [List.append_nil]
    | cons a rest =>
      have passed := passes' a (List.mem_append_right _ List.mem_cons_self)
      exact absurd passed (Bool.eq_false_iff.mp (fails a List.mem_cons_self))
  · cases more with
    | nil => rw [List.append_nil]
    | cons a rest =>
      have passed := passes a (List.mem_append_right _ List.mem_cons_self)
      exact absurd passed (Bool.eq_false_iff.mp (fails' a List.mem_cons_self))

section Keyed

variable {κ : Type} [LE κ] [LT κ] [Std.IsLinearOrder κ] [Std.LawfulOrderLT κ] {key : α → κ}
  {items : List α}

/-- A list in order of its keys is cut at a key, before what has it. -/
theorem searchList_lt [DecidableLT κ] (sorted : items.Pairwise fun a b => key a ≤ key b) (k : κ) :
    ∃ front back, items = front ++ back ∧
      front.length = searchList (fun a => key a < k) items ∧
      (∀ a ∈ front, key a < k) ∧ ∀ b ∈ back, k ≤ key b := by
  obtain ⟨front, back, whole, length, below, above⟩ :=
    @searchList_spec _ (fun a => decide (key a < k)) items (sorted.imp fun {a b} le passes =>
      decide_eq_true (Std.lt_of_le_of_lt le (of_decide_eq_true passes)))
  exact ⟨front, back, whole, length, fun a member => of_decide_eq_true (below a member),
    fun b member => Std.not_lt.mp (of_decide_eq_false (above b member))⟩

/-- And after what has it. -/
theorem searchList_le [DecidableLE κ] (sorted : items.Pairwise fun a b => key a ≤ key b) (k : κ) :
    ∃ front back, items = front ++ back ∧
      front.length = searchList (fun a => key a ≤ k) items ∧
      (∀ a ∈ front, key a ≤ k) ∧ ∀ b ∈ back, k < key b := by
  obtain ⟨front, back, whole, length, below, above⟩ :=
    @searchList_spec _ (fun a => decide (key a ≤ k)) items (sorted.imp fun {a b} le passes =>
      decide_eq_true (Std.le_trans le (of_decide_eq_true passes)))
  exact ⟨front, back, whole, length, fun a member => of_decide_eq_true (below a member),
    fun b member => Std.not_le.mp (of_decide_eq_false (above b member))⟩

end Keyed

end Labdb.Data
