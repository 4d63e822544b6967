import Labdb.Data.Lists
import Mathlib.Algebra.Order.Ring.Nat
import Mathlib.Data.List.Count
import Mathlib.Data.List.GetD
import Mathlib.Algebra.BigOperators.Group.List.Basic

/-! Grouping by bucket with a counting sort: count, add up, distribute. The places of one
bucket then hold its items in the order in which they came. -/

namespace Labdb.Data.CountingSort

/-- Count the items of each bucket, one place further on. -/
def tally {α : Type} (bucket : α → Nat) (items : List α) (counts : List Nat) : List Nat :=
  items.foldl (fun counts item => counts.modify (bucket item + 1) (· + 1)) counts

/-- Add each count to those after it. -/
def accumulate (buckets : Nat) (counts : List Nat) : List Nat :=
  (List.range buckets).foldl
    (fun counts b => counts.set (b + 1) (counts.getD (b + 1) 0 + counts.getD b 0)) counts

/-- Put an item into the next free place of its bucket. -/
def place (bucket : Nat → Nat) (state : List Nat × List Nat) (id : Nat) : List Nat × List Nat :=
  let (order, fill) := state
  (order.set (fill.getD (bucket id) 0) id, fill.modify (bucket id) (· + 1))

section Spec

variable (bucket : Nat → Nat)

/-- The items below `n` that belong to a bucket. -/
def members (n b : Nat) : List Nat := (List.range n).filter fun id => bucket id = b

/-- How many items below `n` belong to earlier buckets: where a bucket begins. -/
def starts (n b : Nat) : Nat := (List.range n).countP fun id => bucket id < b

variable {bucket} {n b m : Nat} {counts : List Nat}

theorem starts_succ : starts bucket n (b + 1) = starts bucket n b + (members bucket n b).length := by
  unfold starts members
  rw [← List.countP_eq_length_filter]
  induction List.range n with
  | nil => rfl
  | cons id rest ih =>
    simp only [List.countP_cons, ih, decide_eq_true_eq]
    split <;> split <;> split <;> omega

theorem starts_mono {b b' : Nat} (earlier : b ≤ b') : starts bucket n b ≤ starts bucket n b' :=
  List.countP_mono_left fun id _ below => by
    simp only [decide_eq_true_eq] at below ⊢
    omega

private theorem starts_le : starts bucket n b ≤ n := by
  have below : starts bucket n b ≤ (List.range n).length := List.countP_le_length
  rwa [List.length_range] at below

private theorem members_succ : members bucket (m + 1) b =
    members bucket m b ++ if bucket m = b then [m] else [] := by
  unfold members
  rw [List.range_succ, List.filter_append, List.filter_singleton]
  simp

private theorem members_length_mono {m : Nat} (earlier : m ≤ n) :
    (members bucket m b).length ≤ (members bucket n b).length := by
  induction earlier with
  | refl => exact Nat.le_refl _
  | step _ ih =>
    refine Nat.le_trans ih ?_
    rw [members_succ, List.length_append]
    exact Nat.le_add_right _ _

private theorem getD_modify (i j : Nat) (inside : i < counts.length) :
    (counts.modify i (· + 1)).getD j 0 = counts.getD j 0 + if i = j then 1 else 0 := by
  rw [List.getD_eq_getElem?_getD, List.getD_eq_getElem?_getD, List.getElem?_modify]
  by_cases same : i = j
  · subst same
    simp [inside]
  · simp [same]

theorem length_tally {α : Type} (bucket : α → Nat) (items : List α) (counts : List Nat) :
    (tally bucket items counts).length = counts.length := by
  induction items generalizing counts with
  | nil => rfl
  | cons item rest ih => exact (ih _).trans (List.length_modify ..)

private theorem getD_tally {α : Type} {bucket : α → Nat} {items : List α} {counts : List Nat}
    (inside : ∀ item ∈ items, bucket item + 1 < counts.length) (j : Nat) :
    (tally bucket items counts).getD j 0 =
      counts.getD j 0 + items.countP fun item => bucket item + 1 = j := by
  induction items generalizing counts with
  | nil => rfl
  | cons item rest ih =>
    have first := inside item List.mem_cons_self
    have later : ∀ item' ∈ rest,
        bucket item' + 1 < (counts.modify (bucket item + 1) (· + 1)).length := by
      intro item' member
      rw [List.length_modify]
      exact inside item' (List.mem_cons_of_mem _ member)
    refine (ih later).trans ?_
    rw [getD_modify _ _ first, List.countP_cons]
    simp only [decide_eq_true_eq]
    omega

/-- After `k` additions the first places hold their sums. -/
theorem getD_accumulate (k : Nat) (inside : k < counts.length) :
    (accumulate k counts).length = counts.length ∧
      ∀ j, (accumulate k counts).getD j 0 =
        if j ≤ k then ((List.range (j + 1)).map fun i => counts.getD i 0).sum
        else counts.getD j 0 := by
  induction k with
  | zero =>
    refine ⟨rfl, fun j => ?_⟩
    rcases Nat.eq_zero_or_pos j with rfl | positive
    · simp [accumulate]
    · rw [if_neg (by omega)]
      rfl
  | succ k ih =>
    obtain ⟨length, sums⟩ := ih (by omega)
    have unfolded : accumulate (k + 1) counts = (accumulate k counts).set (k + 1)
        ((accumulate k counts).getD (k + 1) 0 + (accumulate k counts).getD k 0) := by
      rw [accumulate, List.range_succ, List.foldl_append]
      rfl
    rw [unfolded]
    refine ⟨(List.length_set ..).trans length, fun j => ?_⟩
    have place : k + 1 < (accumulate k counts).length := Nat.lt_of_lt_of_eq inside length.symm
    simp only [getD_set, place, and_true]
    by_cases same : k + 1 = j
    · subst same
      rw [if_pos rfl, if_pos (Nat.le_refl _), sums (k + 1), sums k, if_neg (by omega),
        if_pos (Nat.le_refl k), @List.range_succ (k + 1), List.map_append, List.sum_append]
      simp [Nat.add_comm]
    · rw [if_neg same, sums j]
      have bound : j ≤ k ↔ j ≤ k + 1 := by omega
      simp only [bound]

/-- The running totals of a tally say where the buckets begin. -/
theorem getD_starts {buckets : Nat} (bounded : ∀ id < n, bucket id < buckets) {b : Nat}
    (inside : b ≤ buckets) :
    (accumulate buckets (tally bucket (List.range n) (List.replicate (buckets + 1) 0))).getD b 0 =
      starts bucket n b := by
  have places : ∀ id ∈ List.range n, bucket id + 1 < (List.replicate (buckets + 1) 0).length := by
    intro id member
    rw [List.length_replicate]
    exact Nat.succ_lt_succ (bounded id (List.mem_range.mp member))
  have tallied := getD_tally places
  have inside' : buckets < (tally bucket (List.range n) (List.replicate (buckets + 1) 0)).length := by
    rw [length_tally, List.length_replicate]
    exact Nat.lt_succ_self _
  have sums := (getD_accumulate buckets inside').2 b
  rw [sums, if_pos inside]
  have zero : ∀ j, (List.replicate (buckets + 1) 0).getD j 0 = 0 := by
    intro j
    rw [List.getD_eq_getElem?_getD, List.getElem?_replicate]
    split <;> rfl
  simp only [tallied, zero, Nat.zero_add]
  clear sums inside
  induction b with
  | zero => simp [starts]
  | succ b ih =>
    rw [List.range_succ, List.map_append, List.sum_append, ih, starts_succ, members,
      ← List.countP_eq_length_filter]
    simp

/-- The items below `m` are in their places, and `fill` says where the next ones go. -/
structure Placed (bucket : Nat → Nat) (n m : Nat) (order fill : List Nat) : Prop where
  length : order.length = n
  fill : ∀ b < fill.length, fill.getD b 0 = starts bucket n b + (members bucket m b).length
  slots : ∀ b k, k < (members bucket m b).length →
    order.getD (starts bucket n b + k) 0 = (members bucket m b).getD k 0

variable {order fill : List Nat}

theorem Placed.step (placed : Placed bucket n m order fill) (more : m < n)
    (inside : bucket m < fill.length) :
    Placed bucket n (m + 1) (place bucket (order, fill) m).1 (place bucket (order, fill) m).2 := by
  have free := placed.fill (bucket m) inside
  have next : members bucket (m + 1) (bucket m) = members bucket m (bucket m) ++ [m] := by
    rw [members_succ, if_pos rfl]
  have room : (members bucket m (bucket m)).length < (members bucket n (bucket m)).length := by
    have later := @members_length_mono bucket _ (bucket m) _ more
    rw [Nat.succ_eq_add_one, next, List.length_append, List.length_singleton] at later
    omega
  have ends := @starts_succ bucket n (bucket m)
  have below : fill.getD (bucket m) 0 < order.length := by
    have all := @starts_le bucket n (bucket m + 1)
    rw [placed.length]
    omega
  refine ⟨(List.length_set ..).trans placed.length, fun b within => ?_, fun b k short => ?_⟩
  · have within' : b < fill.length := Nat.lt_of_lt_of_eq within (List.length_modify ..)
    have before := placed.fill b within'
    simp only [place]
    rw [getD_modify _ _ inside, before, members_succ]
    by_cases same : bucket m = b
    · simp [same, Nat.add_assoc]
    · simp [same]
  · simp only [place]
    rw [free] at below
    rw [free, getD_set]
    simp only [below, and_true]
    by_cases same : bucket m = b
    · subst same
      rw [next, List.length_append, List.length_singleton] at short
      rw [next]
      by_cases old : k < (members bucket m (bucket m)).length
      · rw [if_neg (by omega), List.getD_append _ _ _ _ old]
        exact placed.slots _ k old
      · have last : k = (members bucket m (bucket m)).length := by omega
        subst last
        rw [if_pos rfl, List.getD_append_right _ _ _ _ (Nat.le_refl _), Nat.sub_self]
        rfl
    · have unchanged : members bucket (m + 1) b = members bucket m b := by
        rw [members_succ, if_neg same, List.append_nil]
      rw [unchanged] at short ⊢
      rw [if_neg ?_]
      · exact placed.slots b k short
      -- the places of two buckets are apart
      · have whole := @members_length_mono bucket _ b _ (Nat.le_of_lt more)
        have ends' := @starts_succ bucket n b
        rcases Nat.lt_or_gt_of_ne same with earlier | later
        · have apart := @starts_mono bucket n _ _ (Nat.succ_le_of_lt earlier)
          rw [Nat.succ_eq_add_one] at apart
          omega
        · have apart := @starts_mono bucket n _ _ (Nat.succ_le_of_lt later)
          rw [Nat.succ_eq_add_one] at apart
          omega

theorem Placed.run {buckets : Nat} (bounded : ∀ id < n, bucket id < buckets)
    (length : fill.length = buckets)
    (begins : ∀ b < buckets, fill.getD b 0 = starts bucket n b) (order : List Nat)
    (size : order.length = n) :
    ∃ order' fill', (List.range n).foldl (place bucket) (order, fill) = (order', fill') ∧
      Placed bucket n n order' fill' := by
  suffices ∀ m ≤ n, ∃ order' fill', (List.range m).foldl (place bucket) (order, fill) =
      (order', fill') ∧ fill'.length = buckets ∧ Placed bucket n m order' fill' by
    obtain ⟨order', fill', ran, _, placed⟩ := this n (Nat.le_refl n)
    exact ⟨order', fill', ran, placed⟩
  intro m
  induction m with
  | zero =>
    intro _
    refine ⟨order, fill, rfl, length, size, fun b within => ?_, fun b k short => ?_⟩
    · rw [begins b (length ▸ within)]
      rfl
    · cases short
  | succ m ih =>
    intro more
    obtain ⟨order', fill', ran, same, placed⟩ := ih (Nat.le_of_succ_le more)
    refine ⟨_, _, ?_, ?_, placed.step more (same ▸ bounded m more)⟩
    · rw [List.range_succ, List.foldl_append, ran]
      rfl
    · exact (List.length_modify ..).trans same

/-- The places from where a bucket begins to where the next one does hold its items. -/
theorem Placed.slice (placed : Placed bucket n n order fill) (b : Nat) :
    (List.range' (starts bucket n b) (starts bucket n (b + 1) - starts bucket n b)).map
      (fun position => order.getD position 0) = members bucket n b := by
  rw [starts_succ, Nat.add_sub_cancel_left]
  apply List.ext_getElem
  · rw [List.length_map, List.length_range']
  · intro k _ short
    have slot := placed.slots b k short
    rw [List.getElem_map, List.getElem_range', Nat.one_mul, slot]
    simp [List.getD_eq_getElem?_getD, short]

end Spec

end Labdb.Data.CountingSort
