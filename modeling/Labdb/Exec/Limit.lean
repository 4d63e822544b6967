import Labdb.Exec.Reads

/-! Under a limit, an operator over a scan reads to the last row that is handed out, whether by
row or by batch. -/

namespace Labdb.Exec

open Labdb.Query Labdb.Record

/-- How many rows are read until `n` have passed. -/
def readTo (passes : Row → Bool) : Nat → List Row → Nat
  | 0, _ => 0
  | _, [] => 0
  | n + 1, row :: rows =>
    (if passes row then readTo passes n rows else readTo passes (n + 1) rows) + 1

/-- The scan stops at the `n`-th row that passes, or has read every row. -/
structure StopsAt (passes : Row → Bool) (n : Nat) (rows : List Row) (read : Nat) : Prop where
  inside : read ≤ rows.length
  before : ∀ k < read, (rows.take k).countP passes < n
  last : (rows.take read).countP passes = n ∨ read = rows.length

section ReadTo

variable {passes : Row → Bool} {rows more : List Row} {n : Nat}

theorem readTo_stops (passes : Row → Bool) (n : Nat) (rows : List Row) :
    StopsAt passes n rows (readTo passes n rows) := by
  induction rows generalizing n with
  | nil =>
    cases n with
    | zero => exact ⟨Nat.le_refl _, nofun, .inl rfl⟩
    | succ n => exact ⟨Nat.le_refl _, nofun, .inr rfl⟩
  | cons row rows ih =>
    cases n with
    | zero => exact ⟨Nat.zero_le _, nofun, .inl rfl⟩
    | succ n =>
      unfold readTo
      cases passed : passes row with
      | true =>
        obtain ⟨inside, before, last⟩ := ih n
        rw [if_pos rfl]
        refine ⟨Nat.succ_le_succ inside, fun k below => ?_, ?_⟩
        · cases k with
          | zero => exact Nat.succ_pos n
          | succ k =>
            rw [List.take_succ_cons, List.countP_cons_of_pos passed]
            exact Nat.succ_lt_succ (before k (Nat.lt_of_succ_lt_succ below))
        · rw [List.take_succ_cons, List.countP_cons_of_pos passed]
          exact last.imp (congrArg Nat.succ) (congrArg Nat.succ)
      | false =>
        obtain ⟨inside, before, last⟩ := ih (n + 1)
        have fails : ¬ passes row = true := by rw [passed]; exact Bool.false_ne_true
        rw [if_neg Bool.false_ne_true]
        refine ⟨Nat.succ_le_succ inside, fun k below => ?_, ?_⟩
        · cases k with
          | zero => exact Nat.succ_pos n
          | succ k =>
            rw [List.take_succ_cons, List.countP_cons_of_neg fails]
            exact before k (Nat.lt_of_succ_lt_succ below)
        · rw [List.take_succ_cons, List.countP_cons_of_neg fails]
          exact last.imp id (congrArg Nat.succ)

/-- Rows that do not pass are read over. -/
theorem readTo_fails (fails : ∀ row ∈ rows, passes row = false) (positive : 0 < n) :
    readTo passes n (rows ++ more) = rows.length + readTo passes n more := by
  induction rows with
  | nil => exact (Nat.zero_add _).symm
  | cons row rows ih =>
    obtain ⟨m, rfl⟩ := Nat.exists_eq_succ_of_ne_zero (Nat.ne_of_gt positive)
    have rest := ih fun other member => fails other (List.mem_cons_of_mem row member)
    rw [List.cons_append, readTo, fails row List.mem_cons_self, if_neg Bool.false_ne_true, rest,
      List.length_cons]
    omega

/-- Of no more rows than may still pass, every one is read. -/
theorem readTo_few (few : rows.length ≤ n) :
    readTo passes n (rows ++ more) =
      rows.length + readTo passes (n - rows.countP passes) more := by
  induction rows generalizing n with
  | nil => exact (Nat.zero_add _).symm
  | cons row rows ih =>
    rw [List.length_cons] at few
    obtain ⟨m, rfl⟩ : ∃ m, n = m + 1 := ⟨n - 1, by omega⟩
    rw [List.cons_append, readTo, List.length_cons]
    cases passed : passes row with
    | true =>
      rw [if_pos rfl, ih (by omega), List.countP_cons_of_pos passed, Nat.add_sub_add_right]
      omega
    | false =>
      have fails : ¬ passes row = true := by rw [passed]; exact Bool.false_ne_true
      rw [if_neg Bool.false_ne_true, ih (by omega), List.countP_cons_of_neg fails]
      omega

private theorem readTo_none (fails : ∀ row ∈ rows, passes row = false) (positive : 0 < n) :
    readTo passes n rows = rows.length := by
  have read := @readTo_fails passes rows [] n fails positive
  rw [List.append_nil] at read
  rw [read]
  cases n <;> rfl

private theorem readTo_found {row : Row} (fails : ∀ row ∈ rows, passes row = false)
    (passed : passes row = true) :
    readTo passes (n + 1) (rows ++ row :: more) = rows.length + 1 + readTo passes n more := by
  rw [readTo_fails fails (Nat.succ_pos n), readTo, if_pos passed]
  omega

end ReadTo

section Limit

variable {types : List ColType} {make : Row → Option Row} {child : Operator}
  {left : Running child → List Row → Nat → Prop} {rows : List Row} {read n : Nat}
  {running : Running (limit child n)}

/-- A row of which something is made passes. -/
def passes (make : Row → Option Row) (row : Row) : Bool := (make row).isSome

theorem Drops.fails {rows : List Row} (drops : Drops make rows) :
    ∀ row ∈ rows, passes make row = false := by
  intro row member
  rw [passes, drops row member]
  rfl

private theorem countP_passes (make : Row → Option Row) (rows : List Row) :
    rows.countP (passes make) = (rows.filterMap make).length := by
  rw [List.length_filterMap_eq_countP]
  rfl

theorem Drops.filterMap {rows : List Row} (drops : Drops make rows) : rows.filterMap make = [] :=
  List.filterMap_eq_nil_iff.mpr drops

/-- A limit over rows of which `total` pass, those given among them. -/
def LimitLeft (make : Row → Option Row) (left : Running child → List Row → Nat → Prop)
    (total : Nat) (state : Limiting child) (rows : List Row) (read : Nat) : Prop :=
  left state.input rows read ∧ state.given + rows.countP (passes make) = total

theorem limit_produce (reads : Reads types make child left) {state : Limiting child} {total : Nat}
    (has : LimitLeft make left total state rows read) (more : state.given < n) (out : Row) :
    RowCall make (LimitLeft make left total) rows read ((limit child n).produce state out) := by
  obtain ⟨input, given⟩ := has
  have call := reads.next input out
  unfold limit
  dsimp only
  rw [if_neg (Nat.not_le.mpr more)]
  generalize child.next state.input out = result at call
  cases call with
  | ended drops later =>
    refine .ended drops ⟨later, ?_⟩
    rw [countP_passes, drops.filterMap] at given
    exact given
  | @found dropped rest row made new after split drops makes same later =>
    refine .found split drops makes same ⟨later, ?_⟩
    have passed : passes make row = true := by
      rw [passes, makes]
      rfl
    rw [split, List.countP_append, countP_passes make dropped, drops.filterMap,
      List.countP_cons_of_pos passed] at given
    rw [List.length_nil] at given
    change state.given + 1 + rest.countP (passes make) = total
    omega

private theorem limit_produceBatch (reads : Reads types make child left) {state : Limiting child}
    {total max : Nat} (has : LimitLeft make left total state rows read) (more : state.given < n)
    {out : Batch} (backs : Backs types out) (positive : 0 < max) :
    BatchCall make (LimitLeft make left total) rows read types (min max (n - state.given))
      ((limit child n).produceBatch state out max) := by
  obtain ⟨input, given⟩ := has
  have call := reads.nextBatch input out (min max (n - state.given)) backs
    (Nat.lt_min.mpr ⟨positive, Nat.sub_pos_of_lt more⟩)
  unfold limit
  dsimp only
  rw [if_neg (Nat.not_le.mpr more)]
  generalize child.nextBatch state.input out (min max (n - state.given)) = result at call
  cases call with
  | ended drops backs' later =>
    refine .ended drops backs' ⟨later, ?_⟩
    rw [countP_passes, drops.filterMap] at given
    exact given
  | @found dropped taken rest out' after split drops few some_ sound same later =>
    refine .found split drops few some_ sound same ⟨later, ?_⟩
    have count := length_rows out'
    rw [same, ← countP_passes] at count
    rw [split, List.countP_append, List.countP_append, countP_passes make dropped,
      drops.filterMap, List.length_nil] at given
    dsimp only
    omega

/-- By row. -/
theorem limit_drain (reads : Reads types make child left) {total : Nat} (calls : Nat)
    (has : LimitLeft make left total running.state rows read) (enough : rows.length < calls)
    (out : Row) :
    ∃ delivered after rest, (limit child n).drain calls running out = .ok (delivered, after) ∧
      delivered.map (List.map Field.plain) =
        (rows.filterMap make).take (n - running.state.given) ∧
      left after.state.input rest
        (read + readTo (passes make) (n - running.state.given) rows) := by
  induction calls generalizing running rows read out with
  | zero => exact absurd enough (Nat.not_lt_zero _)
  | succ calls ih =>
    unfold Operator.drain
    by_cases full : n ≤ running.state.given
    · have ended : (limit child n).next running out = .ok (none, running) := by
        unfold Operator.next limit
        dsimp only
        rw [if_pos full]
        rfl
      refine ⟨[], running, rows, ?_, ?_, ?_⟩
      · rw [ended]
        rfl
      · rw [Nat.sub_eq_zero_of_le full, List.take_zero]
        rfl
      · rw [Nat.sub_eq_zero_of_le full, readTo]
        exact has.1
    · have more := Nat.not_le.mp full
      have call := next_call (limit child n) (limit_produce reads has more out)
      generalize (limit child n).next running out = result at call
      cases call with
      | @ended after drops later =>
        refine ⟨[], after, [], rfl, ?_, ?_⟩
        · rw [drops.filterMap, List.take_nil]
          rfl
        · rw [readTo_none drops.fails (Nat.sub_pos_of_lt more)]
          exact later.1
      | @found dropped rest row made new after split drops makes same later =>
        have passed : passes make row = true := by
          rw [passes, makes]
          rfl
        have made_ : rows.filterMap make = made :: rest.filterMap make := by
          rw [split, List.filterMap_append, drops.filterMap, List.filterMap_cons_some makes]
          rfl
        have before := has.2
        have later_ := later.2
        rw [countP_passes, made_, List.length_cons] at before
        rw [countP_passes] at later_
        have fewer : rest.length < calls := by
          rw [split, List.length_append, List.length_cons] at enough
          omega
        obtain ⟨delivered, last, unread, drained, values, reached⟩ := ih later fewer new
        have budget : n - running.state.given = n - after.state.given + 1 := by omega
        refine ⟨new :: delivered, last, unread, ?_, ?_, ?_⟩
        · rw [ok_bind]
          dsimp only
          rw [drained]
          rfl
        · rw [List.map_cons, same, values, budget, made_, List.take_succ_cons]
        · rw [budget, split, readTo_found drops.fails passed, ← Nat.add_assoc, ← Nat.add_assoc]
          exact reached

/-- By batch. -/
theorem limit_drainBatches (reads : Reads types make child left) {total : Nat} (budgets : List Nat)
    (positive : ∀ max ∈ budgets, 0 < max) (has : LimitLeft make left total running.state rows read)
    (enough : rows.length < budgets.length) {out : Batch} (backs : Backs types out) :
    ∃ delivered after rest, (limit child n).drainBatches budgets running out =
        .ok (delivered, after) ∧
      delivered = (rows.filterMap make).take (n - running.state.given) ∧
      left after.state.input rest
        (read + readTo (passes make) (n - running.state.given) rows) := by
  induction budgets generalizing running rows read out with
  | nil => exact absurd enough (Nat.not_lt_zero _)
  | cons max budgets ih =>
    unfold Operator.drainBatches
    by_cases full : n ≤ running.state.given
    · have ended : (limit child n).nextBatch running out max = .ok (false, out, running) := by
        unfold Operator.nextBatch limit
        dsimp only
        rw [if_pos full]
        rfl
      refine ⟨[], running, rows, ?_, ?_, ?_⟩
      · rw [ended]
        rfl
      · rw [Nat.sub_eq_zero_of_le full, List.take_zero]
      · rw [Nat.sub_eq_zero_of_le full, readTo]
        exact has.1
    · have more := Nat.not_le.mp full
      have call := nextBatch_call (limit child n) (Nat.min_le_left max _)
        (limit_produceBatch reads has more backs (positive max List.mem_cons_self))
      generalize (limit child n).nextBatch running out max = result at call
      cases call with
      | @ended out after drops _ later =>
        refine ⟨[], after, [], rfl, ?_, ?_⟩
        · rw [drops.filterMap, List.take_nil]
        · rw [readTo_none drops.fails (Nat.sub_pos_of_lt more)]
          exact later.1
      | @found dropped taken rest out after split drops few some_ sound same later =>
        have asked : taken.length ≤ n - running.state.given :=
          Nat.le_trans few (Nat.min_le_right _ _)
        have made_ : rows.filterMap make = taken.filterMap make ++ rest.filterMap make := by
          rw [split, List.filterMap_append, List.filterMap_append, drops.filterMap]
          rfl
        have before := has.2
        have later_ := later.2
        rw [countP_passes, made_, List.length_append] at before
        rw [countP_passes] at later_
        have made_le := List.length_filterMap_le make taken
        have some_taken : 0 < taken.length :=
          Nat.lt_of_lt_of_le (List.length_pos_of_ne_nil some_) made_le
        have fewer : rest.length < budgets.length := by
          rw [split, List.length_append, List.length_append, List.length_cons] at enough
          omega
        obtain ⟨delivered, last, unread, drained, values, reached⟩ :=
          ih (fun other here => positive other (List.mem_cons_of_mem max here)) later fewer
            (backs_of_ready sound.toReady)
        have budget : n - after.state.given =
            n - running.state.given - (taken.filterMap make).length := by omega
        refine ⟨out.rows ++ delivered, last, unread, ?_, ?_, ?_⟩
        · rw [ok_bind]
          dsimp only
          rw [if_pos rfl, sound.readRows_eq, ok_bind, drained]
          rfl
        · rw [made_, List.take_append, List.take_of_length_le (by omega), values, same, budget]
        · rw [split, List.append_assoc, readTo_fails drops.fails (Nat.sub_pos_of_lt more),
            readTo_few asked, countP_passes, ← budget, ← Nat.add_assoc, ← Nat.add_assoc]
          exact reached

end Limit

end Labdb.Exec
