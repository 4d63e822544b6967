import Labdb.Query.Aggregate
import Mathlib.Algebra.BigOperators.Group.List.Basic
import Mathlib.Algebra.Order.BigOperators.Group.List
import Mathlib.Tactic.Linarith

/-! `SUM` without `GROUP BY`, on the row path and on the batch path. The overflow test is
made on running sums, so the order of the rows counts. -/

namespace Labdb.Query

/-- The integer is one of `INT64`. -/
def Fits (total : Int) : Prop := -2 ^ 63 ≤ total ∧ total < 2 ^ 63

instance (total : Int) : Decidable (Fits total) := inferInstanceAs (Decidable (_ ∧ _))

private theorem fits_toInt (value : Int64) : Fits value.toInt := ⟨value.le_toInt, value.toInt_lt⟩

theorem bmod_fits {total : Int} (fits : Fits total) : total.bmod (2 ^ 64) = total := by
  obtain ⟨low, high⟩ := fits
  exact Int.bmod_eq_of_le (by norm_num; omega) (by norm_num; omega)

private theorem toInt_add_fits {sum value : Int64} (fits : Fits (sum.toInt + value.toInt)) :
    (sum + value).toInt = sum.toInt + value.toInt := by
  rw [Int64.toInt_add]
  exact bmod_fits fits

/-- The test of the code is exact. -/
theorem sumOverflows_iff (sum value : Int64) :
    sumOverflows sum value = true ↔ ¬ Fits (sum.toInt + value.toInt) := by
  have sum_fits := fits_toInt sum
  have value_fits := fits_toInt value
  have zero : (0 : Int64).toInt = 0 := rfl
  have most : Int64.maxValue.toInt = 2 ^ 63 - 1 := rfl
  have least : Int64.minValue.toInt = -2 ^ 63 := rfl
  unfold Fits at *
  simp only [sumOverflows, Bool.or_eq_true, Bool.and_eq_true, decide_eq_true_eq,
    Int64.lt_iff_toInt_lt, Int64.toInt_sub, zero, most, least]
  constructor
  · rintro (⟨positive, above⟩ | ⟨negative, below⟩)
    · rw [bmod_fits ⟨by omega, by omega⟩] at above
      omega
    · rw [bmod_fits ⟨by omega, by omega⟩] at below
      omega
  · intro unfit
    by_cases positive : 0 < value.toInt
    · refine .inl ⟨positive, ?_⟩
      rw [bmod_fits ⟨by omega, by omega⟩]
      omega
    · refine .inr ⟨by omega, ?_⟩
      rw [bmod_fits ⟨by omega, by omega⟩]
      omega

/-- Every sum on the way from `start` through the values is one of `INT64`. -/
def Runs : Int → List Int → Prop
  | _, [] => True
  | start, value :: rest => Fits (start + value) ∧ Runs (start + value) rest

theorem runs_iff {start : Int} {values : List Int} (fits : Fits start) :
    Runs start values ↔ ∀ n, Fits (start + (values.take n).sum) := by
  induction values generalizing start with
  | nil => simp [Runs, fits]
  | cons value rest ih =>
    constructor
    · rintro ⟨first, later⟩ n
      cases n with
      | zero => simpa using fits
      | succ n => simpa [add_assoc] using (ih first).mp later n
    · intro every
      have first : Fits (start + value) := by simpa using every 1
      refine ⟨first, (ih first).mpr fun n => ?_⟩
      simpa [add_assoc] using every (n + 1)

instance decidableRuns : (start : Int) → (values : List Int) → Decidable (Runs start values)
  | _, [] => isTrue trivial
  | start, value :: rest =>
    have := decidableRuns (start + value) rest
    inferInstanceAs (Decidable (_ ∧ _))

/-- The value that a row adds to a sum, unless it is NULL. -/
def addend (col : Nat) (row : Row) : Option Int64 :=
  if (Row.at row col).isNull then none else some (Row.at row col).i64

def addends (col : Nat) (rows : List Row) : List Int :=
  (rows.filterMap (addend col)).map Int64.toInt

/-- `SUM` of an integer column. -/
def sumOf (col : Nat) : AggSpec := { func := .kSum, col }

/-- The row path: each row is folded in as it comes. -/
def sumRows (col : Nat) (rows : List Row) : Except ExecError Field := do
  let state ← rows.foldlM (fun state row => aggUpdate (sumOf col) state (Row.at row col)) {}
  pure (aggResult (sumOf col) state)

/-- The batch path: all rows are of group 0. -/
def sumBatches (col : Nat) (batches : List Batch) : Except ExecError Field := do
  let states ← batches.foldlM
    (fun states batch => fold (sumOf col) (List.replicate batch.count 0) batch states)
    { counts := [0], sums := [0], best := ColumnVector.push {} (.null .kInt64) }
  pure (columnResult (sumOf col) states 0)

/-- The batches hand out the rows, the summed column one of integers. -/
def Delivers (col : Nat) (batches : List Batch) (rows : List Row) : Prop :=
  batches.flatMap Batch.rows = rows ∧
    ∀ batch ∈ batches, (batch.col col).type = .kInt64 ∨ (batch.col col).type = .kInt32

/-- What `SUM` is to be: the exact sum, or the error where that is no `INT64`. -/
def exactSum (col : Nat) (rows : List Row) : Except ExecError Field :=
  let total := (addends col rows).sum
  if addends col rows = [] then pure (.null .kInt64)
  else if Fits total then pure (.ofInt64 (.ofInt total)) else throw (overflowError (sumOf col))

/-- An outcome that the rows have on the row path, or on the batch path under some split. -/
inductive SumOutcome (col : Nat) (rows : List Row) : Except ExecError Field → Prop where
  | rows : SumOutcome col rows (sumRows col rows)
  | batches {batches : List Batch} (delivers : Delivers col batches rows) :
      SumOutcome col rows (sumBatches col batches)

section Paths

variable {col : Nat} {rows : List Row}

theorem runs_append {start : Int} {front back : List Int} :
    Runs start (front ++ back) ↔ Runs start front ∧ Runs (start + front.sum) back := by
  induction front generalizing start with
  | nil => simp [Runs]
  | cons value rest ih => simp [Runs, ih, and_assoc, add_assoc]

private theorem addends_append (front back : List Row) :
    addends col (front ++ back) = addends col front ++ addends col back := by
  simp [addends]

theorem ofInt_add (sum value : Int64) :
    Int64.ofInt (sum.toInt + value.toInt) = sum + value := by
  rw [Int64.ofInt_add, Int64.ofInt_toInt, Int64.ofInt_toInt]

private theorem aggUpdate_sum (state : AggState) (value : Field) :
    aggUpdate (sumOf col) state value =
      if value.isNull then pure state
      else if sumOverflows state.sum value.i64 then throw (overflowError (sumOf col))
      else pure { state with count := state.count + 1, sum := state.sum + value.i64 } := rfl

private theorem addends_cons {row : Row} :
    addends col (row :: rows) =
      if (Row.at row col).isNull then addends col rows
      else (Row.at row col).i64.toInt :: addends col rows := by
  unfold addends addend
  cases null : (Row.at row col).isNull <;> simp [null]

/-- The row path raises where a running sum leaves `INT64`, and adds up exactly if none does. -/
theorem foldlM_aggUpdate (state : AggState) :
    rows.foldlM (fun state row => aggUpdate (sumOf col) state (Row.at row col)) state =
      if Runs state.sum.toInt (addends col rows) then
        pure { state with
          count := state.count + (addends col rows).length
          sum := .ofInt (state.sum.toInt + (addends col rows).sum) }
      else throw (overflowError (sumOf col)) := by
  induction rows generalizing state with
  | nil => simp [addends, Runs, Int64.ofInt_toInt]
  | cons row rest ih =>
    rw [List.foldlM_cons, aggUpdate_sum, addends_cons]
    cases (Row.at row col).isNull with
    | true => simpa using ih state
    | false =>
      have tested := sumOverflows_iff state.sum (Row.at row col).i64
      by_cases fits : Fits (state.sum.toInt + (Row.at row col).i64.toInt)
      · rw [if_neg Bool.false_ne_true, if_neg (fun wraps => tested.mp wraps fits), pure_bind, ih]
        simp [toInt_add_fits fits, Runs, fits, add_assoc, add_comm 1]
      · rw [if_neg Bool.false_ne_true, if_pos (tested.mpr fits)]
        simp only [Bool.false_eq_true, ↓reduceIte, Runs, fits, false_and]
        rfl

theorem Batch.length_liveRows (batch : Batch) : batch.liveRows.length = batch.count := by
  simp [Batch.liveRows]

private theorem Batch.at_getRow (batch : Batch) (i : Nat) :
    Row.at (batch.getRow i) col = (batch.col col).get i := by
  unfold Row.at Batch.getRow Batch.col
  rw [List.getD_eq_getElem?_getD, List.getD_eq_getElem?_getD, List.getElem?_map]
  cases batch.cols[col]? <;> rfl

private theorem ColumnVector.get_integer {column : ColumnVector} (i : Nat)
    (integer : column.type = .kInt64 ∨ column.type = .kInt32) :
    (column.get i).isNull = column.nullAt i ∧
      (column.nullAt i = false → (column.get i).i64 = column.intAt i) := by
  rcases integer with type | type <;> simp only [ColumnVector.get, type, true_and] <;>
    exact fun present => by simp [present]

/-- One group's states: a count and a sum. -/
def oneGroup (count : Nat) (sum : Int64) (best : ColumnVector) : AggColumn :=
  { counts := [count], sums := [sum], best }

/-- Once an overflow was met it is not forgotten. -/
theorem foldSum_stuck {column : ColumnVector} (states : AggColumn) (positions : List Nat) :
    (positions.foldl (fun state i => foldSum column state 0 i) (states, true)).2 = true := by
  induction positions generalizing states with
  | nil => rfl
  | cons i rest ih =>
    rw [List.foldl_cons]
    unfold foldSum
    cases column.nullAt i with
    | true => exact ih states
    | false => exact ih _

/-- The loop of `fold` over rows of the one group. -/
theorem foldl_foldSum {batch : Batch}
    (integer : (batch.col col).type = .kInt64 ∨ (batch.col col).type = .kInt32)
    (positions : List Nat) (count : Nat) (sum : Int64) (best : ColumnVector) :
    let values := addends col (positions.map batch.getRow)
    let after := positions.foldl (fun state i => foldSum (batch.col col) state 0 i)
      (oneGroup count sum best, false)
    (Runs sum.toInt values →
      after = (oneGroup (count + values.length) (.ofInt (sum.toInt + values.sum)) best, false)) ∧
    (¬ Runs sum.toInt values → after.2 = true) := by
  induction positions generalizing count sum with
  | nil => simp [addends, Runs, Int64.ofInt_toInt]
  | cons i rest ih =>
    obtain ⟨null, value⟩ := ColumnVector.get_integer i integer
    dsimp only
    rw [List.map_cons, addends_cons, Batch.at_getRow, null, List.foldl_cons]
    cases nullAt : (batch.col col).nullAt i with
    | true =>
      have skipped : foldSum (batch.col col) (oneGroup count sum best, false) 0 i =
          (oneGroup count sum best, false) := by simp [foldSum, nullAt]
      rw [skipped]
      exact ih count sum
    | false =>
      rw [value nullAt, if_neg Bool.false_ne_true]
      have tested := sumOverflows_iff sum ((batch.col col).intAt i)
      by_cases fits : Fits (sum.toInt + ((batch.col col).intAt i).toInt)
      · have calm : sumOverflows sum ((batch.col col).intAt i) = false :=
          Bool.eq_false_iff.mpr fun wraps => tested.mp wraps fits
        have added : foldSum (batch.col col) (oneGroup count sum best, false) 0 i =
            (oneGroup (count + 1) (sum + (batch.col col).intAt i) best, false) := by
          simp [foldSum, nullAt, oneGroup, calm]
        have later := ih (count + 1) (sum + (batch.col col).intAt i)
        rw [added]
        simpa [toInt_add_fits fits, Runs, fits, add_assoc, add_comm 1] using later
      · have stopped : foldSum (batch.col col) (oneGroup count sum best, false) 0 i =
            (oneGroup (count + 1) sum best, true) := by
          simp [foldSum, nullAt, oneGroup, tested.mpr fits]
        rw [stopped]
        exact ⟨fun runs => absurd runs.1 fits, fun _ => foldSum_stuck _ rest⟩

private theorem fold_sum {batch : Batch}
    (integer : (batch.col col).type = .kInt64 ∨ (batch.col col).type = .kInt32)
    (count : Nat) (sum : Int64) (best : ColumnVector) :
    fold (sumOf col) (List.replicate batch.count 0) batch (oneGroup count sum best) =
      if Runs sum.toInt (addends col batch.rows) then
        pure (oneGroup (count + (addends col batch.rows).length)
          (.ofInt (sum.toInt + (addends col batch.rows).sum)) best)
      else throw (overflowError (sumOf col)) := by
  have zipped : (List.replicate batch.count 0).zip batch.liveRows =
      batch.liveRows.map fun i => (0, i) := by
    rw [← batch.length_liveRows]
    induction batch.liveRows with
    | nil => rfl
    | cons i rest ih => exact congrArg _ ih
  obtain ⟨returns, raises⟩ := foldl_foldSum integer batch.liveRows count sum best
  simp only [fold, sumOf, Bool.false_eq_true, ↓reduceIte, zipped, List.foldl_map]
  by_cases runs : Runs sum.toInt (addends col batch.rows)
  · rw [if_pos runs, returns runs]
    rfl
  · rw [if_neg runs, raises runs]
    rfl

private theorem foldlM_fold {batches : List Batch}
    (integer : ∀ batch ∈ batches, (batch.col col).type = .kInt64 ∨ (batch.col col).type = .kInt32)
    (count : Nat) (sum : Int64) (best : ColumnVector) :
    let values := addends col (batches.flatMap Batch.rows)
    batches.foldlM (fun states batch =>
        fold (sumOf col) (List.replicate batch.count 0) batch states) (oneGroup count sum best) =
      if Runs sum.toInt values then
        pure (oneGroup (count + values.length) (.ofInt (sum.toInt + values.sum)) best)
      else throw (overflowError (sumOf col)) := by
  induction batches generalizing count sum with
  | nil => simp [addends, Runs, Int64.ofInt_toInt]
  | cons batch rest ih =>
    have first := fold_sum (integer batch List.mem_cons_self) count sum best
    have later := ih fun other member => integer other (List.mem_cons_of_mem _ member)
    rw [List.foldlM_cons, first]
    simp only [List.flatMap_cons, addends_append, runs_append]
    by_cases runs : Runs sum.toInt (addends col batch.rows)
    · have fits : Fits (sum.toInt + (addends col batch.rows).sum) := by
        have every := (runs_iff (fits_toInt sum)).mp runs (addends col batch.rows).length
        rwa [List.take_length] at every
      have exact_ : (Int64.ofInt (sum.toInt + (addends col batch.rows).sum)).toInt =
          sum.toInt + (addends col batch.rows).sum := by
        rw [Int64.toInt_ofInt]
        exact bmod_fits fits
      rw [if_pos runs, pure_bind, later, exact_]
      simp [runs, add_assoc]
    · rw [if_neg runs]
      simp only [runs, false_and, ↓reduceIte]
      rfl

/-- All paths do the same: they add up exactly as long as every running sum fits. -/
theorem SumOutcome.eq {outcome : Except ExecError Field} (reached : SumOutcome col rows outcome) :
    outcome =
      if Runs 0 (addends col rows) then
        pure (if addends col rows = [] then .null .kInt64
          else .ofInt64 (.ofInt (addends col rows).sum))
      else throw (overflowError (sumOf col)) := by
  cases reached with
  | rows =>
    have ran := @foldlM_aggUpdate col rows {}
    have zero : (0 : Int64).toInt = 0 := rfl
    simp only [zero, zero_add] at ran
    rw [sumRows, ran]
    split
    · simp [aggResult, sumOf]
    · rfl
  | @batches batches delivers =>
    obtain ⟨rfl, integer⟩ := delivers
    have ran := foldlM_fold integer 0 0 (ColumnVector.push {} (.null .kInt64))
    have zero : (0 : Int64).toInt = 0 := rfl
    simp only [zero, zero_add] at ran
    rw [sumBatches]
    refine (congrArg (· >>= _) ran).trans ?_
    split
    · simp [columnResult, oneGroup, sumOf]
    · rfl

private theorem runs_fits {values : List Int} (runs : Runs 0 values) : Fits values.sum := by
  have every := (runs_iff ⟨by norm_num, by norm_num⟩).mp runs values.length
  simpa using every

/-- An outcome is the exact sum unless a running sum left `INT64` and came back. -/
theorem SumOutcome.exact_iff {outcome : Except ExecError Field}
    (reached : SumOutcome col rows outcome) :
    outcome = exactSum col rows ↔
      Runs 0 (addends col rows) ∨ ¬ Fits (addends col rows).sum := by
  rw [reached.eq, exactSum]
  by_cases runs : Runs 0 (addends col rows)
  · simp only [runs, runs_fits runs, ↓reduceIte, true_or, iff_true]
    split <;> rfl
  · rw [if_neg runs]
    have some_ : addends col rows ≠ [] := fun none_ => runs (none_ ▸ trivial)
    by_cases fits : Fits (addends col rows).sum
    · simp only [some_, ↓reduceIte, fits, runs, not_true_eq_false, or_self, iff_false]
      exact fun same => nomatch same
    · simp [some_, fits]

end Paths

section Orders

variable {col : Nat} {rows rows' : List Row}

theorem addends_perm (col : Nat) (perm : rows.Perm rows') : (addends col rows).Perm (addends col rows') :=
  (perm.filterMap _).map _

theorem exactSum_perm (col : Nat) (perm : rows.Perm rows') : exactSum col rows = exactSum col rows' := by
  have same := (addends_perm col perm).sum_eq
  have none_ : addends col rows = [] ↔ addends col rows' = [] := by
    constructor
    · exact fun empty => List.nil_perm.mp (empty ▸ addends_perm col perm)
    · exact fun empty => List.nil_perm.mp (empty ▸ (addends_perm col perm).symm)
  simp only [exactSum, same, none_]

/-- The sum of the values above zero, and of those below. -/
def above (values : List Int) : Int := (values.filter (0 < ·)).sum

def below (values : List Int) : Int := (values.filter (· < 0)).sum

theorem above_append (front back : List Int) : above (front ++ back) = above front + above back := by
  simp [above]

theorem below_append (front back : List Int) : below (front ++ back) = below front + below back := by
  simp [below]

private theorem below_le_above (values : List Int) : below values ≤ 0 ∧ 0 ≤ above values := by
  induction values with
  | nil => exact ⟨le_refl _, le_refl _⟩
  | cons value rest ih =>
    simp only [above, below, List.filter_cons] at ih ⊢
    split <;> split <;> simp_all <;> omega

theorem sum_le_above (values : List Int) : below values ≤ values.sum ∧ values.sum ≤ above values := by
  induction values with
  | nil => simp [above, below]
  | cons value rest ih =>
    simp only [above, below, List.filter_cons, List.sum_cons] at ih ⊢
    rcases lt_trichotomy value 0 with negative | rfl | positive
    · simp only [negative, not_lt_of_gt negative, decide_true, decide_false, ↓reduceIte,
        Bool.false_eq_true, List.sum_cons]
      omega
    · simpa using ih
    · simp only [positive, not_lt_of_gt positive, decide_true, decide_false, ↓reduceIte,
        Bool.false_eq_true, List.sum_cons]
      omega

private theorem above_take_le (values : List Int) (n : Nat) :
    below values ≤ below (values.take n) ∧ above (values.take n) ≤ above values := by
  have parts : values.take n ++ values.drop n = values := List.take_append_drop n values
  have rest := below_le_above (values.drop n)
  have whole_above := above_append (values.take n) (values.drop n)
  have whole_below := below_append (values.take n) (values.drop n)
  rw [parts] at whole_above whole_below
  omega

/-- No order of the values leads a running sum out of `INT64`. -/
theorem runs_of_above {values : List Int} (high : Fits (above values)) (low : Fits (below values)) :
    Runs 0 values := by
  refine (runs_iff ⟨by norm_num, by norm_num⟩).mpr fun n => ?_
  have bounds := sum_le_above (values.take n)
  have bounds' := above_take_le values n
  unfold Fits at *
  omega

private theorem runs_addends_iff :
    Runs 0 (addends col rows) ↔ ∀ n, Fits ((addends col rows).take n).sum := by
  simpa using @runs_iff 0 (addends col rows) ⟨by norm_num, by norm_num⟩

private theorem addends_filter (test : Int → Bool) :
    addends col (rows.filter fun row => (addend col row).any (test ·.toInt)) =
      (addends col rows).filter test := by
  induction rows with
  | nil => rfl
  | cons row rest ih =>
    unfold addends at ih ⊢
    cases found : addend col row with
    | none => simpa [found] using ih
    | some value =>
      cases passes : test value.toInt with
      | true => simpa [found, passes] using ih
      | false => simpa [found, passes] using ih

/-- An order in which some prefix is just the rows that a test picks. -/
theorem fits_filter {test : Int → Bool}
    (exact_ : ∀ rows', rows'.Perm rows → sumRows col rows' = exactSum col rows)
    (fits : Fits (addends col rows).sum) : Fits ((addends col rows).filter test).sum := by
  let picked := rows.filter fun row => (addend col row).any (test ·.toInt)
  let others := rows.filter fun row => !(addend col row).any (test ·.toInt)
  have perm : (picked ++ others).Perm rows := List.filter_append_perm _ rows
  have same := exact_ _ perm
  rw [← exactSum_perm col perm] at same
  have runs := (SumOutcome.rows.exact_iff.mp same).resolve_right fun unfit =>
    unfit ((addends_perm col perm).sum_eq ▸ fits)
  rw [addends_append, runs_append] at runs
  rw [← addends_filter test]
  exact runs_fits runs.1

/-- `SUM` is exact, for rows in a given order, just if no running sum leaves `INT64` or
the total does; and for rows in every order, just if the values of one sign do not add
up to more than `INT64` holds or the total does. -/
theorem sum_exact_iff (col : Nat) (rows : List Row) :
    (∀ outcome, SumOutcome col rows outcome →
      (outcome = exactSum col rows ↔
        (∀ n, Fits ((addends col rows).take n).sum) ∨ ¬ Fits (addends col rows).sum)) ∧
    ((∀ rows', rows'.Perm rows → ∀ outcome, SumOutcome col rows' outcome →
        outcome = exactSum col rows) ↔
      Fits (above (addends col rows)) ∧ Fits (below (addends col rows)) ∨
        ¬ Fits (addends col rows).sum) := by
  refine ⟨fun outcome reached => ?_, fun exact_ => ?_, fun condition rows' perm outcome reached => ?_⟩
  · rw [reached.exact_iff, runs_addends_iff]
  · by_cases fits : Fits (addends col rows).sum
    · have every : ∀ rows', rows'.Perm rows → sumRows col rows' = exactSum col rows :=
        fun rows' perm => exact_ rows' perm _ .rows
      exact .inl ⟨fits_filter every fits, fits_filter every fits⟩
    · exact .inr fits
  · rw [← exactSum_perm col perm, reached.exact_iff]
    have same := addends_perm col perm
    rcases condition with ⟨high, low⟩ | unfit
    · refine .inl (runs_of_above ?_ ?_)
      · rwa [above, (same.filter _).sum_eq]
      · rwa [below, (same.filter _).sum_eq]
    · exact .inr (same.sum_eq ▸ unfit)

/-- The largest value, 1 and -1: their sum is the largest value, and is refused. -/
theorem sum_overflows_midway :
    let rows : List Row := [[.ofInt64 Int64.maxValue], [.ofInt64 1], [.ofInt64 (-1)]]
    exactSum 0 rows = pure (.ofInt64 Int64.maxValue) ∧
      sumRows 0 rows = throw (overflowError (sumOf 0)) ∧
      sumRows 0 rows.reverse = pure (.ofInt64 Int64.maxValue) := by
  decide

end Orders

end Labdb.Query
