import Labdb.Query.Batch
import Mathlib.Logic.Function.Iterate

/-! Operators on the row path: something that hands out one row after another until there
are no more. Whoever reads one knows nothing of it but that its rows come to an end. -/

namespace Labdb.Query

/-- An opened operator. `bound` is a limit on the rows still to come, which every row
that is handed out lowers. -/
structure RowSource where
  State : Type
  next : State → Option Row × State
  bound : State → Nat
  lowers : ∀ {state row after}, next state = (some row, after) → bound after < bound state

namespace RowSource

/-- The loop `while (next(r)) rows.push_back(r)`, `calls` of it. -/
def collect (source : RowSource) : Nat → source.State → List Row × source.State
  | 0, state => ([], state)
  | calls + 1, state =>
    match source.next state with
    | (some row, after) =>
      let (rows, last) := source.collect calls after
      (row :: rows, last)
    | (none, after) => ([], after)

/-- All rows, up to the call that finds none. -/
def drain (source : RowSource) (state : source.State) : List Row × source.State :=
  source.collect (source.bound state + 1) state

/-- No call ever finds a row again. -/
def Exhausted (source : RowSource) (state : source.State) : Prop :=
  ∀ calls, (source.next (Nat.iterate (fun state => (source.next state).2) calls state)).1 = none

/-- The rows that a source hands out, one call after another, before it is exhausted. -/
inductive Yields (source : RowSource) : source.State → List Row → Prop where
  | nil {state : source.State} (exhausted : source.Exhausted state) : Yields source state []
  | cons {state after : source.State} {row : Row} {rows : List Row}
      (found : source.next state = (some row, after)) (rest : Yields source after rows) :
      Yields source state (row :: rows)

variable {source : RowSource} {state : source.State} {rows : List Row}

theorem Exhausted.next (exhausted : source.Exhausted state) :
    (source.next state).1 = none ∧ source.Exhausted (source.next state).2 :=
  ⟨exhausted 0, fun calls => exhausted (calls + 1)⟩

/-- A set of states in which no row is found is one of exhausted states. -/
theorem exhausted_of (done : source.State → Prop)
    (stays : ∀ state, done state → (source.next state).1 = none ∧ done (source.next state).2)
    (start : done state) : source.Exhausted state := by
  intro calls
  induction calls generalizing state with
  | zero => exact (stays state start).1
  | succ calls ih => exact ih (stays state start).2

/-- The rule for an operator: what its states still owe is handed out, row by row. -/
theorem yields_of (owes : source.State → List Row → Prop)
    (nothing : ∀ state, owes state [] →
      (source.next state).1 = none ∧ owes (source.next state).2 [])
    (something : ∀ state row rows, owes state (row :: rows) →
      ∃ after, source.next state = (some row, after) ∧ owes after rows)
    (start : owes state rows) : source.Yields state rows := by
  induction rows generalizing state with
  | nil => exact .nil (exhausted_of (owes · []) nothing start)
  | cons row rows ih =>
    obtain ⟨after, found, rest⟩ := something state row rows start
    exact .cons found (ih rest)

theorem Yields.length_le (yields : source.Yields state rows) : rows.length ≤ source.bound state := by
  induction yields with
  | nil => exact Nat.zero_le _
  | cons found _ ih => exact Nat.lt_of_le_of_lt ih (source.lowers found)

private theorem Yields.collect (yields : source.Yields state rows) {calls : Nat}
    (enough : rows.length < calls) : (source.collect calls state).1 = rows := by
  induction yields generalizing calls with
  | nil exhausted =>
    obtain ⟨left, rfl⟩ := Nat.exists_eq_succ_of_ne_zero (Nat.ne_of_gt enough)
    have none_ := exhausted.next.1
    unfold RowSource.collect
    split
    · simp_all
    · rfl
  | cons found _ ih =>
    obtain ⟨left, rfl⟩ := Nat.exists_eq_succ_of_ne_zero (Nat.ne_of_gt (Nat.lt_of_le_of_lt
      (Nat.zero_le _) enough))
    unfold RowSource.collect
    simp only [found]
    rw [ih (Nat.lt_of_succ_lt_succ enough)]

theorem Yields.drain (yields : source.Yields state rows) : (source.drain state).1 = rows :=
  yields.collect (Nat.lt_succ_of_le yields.length_le)

end RowSource

/-- An operator that was opened, ready to be read row by row. -/
structure RowPath where
  source : RowSource
  state : source.State

namespace RowPath

/-- The rows that a reader gets. -/
def rows (path : RowPath) : List Row := (path.source.drain path.state).1

def Delivers (path : RowPath) (rows : List Row) : Prop := path.source.Yields path.state rows

theorem Delivers.rows_eq {path : RowPath} {rows : List Row} (delivers : path.Delivers rows) :
    path.rows = rows :=
  delivers.drain

end RowPath

/-- Rows already in memory. -/
def rowsScan (rows : List Row) : RowSource where
  State := Nat
  next i := if i < rows.length then (some (rows.getD i []), i + 1) else (none, i)
  bound i := rows.length - i
  lowers := by
    intro i row after found
    split at found
    · cases found
      omega
    · cases found

private theorem rowsScan_yields (rows : List Row) : (rowsScan rows).Yields (0 : Nat) rows := by
  refine RowSource.yields_of (fun (i : Nat) left => rows.drop i = left) ?_ ?_ rfl
  · intro (i : Nat) nothing
    have past : ¬ i < rows.length := Nat.not_lt.mpr (List.drop_eq_nil_iff.mp nothing)
    have ended : (rowsScan rows).next i = (none, i) := if_neg past
    rw [ended]
    exact ⟨rfl, nothing⟩
  · intro (i : Nat) row left owed
    have inside : i < rows.length := by
      by_contra past
      rw [List.drop_eq_nil_iff.mpr (Nat.not_lt.mp past)] at owed
      cases owed
    rw [List.drop_eq_getElem_cons inside] at owed
    obtain ⟨rfl, rfl⟩ := List.cons.inj owed
    have found : (rowsScan rows).next i = (some (rows.getD i []), i + 1) := if_pos inside
    refine ⟨(i + 1 : Nat), ?_, rfl⟩
    have read : rows.getD i [] = rows[i] := by simp [List.getD_eq_getElem?_getD, inside]
    rw [found, read]
    rfl

/-- An opened scan of rows in memory. -/
def rowsPath (rows : List Row) : RowPath := ⟨rowsScan rows, (0 : Nat)⟩

theorem rowsPath_delivers (rows : List Row) : (rowsPath rows).Delivers rows := rowsScan_yields rows

end Labdb.Query
