import Labdb.Query.Table

/-! The operators that hand on one row at a time as it comes, on the row path: a search by
key, a filter, a list of columns and a limit. -/

namespace Labdb.Query

/-- The state of an `IndexLookup` is whether it is done. -/
def lookupSource (table : Table) (key : Option Key) : RowSource where
  State := Bool
  next done :=
    if done then (none, true)
    else
      match key with
      | none => (none, true)
      | some key => (table.byKey key, true)
  bound done := if done then 0 else 1
  lowers := by
    intro done row after found
    cases done with
    | true => cases found
    | false =>
      cases key with
      | none => cases found
      | some key =>
        obtain ⟨-, rfl⟩ := Prod.mk.inj found
        exact Nat.one_pos

/-- `IndexLookup`, opened: without a key there is no row. -/
def indexLookup (table : Table) (key : Option Key) : RowPath := ⟨lookupSource table key, false⟩

theorem indexLookup_delivers (table : Table) (key : Option Key) :
    (indexLookup table key).Delivers (key.bind table.byKey).toList := by
  have done : (lookupSource table key).Exhausted true := by
    refine RowSource.exhausted_of (fun (done : Bool) => done = true) ?_ rfl
    rintro _ rfl
    exact ⟨rfl, rfl⟩
  have first : (lookupSource table key).next false = (key.bind table.byKey, true) := by
    cases key with
    | none => rfl
    | some key => rfl
  cases read : key.bind table.byKey with
  | some row => exact .cons (first.trans (congrArg (·, true) read)) (.nil done)
  | none =>
    refine .nil ?_
    intro calls
    cases calls with
    | zero => exact (congrArg Prod.fst first).trans read
    | succ calls =>
      rw [Function.iterate_succ_apply]
      exact (congrArg (fun state => ((lookupSource table key).next
        (Nat.iterate (fun state => ((lookupSource table key).next state).2) calls state)).1)
        (congrArg Prod.snd first)).trans (done calls)

/-- The loop of `Filter`, at most `reads` rows of it. -/
def filterNext (source : RowSource) (preds : List BoundComparison) :
    Nat → source.State → Option Row × source.State
  | 0, state => (none, state)
  | reads + 1, state =>
    match source.next state with
    | (none, after) => (none, after)
    | (some row, after) =>
      if preds.all (eval · row) then (some row, after) else filterNext source preds reads after

section Filter

variable {source : RowSource} {preds : List BoundComparison}

private theorem filterNext_lowers {reads : Nat} {state after : source.State} {row : Row}
    (found : filterNext source preds reads state = (some row, after)) :
    source.bound after < source.bound state := by
  induction reads generalizing state with
  | zero => cases found
  | succ reads ih =>
    unfold filterNext at found
    split at found
    · cases found
    · rename_i first next read
      have lower := source.lowers read
      split at found
      · cases found
        exact lower
      · exact Nat.lt_trans (ih found) lower

/-- A row that fails a term is passed over. -/
def filterSource (source : RowSource) (preds : List BoundComparison) : RowSource where
  State := source.State
  next state := filterNext source preds (source.bound state + 1) state
  bound := source.bound
  lowers := filterNext_lowers

theorem filterNext_yields (preds : List BoundComparison) {rows : List Row} {state : source.State} {reads : Nat}
    (yields : source.Yields state rows) (enough : rows.length < reads) :
    match rows.filter fun row => preds.all (eval · row) with
    | [] => ∃ after, filterNext source preds reads state = (none, after) ∧
        source.Exhausted after
    | row :: kept => ∃ after left, filterNext source preds reads state = (some row, after) ∧
        source.Yields after left ∧ kept = left.filter fun row => preds.all (eval · row) := by
  induction yields generalizing reads with
  | @nil state exhausted =>
    obtain ⟨left, rfl⟩ := Nat.exists_eq_succ_of_ne_zero (Nat.ne_of_gt enough)
    obtain ⟨ended, exhausted'⟩ := exhausted.next
    refine ⟨(source.next state).2, ?_, exhausted'⟩
    unfold filterNext
    rcases read : source.next state with ⟨_ | row, after⟩
    · rfl
    · rw [read] at ended
      cases ended
  | @cons state after row rows found rest ih =>
    obtain ⟨left, rfl⟩ := Nat.exists_eq_succ_of_ne_zero
      (Nat.ne_of_gt (Nat.lt_of_le_of_lt (Nat.zero_le _) enough))
    unfold filterNext
    simp only [found]
    cases passes : preds.all (eval · row) with
    | true =>
      rw [List.filter_cons_of_pos (by simpa using passes)]
      exact ⟨after, rows, rfl, rest, rfl⟩
    | false =>
      rw [List.filter_cons_of_neg (by simpa using passes)]
      exact ih (Nat.lt_of_succ_lt_succ enough)

end Filter

/-- `Filter`, opened. -/
def filterPath (child : RowPath) (preds : List BoundComparison) : RowPath :=
  ⟨filterSource child.source preds, child.state⟩

theorem filterPath_delivers {child : RowPath} {rows : List Row} (preds : List BoundComparison)
    (delivers : child.Delivers rows) :
    (filterPath child preds).Delivers (rows.filter fun row => preds.all (eval · row)) := by
  refine @RowSource.yields_of (filterSource child.source preds) _ _
    (fun state owed => ∃ left, child.source.Yields state left ∧
      owed = left.filter fun row => preds.all (eval · row)) ?_ ?_ ⟨rows, delivers, rfl⟩
  · rintro state ⟨left, yields, nothing⟩
    have ran := filterNext_yields preds yields (Nat.lt_succ_of_le yields.length_le)
    rw [← nothing] at ran
    obtain ⟨after, ended, exhausted⟩ := ran
    have next : (filterSource child.source preds).next state = (none, after) := ended
    rw [next]
    exact ⟨rfl, [], .nil exhausted, rfl⟩
  · rintro state row owed ⟨left, yields, something⟩
    have ran := filterNext_yields preds yields (Nat.lt_succ_of_le yields.length_le)
    rw [← something] at ran
    obtain ⟨after, later, found, yields', rest⟩ := ran
    exact ⟨after, found, later, yields', rest⟩

/-- The named columns of each row. -/
def projectRow (cols : List Nat) (row : Row) : Row := cols.map (Row.at row)

def projectSource (source : RowSource) (cols : List Nat) : RowSource where
  State := source.State
  next state :=
    let (row, after) := source.next state
    (row.map (projectRow cols), after)
  bound := source.bound
  lowers := by
    intro state row after found
    rcases read : source.next state with ⟨_ | first, next⟩
    · rw [read] at found
      cases found
    · rw [read] at found
      cases found
      exact source.lowers read

/-- `Project`, opened. -/
def projectPath (child : RowPath) (cols : List Nat) : RowPath :=
  ⟨projectSource child.source cols, child.state⟩

private theorem projectSource_yields {source : RowSource} {cols : List Nat} {state : source.State}
    {rows : List Row} (yields : source.Yields state rows) :
    (projectSource source cols).Yields state (rows.map (projectRow cols)) := by
  induction yields with
  | @nil state exhausted =>
    refine .nil (@RowSource.exhausted_of (projectSource source cols) _ source.Exhausted ?_
      exhausted)
    intro state exhausted
    obtain ⟨ended, exhausted'⟩ := exhausted.next
    exact ⟨congrArg (Option.map (projectRow cols)) ended, exhausted'⟩
  | @cons state after row rows found _ ih =>
    refine @RowSource.Yields.cons (projectSource source cols) state after _ _ ?_ ih
    simp only [projectSource, found, Option.map_some]

theorem projectPath_delivers {child : RowPath} {rows : List Row} (cols : List Nat)
    (delivers : child.Delivers rows) :
    (projectPath child cols).Delivers (rows.map (projectRow cols)) :=
  projectSource_yields delivers

/-- The state of a `Limit` counts the rows given. -/
def limitSource (source : RowSource) (n : Nat) : RowSource where
  State := source.State × Nat
  next := fun (state, given) =>
    if n ≤ given then (none, (state, given))
    else
      match source.next state with
      | (none, after) => (none, (after, given))
      | (some row, after) => (some row, (after, given + 1))
  bound := fun (_, given) => n - given
  lowers := by
    rintro ⟨state, given⟩ row ⟨after, given'⟩ found
    dsimp only at found
    split at found
    · cases found
    · split at found
      · cases found
      · cases found
        dsimp only
        omega

/-- `Limit`, opened. -/
def limitPath (child : RowPath) (n : Nat) : RowPath :=
  ⟨limitSource child.source n, (child.state, 0)⟩

private theorem limitSource_yields {source : RowSource} {n given : Nat} {state : source.State}
    {rows : List Row} (yields : source.Yields state rows) :
    (limitSource source n).Yields (state, given) (rows.take (n - given)) := by
  have full : ∀ {state : source.State} {given : Nat}, n ≤ given →
      (limitSource source n).Exhausted (state, given) := by
    intro state given enough
    refine @RowSource.exhausted_of (limitSource source n) _
      (fun (state : source.State × Nat) => n ≤ state.2) ?_ enough
    rintro ⟨state, given⟩ enough
    simp only [limitSource, if_pos enough, true_and]
    exact enough
  induction yields generalizing given with
  | @nil state exhausted =>
    rw [List.take_nil]
    refine .nil (@RowSource.exhausted_of (limitSource source n) _
      (fun (state : source.State × Nat) => source.Exhausted state.1) ?_ exhausted)
    rintro ⟨state, given⟩ exhausted
    obtain ⟨ended, exhausted'⟩ := exhausted.next
    unfold limitSource
    dsimp only
    split
    · exact ⟨rfl, exhausted⟩
    · split
      · rename_i after read
        rw [read] at exhausted'
        exact ⟨rfl, exhausted'⟩
      · rename_i row after read
        rw [read] at ended
        cases ended
  | @cons state after row rows found _ ih =>
    by_cases enough : n ≤ given
    · rw [Nat.sub_eq_zero_of_le enough, List.take_zero]
      exact .nil (full enough)
    · have more : n - given = n - (given + 1) + 1 := by omega
      rw [more, List.take_succ_cons]
      refine @RowSource.Yields.cons (limitSource source n) (state, given) (after, given + 1) _ _
        ?_ ih
      simp only [limitSource, if_neg enough, found]

theorem limitPath_delivers {child : RowPath} {rows : List Row} (n : Nat)
    (delivers : child.Delivers rows) : (limitPath child n).Delivers (rows.take n) :=
  limitSource_yields delivers

end Labdb.Query
