import Labdb.Query.Operator

/-! What the joins share on the row path: one row after another is read from an input, and
for each of them the matches are handed out until there are no more. -/

namespace Labdb.Query

/-- A search for the matches of one row. `left` is a limit on the matches still to come
and `most` one for every row. -/
structure Probe where
  Search : Type
  start : Row → Option Search
  advance : Row → Search → Option Row × Search
  left : Search → Nat
  most : Nat
  start_le : ∀ {outer search}, start outer = some search → left search ≤ most
  lowers : ∀ {outer search row after}, advance outer search = (some row, after) →
    left after < left search

namespace Probe

/-- The state of a join; a search is under way while there is one. -/
structure State (probe : Probe) (source : RowSource) where
  input : source.State
  outer : Row := []
  search : Option probe.Search := none

variable {probe : Probe} {source : RowSource}

/-- Go on with the search that is under way. -/
def resume (state : probe.State source) : Option Row × probe.State source :=
  match state.search with
  | none => (none, state)
  | some search =>
    match probe.advance state.outer search with
    | (some row, after) => (some row, { state with search := some after })
    | (none, _) => (none, { state with search := none })

/-- The loop of `produce`; each turn after the first reads a row of the input. -/
def produce : Nat → probe.State source → Option Row × probe.State source
  | reads, state =>
    match resume state with
    | (some row, after) => (some row, after)
    | (none, after) =>
      match reads with
      | 0 => (none, after)
      | reads + 1 =>
        match source.next after.input with
        | (none, input) => (none, { after with input })
        | (some outer, input) => produce reads { input, outer, search := probe.start outer }

def bound (state : probe.State source) : Nat :=
  source.bound state.input * probe.most + (state.search.map probe.left).getD 0

private theorem resume_some {state after : probe.State source} {row : Row}
    (found : resume state = (some row, after)) : bound after < bound state := by
  unfold resume at found
  split at found
  · cases found
  · rename_i search under
    split at found
    · rename_i row' after' advanced
      cases found
      have lower := probe.lowers advanced
      simp only [bound, under, Option.map_some, Option.getD_some]
      omega
    · cases found

private theorem resume_none {state after : probe.State source}
    (found : resume state = (none, after)) :
    after.input = state.input ∧ after.search = none := by
  unfold resume at found
  split at found
  · rename_i idle
    cases found
    exact ⟨rfl, idle⟩
  · split at found
    · cases found
    · cases found
      exact ⟨rfl, rfl⟩

private theorem produce_lowers {reads : Nat} {state after : probe.State source} {row : Row}
    (found : produce reads state = (some row, after)) : bound after < bound state := by
  induction reads generalizing state with
  | zero =>
    unfold produce at found
    split at found
    · rename_i found'
      cases found
      exact resume_some found'
    · cases found
  | succ reads ih =>
    unfold produce at found
    split at found
    · rename_i found'
      cases found
      exact resume_some found'
    · rename_i between found'
      obtain ⟨same, idle⟩ := resume_none found'
      dsimp only at found
      split at found
      · cases found
      · rename_i outer input read
        have later := ih found
        have lower := source.lowers read
        have scaled := Nat.mul_le_mul_right probe.most (Nat.succ_le_of_lt lower)
        have begun : ((probe.start outer).map probe.left).getD 0 ≤ probe.most := by
          cases started : probe.start outer with
          | none => exact Nat.zero_le _
          | some search => exact probe.start_le started
        simp only [bound] at later ⊢
        rw [← same]
        rw [Nat.succ_eq_add_one, Nat.add_mul, Nat.one_mul] at scaled
        omega

/-- The join as an operator. -/
def run (probe : Probe) (source : RowSource) : RowSource where
  State := probe.State source
  next state := produce (source.bound state.input + 1) state
  bound := bound
  lowers := produce_lowers

/-- The matches that a search hands out. -/
inductive Finds (probe : Probe) (outer : Row) : probe.Search → List Row → Prop where
  | nil {search after : probe.Search} (ended : probe.advance outer search = (none, after)) :
      Finds probe outer search []
  | cons {search after : probe.Search} {row : Row} {rows : List Row}
      (found : probe.advance outer search = (some row, after))
      (rest : Finds probe outer after rows) : Finds probe outer search (row :: rows)

/-- The rows that a row of the input leads to. -/
def Matches (probe : Probe) (outer : Row) (rows : List Row) : Prop :=
  match probe.start outer with
  | none => rows = []
  | some search => probe.Finds outer search rows

/-- The search under way still finds these matches. -/
def Under (state : probe.State source) (here : List Row) : Prop :=
  match state.search with
  | none => here = []
  | some search => probe.Finds state.outer search here

private theorem resume_nil {state : probe.State source} (under : Under state []) :
    ∃ after, resume state = (none, after) ∧ after.input = state.input ∧ after.search = none := by
  obtain ⟨input, outer, _ | search⟩ := state
  · exact ⟨_, rfl, rfl, rfl⟩
  · cases under with
    | nil ended =>
      refine ⟨{ input, outer }, ?_, rfl, rfl⟩
      simp only [resume, ended]

private theorem resume_cons {state : probe.State source} {row : Row} {here : List Row}
    (under : Under state (row :: here)) :
    ∃ after, resume state = (some row, after) ∧ after.input = state.input ∧ Under after here := by
  obtain ⟨input, outer, _ | search⟩ := state
  · cases under
  · cases under with
    | @cons _ after _ _ found rest =>
      refine ⟨{ input, outer, search := some after }, ?_, rfl, rest⟩
      simp only [resume, found]

/-- What a state still has to hand out, each row of the input leading to `matches_`. -/
def Owes (matches_ : Row → List Row) (state : probe.State source) (rows : List Row) : Prop :=
  ∃ here outers, rows = here ++ outers.flatMap matches_ ∧ Under state here ∧
    source.Yields state.input outers ∧ ∀ outer ∈ outers, probe.Matches outer (matches_ outer)

private theorem produce_owes {matches_ : Row → List Row} {here outers : List Row}
    {state : probe.State source} {reads : Nat} (under : Under state here)
    (yields : source.Yields state.input outers)
    (found : ∀ outer ∈ outers, probe.Matches outer (matches_ outer))
    (enough : outers.length < reads) :
    match here ++ outers.flatMap matches_ with
    | [] => ∃ after, produce reads state = (none, after) ∧ Owes matches_ after []
    | row :: rest =>
      ∃ after, produce reads state = (some row, after) ∧ Owes matches_ after rest := by
  induction outers generalizing state here reads with
  | nil =>
    cases here with
    | cons row here =>
      obtain ⟨after, resumed, same, under'⟩ := resume_cons under
      refine ⟨after, ?_, here, [], rfl, under', same ▸ yields, found⟩
      unfold produce
      simp only [resumed]
    | nil =>
      obtain ⟨after, resumed, same, idle⟩ := resume_nil under
      obtain ⟨left, rfl⟩ := Nat.exists_eq_succ_of_ne_zero (Nat.ne_of_gt enough)
      cases yields with
      | nil exhausted =>
        obtain ⟨none_, exhausted'⟩ := exhausted.next
        rcases read : source.next state.input with ⟨_ | row, input⟩ <;> rw [read] at none_ exhausted'
        · refine ⟨{ after with input }, ?_, [], [], rfl, ?_, .nil exhausted', found⟩
          · unfold produce
            simp only [resumed, same, read]
          · simp only [Under, idle]
        · cases none_
  | cons outer outers ih =>
    cases here with
    | cons row here =>
      obtain ⟨after, resumed, same, under'⟩ := resume_cons under
      refine ⟨after, ?_, here, outer :: outers, rfl, under', same ▸ yields, found⟩
      unfold produce
      simp only [resumed]
    | nil =>
      obtain ⟨after, resumed, same, idle⟩ := resume_nil under
      obtain ⟨left, rfl⟩ := Nat.exists_eq_succ_of_ne_zero (Nat.ne_of_gt (Nat.lt_of_le_of_lt
        (Nat.zero_le _) enough))
      cases yields with
      | @cons _ input _ _ read rest =>
        have unfolded : produce (left + 1) state =
            produce left { input, outer, search := probe.start outer } := by
          rw [produce]
          simp only [resumed, same, read]
        have begun : Under ({ input, outer, search := probe.start outer } : probe.State source)
            (matches_ outer) := by
          have leads := found outer List.mem_cons_self
          unfold Matches at leads
          unfold Under
          cases started : probe.start outer with
          | none => simpa only [started] using leads
          | some search => simpa only [started] using leads
        rw [Nat.succ_eq_add_one, unfolded]
        exact ih begun rest (fun other member => found other (List.mem_cons_of_mem _ member))
          (Nat.lt_of_succ_lt_succ enough)

/-- A join hands out the matches of each row of its input, row by row. -/
theorem run_yields {matches_ : Row → List Row} {outers : List Row} {input : source.State}
    (yields : source.Yields input outers)
    (found : ∀ outer ∈ outers, probe.Matches outer (matches_ outer)) :
    (probe.run source).Yields ({ input } : probe.State source) (outers.flatMap matches_) := by
  refine @RowSource.yields_of (probe.run source) _ _
    (fun (state : probe.State source) rows => Owes matches_ state rows) ?_ ?_ ?_
  · rintro (state : probe.State source) ⟨here, outers, split, under, yields, found⟩
    have ran := produce_owes under yields found (Nat.lt_succ_of_le yields.length_le)
    rw [← split] at ran
    obtain ⟨after, none_, owes⟩ := ran
    have next : (probe.run source).next state = (none, after) := none_
    rw [next]
    exact ⟨rfl, owes⟩
  · rintro (state : probe.State source) row rows ⟨here, outers, split, under, yields, found⟩
    have ran := produce_owes under yields found (Nat.lt_succ_of_le yields.length_le)
    rw [← split] at ran
    exact ran
  · exact ⟨[], outers, rfl, rfl, yields, found⟩

end Probe

end Labdb.Query
