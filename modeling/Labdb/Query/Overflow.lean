import Labdb.Data.Lists
import Labdb.Query.GroupBy
import Labdb.Query.Meaning

/-! When an aggregation fails: some sum of a group leaves the range of 64 bits as the rows
arrive, and then it fails with the error of such a sum. -/

namespace Labdb.Query

open Labdb.Data Labdb.Sql

private theorem runs_concat {start : Int} {values : List Int} {value : Int} :
    Runs start (values ++ [value]) ↔ Runs start values ∧ Fits (start + values.sum + value) := by
  induction values generalizing start with
  | nil => simp [Runs]
  | cons first rest ih =>
    rw [List.cons_append, Runs, Runs, ih, List.sum_cons, and_assoc, Int.add_assoc start first]

section State

variable {spec : AggSpec} {rows : List Row} {row : Row} {state : AggState}

/-- What an update that sums does. -/
theorem aggUpdate_sums {value : Field} (sums : spec.func = .kSum ∨ spec.func = .kAvg)
    (noStar : spec.star = false) (some_ : value.isNull = false) :
    aggUpdate spec state value =
      if sumOverflows state.sum value.i64 then .error (overflowError spec)
      else .ok { state with count := state.count + 1, sum := state.sum + value.i64 } := by
  unfold aggUpdate
  rw [noStar, some_]
  obtain isSum | isAvg := sums
  · rw [isSum]
    rfl
  · rw [isAvg]
    rfl

/-- An update that does not sum never fails. -/
theorem aggUpdate_other {value : Field} (other : ¬ (spec.func = .kSum ∨ spec.func = .kAvg)) :
    ∃ state', aggUpdate spec state value = .ok state' := by
  unfold aggUpdate
  split
  · exact ⟨_, rfl⟩
  · split
    · exact ⟨_, rfl⟩
    · cases func : spec.func with
      | kSum => exact absurd (.inl func) other
      | kAvg => exact absurd (.inr func) other
      | kMin =>
        dsimp only
        split <;> exact ⟨_, rfl⟩
      | kMax =>
        dsimp only
        split <;> exact ⟨_, rfl⟩
      | kCount => exact ⟨_, rfl⟩
      | kNone => exact ⟨_, rfl⟩

theorem aggUpdate_null {value : Field} (noStar : spec.star = false) (null : value.isNull = true) :
    aggUpdate spec state value = .ok state := by
  unfold aggUpdate
  rw [noStar, null]
  rfl

/-- A row is taken in unless it takes a sum out of the range. -/
theorem aggUpdate_spec (valid : spec.Valid) (folded : Folded spec rows state)
    (fits : spec.SumFits rows) :
    if spec.SumFits (rows ++ [row]) then
      ∃ state', aggUpdate spec state (Row.at row spec.col) = .ok state'
    else aggUpdate spec state (Row.at row spec.col) = .error (overflowError spec) := by
  by_cases sums : spec.func = .kSum ∨ spec.func = .kAvg
  · have noStar : spec.star = false := by
      rw [Bool.eq_false_iff]
      intro star
      rw [valid star] at sums
      simp at sums
    have runs := fits sums
    cases null : (Row.at row spec.col).isNull with
    | true =>
      have same : spec.SumFits (rows ++ [row]) := by
        intro _
        rw [values_concat, null, if_pos rfl, List.append_nil]
        exact runs
      rw [if_pos same]
      exact ⟨state, aggUpdate_null noStar null⟩
    | false =>
      obtain ⟨inside, isSum⟩ := folded.sum sums
      have sum_toInt : state.sum.toInt = total spec.col rows := by
        rw [isSum, Int64.toInt_ofInt]
        exact bmod_fits inside
      have next : spec.SumFits (rows ++ [row]) ↔
          sumOverflows state.sum (Row.at row spec.col).i64 = false := by
        rw [← Bool.not_eq_true, sumOverflows_iff, not_not, sum_toInt, AggSpec.SumFits,
          values_concat, null, if_neg Bool.false_ne_true, List.map_append, List.map_singleton,
          runs_concat, Int.zero_add]
        exact ⟨fun whole => (whole sums).2, fun last _ => ⟨runs, last⟩⟩
      rw [aggUpdate_sums sums noStar null]
      cases overflows : sumOverflows state.sum (Row.at row spec.col).i64 with
      | false =>
        rw [if_pos (next.mpr overflows)]
        exact ⟨_, rfl⟩
      | true =>
        rw [if_neg fun whole => Bool.false_ne_true ((next.mp whole).symm.trans overflows)]
        rfl
  · have fits' : spec.SumFits (rows ++ [row]) := fun sums' => absurd sums' sums
    rw [if_pos fits']
    exact aggUpdate_other sums

end State

namespace HashAggregate

/-- No sum leaves the range in any group of the rows. -/
def FitsAll (agg : HashAggregate) (rows : List Row) : Prop :=
  ∀ group ∈ agg.groups rows, ∀ spec ∈ agg.aggs, spec.SumFits group.2

section Groups

variable {agg : HashAggregate} {seen rows front : List Row} {row : Row}

/-- No row is in two groups. -/
theorem group_unique (uniform : Uniform rows) {i j : Nat} {a b : Row × List Row}
    (isA : (agg.groups rows)[i]? = some a) (isB : (agg.groups rows)[j]? = some b)
    (inA : row ∈ a.2) (inB : row ∈ b.2) : i = j := by
  by_cases grouped : agg.groupCols = []
  · have one : agg.groups rows = [([], rows)] := if_pos grouped
    rw [one] at isA isB
    have low := (List.getElem?_eq_some_iff.mp isA).1
    have low' := (List.getElem?_eq_some_iff.mp isB).1
    rw [List.length_singleton] at low low'
    omega
  · rw [groups_grouped grouped, List.getElem?_map, Option.map_eq_some_iff] at isA isB
    obtain ⟨first, isFirst, rfl⟩ := isA
    obtain ⟨second, isSecond, rfl⟩ := isB
    obtain ⟨inside, isFirst⟩ := List.getElem?_eq_some_iff.mp isFirst
    obtain ⟨inside', isSecond⟩ := List.getElem?_eq_some_iff.mp isSecond
    obtain ⟨rowIn, like⟩ := List.mem_filter.mp inA
    obtain ⟨-, like'⟩ := List.mem_filter.mp inB
    have firstIn := (eraseDupsBy_sublist rows).subset (isFirst ▸ List.getElem_mem inside)
    have secondIn := (eraseDupsBy_sublist rows).subset (isSecond ▸ List.getElem_mem inside')
    have place := ((same_iff uniform firstIn rowIn).mp like).trans
      ((same_iff uniform secondIn rowIn).mp like').symm
    have apart := List.pairwise_iff_getElem.mp (@eraseDupsBy_pairwise _ agg.same rows)
    obtain before | same | after := Nat.lt_trichotomy i j
    · have differ := apart i j inside inside' before
      rw [isFirst, isSecond, (same_iff uniform secondIn firstIn).mpr place.symm] at differ
      cases differ
    · exact same
    · have differ := apart j i inside' inside after
      rw [isFirst, isSecond, (same_iff uniform firstIn secondIn).mpr place] at differ
      cases differ

/-- A group as it was before the last row: one of those before, or none. -/
theorem group_before (uniform : Uniform (front ++ [row])) {group : Row × List Row}
    (member : group ∈ agg.groups (front ++ [row])) :
    ∃ before, (before = [] ∨ ∃ group' ∈ agg.groups front, group'.2 = before) ∧
      (group.2 = before ∨ group.2 = before ++ [row]) := by
  by_cases grouped : agg.groupCols = []
  · have one : ∀ rows, agg.groups rows = [([], rows)] := fun rows => if_pos grouped
    rw [one, List.mem_singleton] at member
    rw [member, one]
    exact ⟨front, .inr ⟨_, List.mem_singleton.mpr rfl, rfl⟩, .inr rfl⟩
  · rw [groups_grouped grouped] at member
    obtain ⟨first, leads, rfl⟩ := List.mem_map.mp member
    refine ⟨front.filter (agg.same first), ?_, ?_⟩
    · rw [eraseDupsBy_concat, List.mem_append] at leads
      obtain old | new := leads
      · refine .inr ⟨(agg.keyOf first, front.filter (agg.same first)), ?_, rfl⟩
        rw [groups_grouped grouped]
        exact List.mem_map.mpr ⟨first, old, rfl⟩
      · left
        split at new
        · cases new
        · rename_i unlike
          rw [List.mem_singleton] at new
          subst new
          apply List.filter_eq_nil_iff.mpr
          intro x member like
          have inAll : ∀ y ∈ front, y ∈ front ++ [first] := fun y => List.mem_append_left _
          have firstIn : first ∈ front ++ [first] := List.mem_concat_self
          obtain ⟨leader, leads, like'⟩ := @exists_leader _ agg.same front
            (fun y here => (same_iff uniform (inAll y here) (inAll y here)).mpr rfl) x member
          have leaderIn := inAll leader ((eraseDupsBy_sublist front).subset leads)
          have place := ((same_iff uniform firstIn (inAll x member)).mp like).trans
            ((same_iff uniform (inAll x member) leaderIn).mp like')
          exact unlike (List.any_eq_true.mpr
            ⟨leader, leads, (same_iff uniform firstIn leaderIn).mpr place⟩)
    · rw [List.filter_append, List.filter_singleton]
      cases agg.same first row with
      | true => exact .inr rfl
      | false => exact .inl (List.append_nil _)

end Groups

section Update

variable {agg : HashAggregate} {states : List AggState} {row : Row} {g : Nat}

/-- The first update that fails ends the loop. -/
theorem update_suffix_fails (base : Nat) (specs : List AggSpec) (k : Nat) (states : List AggState)
    {j : Nat} {spec : AggSpec} {error : ExecError} (found : specs[j]? = some spec)
    (failed : aggUpdate spec (states.getD (base + (k + j)) {}) (Row.at row spec.col) =
      .error error) :
    ∃ (i : Nat) (first : AggSpec) (failure : ExecError), specs[i]? = some first ∧
      aggUpdate first (states.getD (base + (k + i)) {}) (Row.at row first.col) = .error failure ∧
      ((specs.zipIdx k).foldlM (fun states (spec, a) => do
        let state ← aggUpdate spec (states.getD (base + a) {}) (Row.at row spec.col)
        pure (states.set (base + a) state)) states) = .error failure := by
  induction specs generalizing k j states with
  | nil => cases found
  | cons first rest ih =>
    rw [List.zipIdx_cons, List.foldlM_cons]
    cases updated : aggUpdate first (states.getD (base + k) {}) (Row.at row first.col) with
    | error failure =>
      refine ⟨0, first, failure, rfl, updated, ?_⟩
      dsimp only
      rw [updated]
      rfl
    | ok state =>
      cases j with
      | zero =>
        cases found
        cases updated.symm.trans failed
      | succ j =>
        have kept : ∀ i, (states.set (base + k) state).getD (base + (k + 1 + i)) ({} : AggState) =
            states.getD (base + (k + (i + 1))) {} := by
          intro i
          rw [getD_set, if_neg (by omega), Nat.add_assoc k 1 i, Nat.add_comm 1 i]
        obtain ⟨i, spec', failure, found', failed', ran⟩ :=
          ih (k + 1) (states.set (base + k) state) found (by rw [kept]; exact failed)
        rw [kept] at failed'
        refine ⟨i + 1, spec', failure, found', failed', ?_⟩
        dsimp only
        rw [updated]
        exact ran

/-- A row that takes a sum of its group out of the range. -/
theorem Summed.update_fails {members : List (List Row)} (summed : Summed agg members states)
    {rows : List Row} (isGroup : members[g]? = some rows)
    (valid : ∀ spec ∈ agg.aggs, spec.Valid) (fits : ∀ spec ∈ agg.aggs, spec.SumFits rows)
    (leaves : ¬ ∀ spec ∈ agg.aggs, spec.SumFits (rows ++ [row])) :
    ∃ spec ∈ agg.aggs, ¬ spec.SumFits (rows ++ [row]) ∧
      agg.update g row states = .error (overflowError spec) := by
  have each : ∀ (a : Nat) spec, agg.aggs[a]? = some spec →
      if spec.SumFits (rows ++ [row]) then
        ∃ state', aggUpdate spec (states.getD (g * agg.aggs.length + (0 + a)) {})
          (Row.at row spec.col) = .ok state'
      else aggUpdate spec (states.getD (g * agg.aggs.length + (0 + a)) {}) (Row.at row spec.col) =
        .error (overflowError spec) := by
    intro a spec found
    have member := List.mem_of_getElem? found
    rw [Nat.zero_add]
    exact aggUpdate_spec (valid spec member) (summed.folded g rows isGroup a spec found)
      (fits spec member)
  push Not at leaves
  obtain ⟨spec, member, leaves⟩ := leaves
  obtain ⟨a, found⟩ := List.mem_iff_getElem?.mp member
  have failed := each a spec found
  rw [if_neg leaves] at failed
  obtain ⟨i, first, failure, found', failed', ran⟩ :=
    update_suffix_fails (g * agg.aggs.length) agg.aggs 0 states found failed
  have here := each i first found'
  split at here
  · obtain ⟨state', updated⟩ := here
    cases updated.symm.trans failed'
  · rename_i leaves'
    cases here.symm.trans failed'
    exact ⟨first, List.mem_of_getElem? found', leaves', ran⟩

end Update

section Runs

variable {agg : HashAggregate} {groups : Groups} {seen rest : List Row} {row : Row}

private theorem start_fits (agg : HashAggregate) : agg.FitsAll [] := by
  intro group member spec _ sums
  have empty : group.2 = [] :=
    List.eq_nil_iff_forall_not_mem.mpr fun row inGroup => nomatch mem_of_group member inGroup
  rw [empty]
  exact trivial

/-- One more row: it is taken in, or it takes a sum of its group out of the range. -/
theorem addRow_spec (holds : Holds agg seen groups) (valid : ∀ spec ∈ agg.aggs, spec.Valid)
    (uniform : Uniform (seen ++ [row])) (fits : agg.FitsAll seen) :
    (agg.FitsAll (seen ++ [row]) ∧
        ∃ groups', agg.addRow groups row = some (.ok groups') ∧ Holds agg (seen ++ [row]) groups') ∨
      ∃ group ∈ agg.groups (seen ++ [row]), ∃ spec ∈ agg.aggs, ¬ spec.SumFits group.2 ∧
        agg.addRow groups row = some (.error (overflowError spec)) := by
  obtain ⟨placed, g, found, -, ⟨members, summed, rows, isGroup, after⟩, -⟩ :=
    place_spec holds uniform
  obtain ⟨inside, -⟩ := List.getElem?_eq_some_iff.mp isGroup
  have before_fits : ∀ before, (before = [] ∨ ∃ group' ∈ agg.groups seen, group'.2 = before) →
      ∀ spec ∈ agg.aggs, spec.SumFits before := by
    rintro before (rfl | ⟨group', member, rfl⟩) spec inAggs
    · exact fun _ => trivial
    · exact fits group' member spec inAggs
  have isNew : (agg.groups (seen ++ [row])).map Prod.snd = members.set g (rows ++ [row]) :=
    after.symm
  obtain ⟨here, isHere, hereRows⟩ : ∃ here, (agg.groups (seen ++ [row]))[g]? = some here ∧
      here.2 = rows ++ [row] := by
    have placed_ : ((agg.groups (seen ++ [row])).map Prod.snd)[g]? = some (rows ++ [row]) := by
      rw [isNew, List.getElem?_set_self inside]
    rwa [List.getElem?_map, Option.map_eq_some_iff] at placed_
  have hereIn := List.mem_of_getElem? isHere
  have rows_fit : ∀ spec ∈ agg.aggs, spec.SumFits rows := by
    intro spec inAggs
    obtain ⟨before, isBefore, same | same⟩ := group_before uniform hereIn
    · have whole := before_fits before isBefore spec inAggs
      rw [← same, hereRows] at whole
      exact SumFits.front whole
    · rw [hereRows] at same
      have old := before_fits before isBefore spec inAggs
      rwa [← List.append_cancel_right same] at old
  by_cases stays : ∀ spec ∈ agg.aggs, spec.SumFits (rows ++ [row])
  · left
    have fits' : agg.FitsAll (seen ++ [row]) := by
      intro group member spec inAggs
      obtain ⟨j, isGroup'⟩ := List.mem_iff_getElem?.mp member
      obtain ⟨before, isBefore, same | same⟩ := group_before uniform member
      · rw [same]
        exact before_fits before isBefore spec inAggs
      · have mine : row ∈ group.2 := by
          rw [same]
          exact List.mem_concat_self
        have mine' : row ∈ here.2 := by
          rw [hereRows]
          exact List.mem_concat_self
        obtain rfl := group_unique uniform isGroup' isHere mine mine'
        cases isGroup'.symm.trans isHere
        rw [hereRows]
        exact stays spec inAggs
    exact ⟨fits', addRow_holds holds valid uniform fits'⟩
  · right
    obtain ⟨spec, inAggs, leaves, failed⟩ := summed.update_fails isGroup valid rows_fit stays
    refine ⟨here, hereIn, spec, inAggs, hereRows ▸ leaves, ?_⟩
    rw [addRow_eq found, failed]
    rfl

/-- The rows one after the other, until one takes a sum out of the range. -/
theorem addRows_spec (holds : Holds agg seen groups) (valid : ∀ spec ∈ agg.aggs, spec.Valid)
    (uniform : Uniform (seen ++ rest)) (fits : agg.FitsAll seen) :
    agg.FitsAll (seen ++ rest) ∨
      ∃ group ∈ agg.groups (seen ++ rest), ∃ spec ∈ agg.aggs, ¬ spec.SumFits group.2 ∧
        agg.addRows groups rest = some (.error (overflowError spec)) := by
  induction rest generalizing seen groups with
  | nil =>
    rw [List.append_nil]
    exact .inl fits
  | cons row rest ih =>
    rw [List.append_cons] at uniform ⊢
    have uniform' : Uniform (seen ++ [row]) := fun x xIn y yIn =>
      uniform x (List.mem_append_left _ xIn) y (List.mem_append_left _ yIn)
    obtain ⟨fits', groups', added, holds'⟩ | ⟨group, member, spec, inAggs, leaves, failed⟩ :=
      addRow_spec holds valid uniform' fits
    · rw [addRows, added]
      exact ih holds' uniform fits'
    · right
      obtain ⟨group', member', more, split⟩ := @exists_group agg _ rest _ member
      refine ⟨group', member', spec, inAggs, fun whole => leaves ?_, ?_⟩
      · rw [split] at whole
        exact SumFits.front whole
      · rw [addRows, failed]

end Runs

/-- An aggregation hands out the row of every group, or fails because a sum of some group leaves
the range on the way. -/
theorem run_spec {child : RowPath} {rows : List Row} (delivers : child.Delivers rows)
    {agg : HashAggregate} {schema : OutSchema} (typed : ∀ row ∈ rows, TypedRow schema row)
    (numbers : ∀ row ∈ rows, ∀ col, (Row.at row col).Ordered)
    (valid : ∀ spec ∈ agg.aggs, spec.Valid) :
    (agg.FitsAll rows ∧ ∃ path out, agg.run child = some (.ok path) ∧ path.Delivers out ∧
        List.Forall₂ agg.RowOf (agg.groups rows) out) ∨
      ∃ group ∈ agg.groups rows, ∃ spec ∈ agg.aggs, ¬ spec.SumFits group.2 ∧
        agg.run child = some (.error (overflowError spec)) := by
  obtain fits | ⟨group, member, spec, inAggs, leaves, failed⟩ :=
    @addRows_spec agg agg.start [] rows (start_holds agg) valid (uniform_of_typed typed numbers)
      (start_fits agg)
  · exact .inl ⟨fits, run_answers delivers typed numbers valid fits⟩
  · refine .inr ⟨group, member, spec, inAggs, leaves, ?_⟩
    rw [run, delivers.rows_eq, failed]
    rfl

end HashAggregate

end Labdb.Query
