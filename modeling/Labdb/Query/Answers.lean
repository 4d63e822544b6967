import Labdb.Query.Sum
import Labdb.Query.Grouping
import Labdb.Query.AccessRange

/-! What an aggregate is to answer for the rows of a group, and that its state comes to it. -/

namespace Labdb.Query

/-- The values of a column, NULLs left out. -/
def values (col : Nat) (rows : List Row) : List Field :=
  (rows.map fun row => Row.at row col).filter fun value => !value.isNull

/-- The exact sum of a column. -/
def total (col : Nat) (rows : List Row) : Int :=
  ((values col rows).map fun value => value.i64.toInt).sum

/-- What an aggregate is to answer for these rows. -/
def AggSpec.Answers (spec : AggSpec) (rows : List Row) (answer : Field) : Prop :=
  let values := values spec.col rows
  let count := if spec.star then rows.length else values.length
  match spec.func with
  | .kCount => answer = .ofInt64 (.ofNat count)
  | .kSum =>
    if values = [] then answer = .null .kInt64
    else Fits (total spec.col rows) ∧ answer = .ofInt64 (.ofInt (total spec.col rows))
  | .kAvg =>
    if values = [] then answer = .null .kDouble
    else Fits (total spec.col rows) ∧ answer =
      .ofDouble ((Double.ofInt (.ofInt (total spec.col rows))).div (Double.ofInt (.ofNat count)))
  | .kMin =>
    if values = [] then answer = .null spec.type
    else answer ∈ values ∧ ∀ value ∈ values, compareValues answer value ≠ .gt
  | .kMax =>
    if values = [] then answer = .null spec.type
    else answer ∈ values ∧ ∀ value ∈ values, compareValues answer value ≠ .lt
  | .kNone => answer = .null .kInt64

/-- No running sum of an aggregate leaves `INT64`. -/
def AggSpec.SumFits (spec : AggSpec) (rows : List Row) : Prop :=
  spec.func = .kSum ∨ spec.func = .kAvg →
    Runs 0 ((values spec.col rows).map fun value => value.i64.toInt)

/-- `*` stands in COUNT only. -/
def AggSpec.Valid (spec : AggSpec) : Prop := spec.star = true → spec.func = .kCount

instance (spec : AggSpec) (rows : List Row) : Decidable (spec.SumFits rows) :=
  inferInstanceAs (Decidable (_ → _))

instance (spec : AggSpec) : Decidable spec.Valid := inferInstanceAs (Decidable (_ → _))

/-- An aggregate's state once these rows were folded in. -/
structure Folded (spec : AggSpec) (rows : List Row) (state : AggState) : Prop where
  count : state.count = if spec.star then rows.length else (values spec.col rows).length
  sum : spec.func = .kSum ∨ spec.func = .kAvg →
    Fits (total spec.col rows) ∧ state.sum = .ofInt (total spec.col rows)
  least : spec.func = .kMin → values spec.col rows ≠ [] → state.best ∈ values spec.col rows ∧
    ∀ value ∈ values spec.col rows, compareValues state.best value ≠ .gt
  greatest : spec.func = .kMax → values spec.col rows ≠ [] → state.best ∈ values spec.col rows ∧
    ∀ value ∈ values spec.col rows, compareValues state.best value ≠ .lt

section Rows

variable {spec : AggSpec} {rows rest : List Row} {row : Row} {state : AggState}

private theorem values_append (col : Nat) (rows rest : List Row) :
    values col (rows ++ rest) = values col rows ++ values col rest := by
  rw [values, List.map_append, List.filter_append]
  rfl

theorem values_concat (col : Nat) (rows : List Row) (row : Row) : values col (rows ++ [row]) =
    values col rows ++ if (Row.at row col).isNull then [] else [Row.at row col] := by
  rw [values_append]
  refine congrArg _ ?_
  unfold values
  cases null : (Row.at row col).isNull <;> simp [null]

theorem SumFits.front (fits : spec.SumFits (rows ++ rest)) : spec.SumFits rows := by
  intro sums
  have all := fits sums
  rw [values_append, List.map_append] at all
  exact (runs_append.mp all).1

private theorem total_concat (col : Nat) (rows : List Row) (row : Row) : total col (rows ++ [row]) =
    total col rows + if (Row.at row col).isNull then 0 else (Row.at row col).i64.toInt := by
  rw [total, values_concat, List.map_append, List.sum_append]
  refine congrArg _ ?_
  cases (Row.at row col).isNull <;> simp

theorem folded_nil (spec : AggSpec) : Folded spec [] {} := by
  have zero : Fits 0 := by decide
  refine ⟨?_, fun _ => ⟨zero, rfl⟩, fun _ some_ => absurd rfl some_,
    fun _ some_ => absurd rfl some_⟩
  split <;> rfl

theorem mem_values {col : Nat} {value : Field} (member : value ∈ values col rows) :
    value.isNull = false ∧ ∃ row ∈ rows, Row.at row col = value := by
  obtain ⟨inRows, some_⟩ := List.mem_filter.mp member
  exact ⟨by simpa using some_, List.mem_map.mp inRows⟩

/-- The better one of the best so far and a new value is the best of all. -/
theorem best_concat {α : Type} (cmp : α → α → Ordering) [Std.TransCmp cmp] {best value : α}
    {earlier : List α}
    (isBest : earlier ≠ [] → best ∈ earlier ∧ ∀ other ∈ earlier, (cmp best other).isLE = true) :
    (if earlier.length + 1 = 1 ∨ cmp value best = .lt then value else best) ∈ earlier ++ [value] ∧
      ∀ other ∈ earlier ++ [value], (cmp (if earlier.length + 1 = 1 ∨ cmp value best = .lt
        then value else best) other).isLE = true := by
  have self : (cmp value value).isLE = true := by
    rw [@Std.ReflCmp.compare_self _ cmp _ value]
    rfl
  by_cases first : earlier = []
  · subst first
    rw [if_pos (.inl rfl)]
    refine ⟨List.mem_singleton.mpr rfl, fun other inAll => ?_⟩
    rw [List.mem_singleton.mp inAll]
    exact self
  · obtain ⟨member, least⟩ := isBest first
    have later : ¬ earlier.length + 1 = 1 := by
      rw [Nat.add_eq_right, List.length_eq_zero_iff]
      exact first
    by_cases better : cmp value best = .lt
    · rw [if_pos (.inr better)]
      refine ⟨List.mem_append_right _ (List.mem_singleton.mpr rfl), fun other inAll => ?_⟩
      rcases List.mem_append.mp inAll with old | new
      · exact Std.TransCmp.isLE_trans (by rw [better]; rfl) (least other old)
      · rw [List.mem_singleton.mp new]
        exact self
    · rw [if_neg (not_or.mpr ⟨later, better⟩)]
      refine ⟨List.mem_append_left _ member, fun other inAll => ?_⟩
      rcases List.mem_append.mp inAll with old | new
      · exact least other old
      · rw [List.mem_singleton.mp new, @Std.OrientedCmp.eq_swap _ cmp _ best value]
        cases order : cmp value best with
        | lt => exact absurd order better
        | eq => rfl
        | gt => rfl

/-- The same of the comparisons that the code makes. -/
theorem best_folded (cmp : Field → Field → Ordering) [Std.TransCmp cmp] {want worst : Ordering}
    {earlier : List Field} {best value : Field} {count : Nat}
    (agrees : ∀ p ∈ earlier ++ [value], ∀ q ∈ earlier ++ [value],
      (compareValues p q = want ↔ cmp p q = .lt) ∧
        (compareValues p q ≠ worst ↔ (cmp p q).isLE = true))
    (counted : count = earlier.length)
    (isBest : earlier ≠ [] → best ∈ earlier ∧ ∀ other ∈ earlier, compareValues best other ≠ worst) :
    (if count + 1 = 1 ∨ compareValues value best = want then value else best) ∈
        earlier ++ [value] ∧
      ∀ other ∈ earlier ++ [value], compareValues (if count + 1 = 1 ∨
        compareValues value best = want then value else best) other ≠ worst := by
  have old : ∀ {field}, field ∈ earlier → field ∈ earlier ++ [value] := List.mem_append_left _
  have new : value ∈ earlier ++ [value] := List.mem_append_right _ (List.mem_singleton.mpr rfl)
  have test : (count + 1 = 1 ∨ compareValues value best = want) ↔
      (earlier.length + 1 = 1 ∨ cmp value best = .lt) := by
    rw [counted]
    by_cases first : earlier = []
    · subst first
      exact iff_of_true (.inl rfl) (.inl rfl)
    · exact or_congr_right (agrees value new best (old (isBest first).1)).1
  obtain ⟨member, least⟩ := @best_concat _ cmp _ best value earlier fun some_ =>
    ⟨(isBest some_).1, fun other inOld =>
      (agrees best (old (isBest some_).1) other (old inOld)).2.mp ((isBest some_).2 other inOld)⟩
  simp only [test]
  exact ⟨member, fun other inAll => (agrees _ member other inAll).2.mpr (least other inAll)⟩

private theorem compareValues_eq (uniform : Uniform rows) {col : Nat} {p q : Field}
    (pIn : p ∈ values col rows) (qIn : q ∈ values col rows) :
    compareValues p q = rankedOrder p q := by
  obtain ⟨-, x, xIn, rfl⟩ := mem_values pIn
  obtain ⟨-, y, yIn, rfl⟩ := mem_values qIn
  have fits := uniform x xIn y yIn col
  exact compareValues_ranked fits.same fits.left fits.right

theorem ranked_least {p q : Field} (ranked : compareValues p q = rankedOrder p q) :
    (compareValues p q = .lt ↔ rankedOrder p q = .lt) ∧
      (compareValues p q ≠ .gt ↔ (rankedOrder p q).isLE = true) := by
  rw [ranked]
  exact ⟨Iff.rfl, Ordering.isLE_iff_ne_gt.symm⟩

theorem ranked_greatest {p q : Field} (ranked : compareValues p q = rankedOrder p q) :
    (compareValues p q = .gt ↔ rankedOrder q p = .lt) ∧
      (compareValues p q ≠ .lt ↔ (rankedOrder q p).isLE = true) := by
  rw [ranked, @Std.OrientedCmp.eq_swap _ rankedOrder _ p q]
  cases rankedOrder q p <;> decide

private theorem folded_null (folded : Folded spec rows state) (noStar : spec.star = false)
    (null : (Row.at row spec.col).isNull = true) : Folded spec (rows ++ [row]) state := by
  have same : values spec.col (rows ++ [row]) = values spec.col rows := by
    rw [values_concat, if_pos null, List.append_nil]
  obtain ⟨count, sum, least, greatest⟩ := folded
  rw [noStar] at count
  refine ⟨?_, ?_, ?_, ?_⟩
  · rw [noStar, same]
    exact count
  · rw [total_concat, if_pos null, add_zero]
    exact sum
  · rw [same]
    exact least
  · rw [same]
    exact greatest

private theorem sum_concat (fits : Fits (total spec.col rows)) {sum value : Int64}
    (isSum : sum = .ofInt (total spec.col rows)) (next : Fits (total spec.col rows + value.toInt)) :
    sumOverflows sum value = false ∧ sum + value = .ofInt (total spec.col rows + value.toInt) := by
  have sum_toInt : sum.toInt = total spec.col rows := by
    rw [isSum, Int64.toInt_ofInt]
    exact bmod_fits fits
  constructor
  · rw [← Bool.not_eq_true, sumOverflows_iff, not_not, sum_toInt]
    exact next
  · rw [← ofInt_add, sum_toInt]

/-- One more row of a group, unless it makes a sum overflow. -/
theorem folded_concat (valid : spec.Valid) (folded : Folded spec rows state)
    (uniform : Uniform (rows ++ [row])) (fits : spec.SumFits (rows ++ [row])) :
    ∃ state', aggUpdate spec state (Row.at row spec.col) = .ok state' ∧
      Folded spec (rows ++ [row]) state' := by
  unfold aggUpdate
  cases star : spec.star with
  | true =>
    have count := folded.count
    rw [star] at count
    refine ⟨_, rfl, ?_, ?_, ?_, ?_⟩
    · rw [star, List.length_append, count]
      rfl
    all_goals
      intro func
      rw [valid star] at func
      simp at func
  | false =>
    cases null : (Row.at row spec.col).isNull with
    | true => exact ⟨state, rfl, folded_null folded star null⟩
    | false =>
      have added : values spec.col (rows ++ [row]) =
          values spec.col rows ++ [Row.at row spec.col] := by
        rw [values_concat, null]
        rfl
      have summed : total spec.col (rows ++ [row]) =
          total spec.col rows + (Row.at row spec.col).i64.toInt := by
        rw [total_concat, null]
        rfl
      have count : state.count = (values spec.col rows).length := by
        rw [folded.count, star]
        rfl
      have counted : state.count + 1 = if spec.star then (rows ++ [row]).length
          else (values spec.col (rows ++ [row])).length := by
        rw [star, added, if_neg Bool.false_ne_true, List.length_append, count]
        rfl
      have runs : spec.func = .kSum ∨ spec.func = .kAvg →
          sumOverflows state.sum (Row.at row spec.col).i64 = false ∧
            Fits (total spec.col (rows ++ [row])) ∧
            state.sum + (Row.at row spec.col).i64 = .ofInt (total spec.col (rows ++ [row])) := by
        intro sums
        obtain ⟨inside, isSum⟩ := folded.sum sums
        have next : Fits (total spec.col (rows ++ [row])) := by
          have all := (runs_iff (show Fits 0 by decide)).mp (fits sums)
            (values spec.col (rows ++ [row])).length
          rwa [List.take_of_length_le (by rw [List.length_map]), zero_add] at all
        rw [summed] at next ⊢
        obtain ⟨passes, added⟩ := sum_concat inside isSum next
        exact ⟨passes, next, added⟩
      simp only [Bool.false_eq_true, if_false]
      cases func : spec.func with
      | kSum =>
        obtain ⟨passes, next, isSum⟩ := runs (.inl func)
        rw [passes]
        refine ⟨_, rfl, counted, fun _ => ⟨next, isSum⟩, ?_, ?_⟩
        all_goals simp [func]
      | kAvg =>
        obtain ⟨passes, next, isSum⟩ := runs (.inr func)
        rw [passes]
        refine ⟨_, rfl, counted, fun _ => ⟨next, isSum⟩, ?_, ?_⟩
        all_goals simp [func]
      | kMin =>
        have best := @best_folded rankedOrder _ .lt .gt (values spec.col rows) state.best
          (Row.at row spec.col) state.count
          (fun p pIn q qIn => ranked_least (compareValues_eq uniform (added ▸ pIn) (added ▸ qIn))) count
          (folded.least func)
        rw [← added] at best
        refine ⟨{ state with
          count := state.count + 1
          best := if state.count + 1 = 1 ∨ compareValues (Row.at row spec.col) state.best = .lt
            then Row.at row spec.col else state.best }, ?_, counted, ?_, fun _ _ => best, ?_⟩
        · dsimp only
          split <;> rfl
        all_goals simp [func]
      | kMax =>
        have best := @best_folded (fun p q => rankedOrder q p) Std.TransCmp.opposite .gt .lt
          (values spec.col rows) state.best (Row.at row spec.col) state.count
          (fun p pIn q qIn =>
            ranked_greatest (compareValues_eq uniform (added ▸ pIn) (added ▸ qIn))) count
          (folded.greatest func)
        rw [← added] at best
        refine ⟨{ state with
          count := state.count + 1
          best := if state.count + 1 = 1 ∨ compareValues (Row.at row spec.col) state.best = .gt
            then Row.at row spec.col else state.best }, ?_, counted, ?_, ?_, fun _ _ => best⟩
        · dsimp only
          split <;> rfl
        all_goals simp [func]
      | kCount =>
        refine ⟨_, rfl, counted, ?_, ?_, ?_⟩
        all_goals simp [func]
      | kNone =>
        refine ⟨_, rfl, counted, ?_, ?_, ?_⟩
        all_goals simp [func]

/-- A finished state gives the answer. -/
theorem Folded.answers (valid : spec.Valid) (folded : Folded spec rows state) :
    spec.Answers rows (aggResult spec state) := by
  obtain ⟨count, sum, least, greatest⟩ := folded
  unfold AggSpec.Answers aggResult
  have noStar : spec.func ≠ .kCount → spec.star = false := by
    intro other
    rw [Bool.eq_false_iff]
    exact fun star => other (valid star)
  have empty : spec.func ≠ .kCount → (state.count = 0 ↔ values spec.col rows = []) := by
    intro other
    rw [count, noStar other, if_neg Bool.false_ne_true, List.length_eq_zero_iff]
  dsimp only
  cases func : spec.func with
  | kCount => rw [count]
  | kSum =>
    dsimp only
    obtain ⟨fits, isSum⟩ := sum (.inl func)
    simp only [empty (by rw [func]; nofun)]
    split
    · rfl
    · exact ⟨fits, by rw [isSum]⟩
  | kAvg =>
    dsimp only
    obtain ⟨fits, isSum⟩ := sum (.inr func)
    simp only [empty (by rw [func]; nofun)]
    split
    · rfl
    · exact ⟨fits, by rw [isSum, count]⟩
  | kMin =>
    dsimp only
    simp only [empty (by rw [func]; nofun)]
    split
    · rfl
    · rename_i some_
      exact least func some_
  | kMax =>
    dsimp only
    simp only [empty (by rw [func]; nofun)]
    split
    · rfl
    · rename_i some_
      exact greatest func some_
  | kNone => rfl

end Rows

end Labdb.Query
