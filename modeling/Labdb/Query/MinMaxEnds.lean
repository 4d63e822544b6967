import Labdb.Query.GroupBy
import Labdb.Query.MinMax

/-! MIN and MAX at the ends of the indexes, and by a scan. An index entry of a TEXT value
holds its first eight bytes, padded with zero bytes: of the strings that share them, those
of fewer than eight bytes differ in how many zero bytes they end in. -/

namespace Labdb.Query

open IndexMinMax

/-- Two values of a column that are equal. -/
def SameField (a b : Field) : Prop := a.type = b.type ∧ a.equals b = true

/-- The entry has this key. -/
def hasKey (col : Nat) (key : Key) (row : Row) : Bool := entryKey col row = key

/-- The value is a string of fewer than eight bytes, all of them in its key. -/
def isShort (col : Nat) (row : Row) : Bool := (Row.at row col).text.length < 8

/-- Of the strings that have the least key and are shorter than eight bytes, the first one
that the walk comes to is a shortest one. -/
def ShortestFirst (col : Nat) (walk : List Row) : Prop :=
  ∀ least ∈ walk.head?,
    let short := (walk.filter (hasKey col (entryKey col least))).filter (isShort col)
    ∀ first ∈ short.head?, ∀ row ∈ short,
      (Row.at first col).text.length ≤ (Row.at row col).text.length

section Texts

attribute [local instance] lexOrd

/-- A string that lies inside its key compares with another one of this key as their lengths do. -/
theorem compare_short {left : Nat} {s t : Text} (same : prefixValue left s = prefixValue left t)
    (short : s.length < left) : compare s t = compare s.length t.length := by
  induction left generalizing s t with
  | zero => exact absurd short (Nat.not_lt_zero _)
  | succ left ih =>
    cases s with
    | nil => cases t <;> rfl
    | cons x s =>
      cases t with
      | nil => rfl
      | cons y t =>
        rw [prefixValue, prefixValue] at same
        have sLt := prefixValue_lt left s
        have tLt := prefixValue_lt left t
        have tops : x.toNat = y.toNat := by
          have xTop : (x.toNat * 256 ^ left + prefixValue left s) / 256 ^ left = x.toNat := by
            rw [Nat.mul_comm, Nat.mul_add_div (Nat.pow_pos (by decide)), Nat.div_eq_of_lt sLt,
              Nat.add_zero]
          have yTop : (y.toNat * 256 ^ left + prefixValue left t) / 256 ^ left = y.toNat := by
            rw [Nat.mul_comm, Nat.mul_add_div (Nat.pow_pos (by decide)), Nat.div_eq_of_lt tLt,
              Nat.add_zero]
          rw [← xTop, same, yTop]
        have rest : prefixValue left s = prefixValue left t := by
          rw [tops] at same
          exact Nat.add_left_cancel same
        have equal : x = y := UInt8.toNat_inj.mp tops
        have split : compare (x :: s) (y :: t) = (compare x y).then (compare s t) :=
          List.compareLex_cons_cons
        rw [split, equal, Std.compare_self, Ordering.eq_then,
          ih rest (Nat.lt_of_succ_lt_succ short), List.length_cons, List.length_cons]
        cases order : compare s.length t.length with
        | lt => exact (Nat.compare_eq_lt.mpr (Nat.succ_lt_succ (Nat.compare_eq_lt.mp order))).symm
        | eq => exact (Nat.compare_eq_eq.mpr (congrArg _ (Nat.compare_eq_eq.mp order))).symm
        | gt => exact (Nat.compare_eq_gt.mpr (Nat.succ_lt_succ (Nat.compare_eq_gt.mp order))).symm

private theorem compareValues_text {a b : Field} (text : a.type = .kText) :
    compareValues a b = compare a.text b.text := by
  rw [compareValues, compareFields, text]
  rfl

theorem orderKey_text {a : Field} (text : a.type = .kText) :
    (orderKey a).toNat = prefixValue 8 a.text := by
  rw [orderKey, text]
  exact orderKeyText_toNat a.text

/-- No value of these is less; no value is greater. -/
def Least (best : Field) (all : List Field) : Prop :=
  best ∈ all ∧ ∀ value ∈ all, compareValues best value ≠ .gt

def Greatest (best : Field) (all : List Field) : Prop :=
  best ∈ all ∧ ∀ value ∈ all, compareValues best value ≠ .lt

variable {spec : AggSpec} {seen : List Field} {rest : List Row} {best : Field} {last : Key}

/-- The values of rows. -/
def valuesOf (col : Nat) (rows : List Row) : List Field := rows.map fun row => Row.at row col

theorem least_concat {type : ColType} {value : Field} (typed : ∀ v ∈ seen ++ [value], v.Of type)
    (least : Least best seen) :
    Least (if compareValues value best = .lt then value else best) (seen ++ [value]) := by
  have some_ : ¬ seen.length + 1 = 1 := by
    rw [Nat.add_eq_right, List.length_eq_zero_iff]
    exact List.ne_nil_of_mem least.1
  have best_ := @best_folded rankedOrder _ .lt .gt seen best value seen.length
    (fun p pIn q qIn => ranked_least (compareValues_of (typed p pIn) (typed q qIn))) rfl fun _ => least
  simp only [some_, false_or] at best_
  exact best_

private theorem greatest_concat {type : ColType} {value : Field}
    (typed : ∀ v ∈ seen ++ [value], v.Of type) (greatest : Greatest best seen) :
    Greatest (if compareValues value best = .gt then value else best) (seen ++ [value]) := by
  have some_ : ¬ seen.length + 1 = 1 := by
    rw [Nat.add_eq_right, List.length_eq_zero_iff]
    exact List.ne_nil_of_mem greatest.1
  have best_ := @best_folded (fun p q => rankedOrder q p) Std.TransCmp.opposite .gt .lt seen best
    value seen.length
    (fun p pIn q qIn => ranked_greatest (compareValues_of (typed p pIn) (typed q qIn))) rfl
    fun _ => greatest
  simp only [some_, false_or] at best_
  exact best_

/-- Entries with the greatest key are all compared. -/
theorem walkEnd_greatest (isMax : spec.func ≠ .kMin) (inexact : orderKeyExact spec.type = false)
    (keys : ∀ row ∈ rest, entryKey spec.col row = last) {type : ColType}
    (typed : ∀ v ∈ seen ++ valuesOf spec.col rest, v.Of type) (greatest : Greatest best seen) :
    Greatest (walkEnd spec rest { first := false, last, best }) (seen ++ valuesOf spec.col rest) := by
  induction rest generalizing seen best with
  | nil =>
    rw [valuesOf, List.map_nil, List.append_nil]
    exact greatest
  | cons row rest ih =>
    have here := keys row List.mem_cons_self
    have split : seen ++ valuesOf spec.col (row :: rest) =
        (seen ++ [Row.at row spec.col]) ++ valuesOf spec.col rest := by
      rw [valuesOf, List.map_cons, List.append_cons]
      rfl
    rw [split] at typed ⊢
    have next := ih (fun row' member => keys row' (List.mem_cons_of_mem row member)) typed
      (greatest_concat (fun v member => typed v (List.mem_append_left _ member)) greatest)
    simpa [walkEnd, here, isMax, inexact] using next

private theorem walkEnd_past {row : Row} (past : entryKey spec.col row ≠ last) :
    walkEnd spec (row :: rest) { first := false, last, best } = best := by
  simp [walkEnd, past]

/-- The least value so far. -/
def lesser (value best : Field) : Field := if compareValues value best = .lt then value else best

private theorem walkEnd_min (isMin : spec.func = .kMin) (inexact : orderKeyExact spec.type = false)
    {row : Row} (here : entryKey spec.col row = last) :
    walkEnd spec (row :: rest) { first := false, last, best } =
      if (lesser (Row.at row spec.col) best).text.length < 8 then lesser (Row.at row spec.col) best
      else walkEnd spec rest
        { first := false, last, best := lesser (Row.at row spec.col) best } := by
  by_cases less : compareValues (Row.at row spec.col) best = .lt
  · simp [walkEnd, here, isMin, inexact, lesser, less]
  · simp [walkEnd, here, isMin, inexact, lesser, less]

private theorem of_text {v : Field} (text : v.type = .kText) : v.Of .kText :=
  ⟨congrArg orderClass text, by rw [text]; nofun⟩

/-- A string inside its key is less than one of the same key that is not. -/
theorem short_lt {value best : Field} (text : value.type = .kText) (text' : best.type = .kText)
    (same : orderKey value = orderKey best) (short : value.text.length < 8)
    (long : 8 ≤ best.text.length) : compareValues value best = .lt := by
  have values : prefixValue 8 value.text = prefixValue 8 best.text := by
    rw [← orderKey_text text, ← orderKey_text text', same]
  rw [compareValues_text text, compare_short values short]
  exact Nat.compare_eq_lt.mpr (Nat.lt_of_lt_of_le short long)

/-- Of the entries with the least key, the first that lies inside its key ends the walk; if
there is none, all of them are compared. -/
theorem walkEnd_least (isMin : spec.func = .kMin) (inexact : orderKeyExact spec.type = false)
    (inOrder : rest.Pairwise fun a b => entryKey spec.col a ≤ entryKey spec.col b)
    (above : ∀ row ∈ rest, last ≤ entryKey spec.col row)
    (typed : ∀ v ∈ seen ++ valuesOf spec.col rest, v.type = .kText)
    (long : ∀ v ∈ seen, 8 ≤ v.text.length) (shared : ∀ v ∈ seen, orderKey v = last)
    (least : Least best seen) :
    match ((rest.filter (hasKey spec.col last)).filter (isShort spec.col)).head? with
    | some first => walkEnd spec rest { first := false, last, best } = Row.at first spec.col
    | none => Least (walkEnd spec rest { first := false, last, best })
        (seen ++ valuesOf spec.col (rest.filter (hasKey spec.col last))) := by
  induction rest generalizing seen best with
  | nil =>
    change Least best (seen ++ [])
    rwa [List.append_nil]
  | cons row rest ih =>
    have split : ∀ rows, seen ++ valuesOf spec.col (row :: rows) =
        (seen ++ [Row.at row spec.col]) ++ valuesOf spec.col rows := fun rows => by
      rw [valuesOf, List.map_cons, List.append_cons]
      rfl
    rw [split] at typed
    obtain ⟨first, later⟩ := List.pairwise_cons.mp inOrder
    have isText : (Row.at row spec.col).type = .kText :=
      typed _ (List.mem_append_left _ (List.mem_append_right _ (List.mem_singleton.mpr rfl)))
    have bestText := typed best (List.mem_append_left _ (List.mem_append_left _ least.1))
    by_cases here : entryKey spec.col row = last
    · have hit : hasKey spec.col last row = true := decide_eq_true here
      rw [List.filter_cons_of_pos hit, walkEnd_min isMin inexact here]
      by_cases short : (Row.at row spec.col).text.length < 8
      · have better : lesser (Row.at row spec.col) best = Row.at row spec.col :=
          if_pos (short_lt isText bestText (here.trans (shared best least.1).symm) short
            (long best least.1))
        have isShort_ : isShort spec.col row = true := decide_eq_true short
        rw [List.filter_cons_of_pos isShort_, better, if_pos short]
        rfl
      · have stays : 8 ≤ (lesser (Row.at row spec.col) best).text.length := by
          unfold lesser
          split
          · exact Nat.not_lt.mp short
          · exact long best least.1
        rw [List.filter_cons_of_neg (by rwa [isShort, decide_eq_true_iff]),
          if_neg (Nat.not_lt.mpr stays), split]
        refine ih later (fun row' member => above row' (List.mem_cons_of_mem row member)) typed
          (fun v member => ?_) (fun v member => ?_) (least_concat (fun v member =>
            of_text (typed v (List.mem_append_left _ member))) least)
        · rcases List.mem_append.mp member with old | new
          · exact long v old
          · rw [List.mem_singleton.mp new]
            exact Nat.not_lt.mp short
        · rcases List.mem_append.mp member with old | new
          · exact shared v old
          · rw [List.mem_singleton.mp new]
            exact here
    · have past : (row :: rest).filter (hasKey spec.col last) = [] := by
        refine List.filter_eq_nil_iff.mpr fun row' member same => ?_
        rw [hasKey, decide_eq_true_iff] at same
        have low := above row List.mem_cons_self
        rcases List.mem_cons.mp member with rfl | member
        · exact here same
        · have high := first row' member
          rw [same] at high
          exact here (UInt64.le_antisymm high low)
      rw [past, walkEnd_past here]
      change Least best (seen ++ [])
      rwa [List.append_nil]

end Texts

section Keys

variable {type : ColType} {a b : Field}

private theorem compareValues_swapped (aOf : a.Of type) (bOf : b.Of type) :
    compareValues a b = (compareValues b a).swap :=
  compareValues_swap (aOf.same.trans bOf.same.symm) aOf.ordered bOf.ordered

/-- A value with a smaller key is not the greater one. -/
theorem not_gt_of_key (aOf : a.Of type) (bOf : b.Of type) (less : orderKey a < orderKey b) :
    compareValues a b ≠ .gt := by
  intro greater
  have swapped : compareValues b a ≠ .gt := by
    rw [compareValues_swapped bOf aOf, greater]
    nofun
  have le := orderKey_mono (bOf.same.trans aOf.same.symm) bOf.ordered aOf.ordered swapped
  exact UInt64.not_lt.mpr le less

private theorem not_lt_of_key (aOf : a.Of type) (bOf : b.Of type) (less : orderKey b < orderKey a) :
    compareValues a b ≠ .lt := by
  intro lt
  have le := orderKey_mono (aOf.same.trans bOf.same.symm) aOf.ordered bOf.ordered
    (by rw [lt]; nofun)
  exact UInt64.not_lt.mpr le less

/-- Where keys are exact, they order the values. -/
theorem not_gt_of_exact (aOf : a.Of type) (bOf : b.Of type) (exact_ : orderKeyExact b.type = true)
    (le : orderKey a ≤ orderKey b) : compareValues a b ≠ .gt := by
  intro greater
  have swapped : compareValues b a = .lt := by
    rw [compareValues_swapped bOf aOf, greater]
    rfl
  exact UInt64.not_lt.mpr le
    (orderKey_strict (bOf.same.trans aOf.same.symm) bOf.ordered aOf.ordered exact_ swapped)

theorem not_lt_of_exact (aOf : a.Of type) (bOf : b.Of type) (exact_ : orderKeyExact a.type = true)
    (le : orderKey b ≤ orderKey a) : compareValues a b ≠ .lt := fun less =>
  UInt64.not_lt.mpr le
    (orderKey_strict (aOf.same.trans bOf.same.symm) aOf.ordered bOf.ordered exact_ less)

end Keys

section Ends

variable {table : Table} {spec : AggSpec}

/-- The aggregate of a column that is indexed, as the planner makes it. -/
structure OfIndex (table : Table) (spec : AggSpec) : Prop where
  isEnd : spec.func = .kMin ∨ spec.func = .kMax
  valid : spec.Valid
  type : spec.type = typeAt (tableSchema table.schema {}) spec.col
  indexed : table.indexed spec.col = true

theorem OfIndex.typed (isOf : OfIndex table spec) {row : Row} (member : row ∈ table.rows) :
    (Row.at row spec.col).type = spec.type := by
  rw [isOf.type]
  exact (table.typed {} row member).type_at spec.col

theorem OfIndex.noDouble (isOf : OfIndex table spec) : spec.type ≠ .kDouble := by
  rw [isOf.type]
  exact typeAt_noDouble table {} spec.col

theorem OfIndex.mem_rows (isOf : OfIndex table spec) {lo hi : Key} {row : Row} :
    row ∈ (table.index spec.col).rows lo hi ↔ row ∈ table.rows ∧
      (Row.at row spec.col).isNull = false ∧ lo ≤ entryKey spec.col row ∧
      entryKey spec.col row ≤ hi := by
  rw [((table.walked spec.col isOf.indexed).found lo hi).mem_iff, List.mem_filter,
    IndexWalk.between, Bool.and_eq_true, Bool.and_eq_true, decide_eq_true_iff, decide_eq_true_iff,
    Bool.not_eq_true', and_assoc]
  rfl

private theorem OfIndex.fieldOf (isOf : OfIndex table spec) {lo hi : Key} {v : Field}
    (member : v ∈ valuesOf spec.col ((table.index spec.col).rows lo hi)) : v.Of spec.type := by
  obtain ⟨row, inWalk, rfl⟩ := List.mem_map.mp member
  have type := isOf.typed (isOf.mem_rows.mp inWalk).1
  exact ⟨congrArg orderClass type, fun double => isOf.noDouble (type ▸ double)⟩

/-- The whole index holds the values that are not NULL. -/
theorem OfIndex.mem_values (isOf : OfIndex table spec) {v : Field} :
    v ∈ values spec.col table.rows ↔
      v ∈ valuesOf spec.col ((table.index spec.col).rows 0 (~~~0)) := by
  have top : ∀ key : Key, key ≤ ~~~0 := fun key => by
    rw [UInt64.le_iff_toNat_le, UInt64.toNat_not]
    exact Nat.le_of_lt_succ key.toNat_lt
  unfold values valuesOf
  rw [List.mem_filter, List.mem_map, List.mem_map]
  constructor
  · rintro ⟨⟨row, member, rfl⟩, some_⟩
    refine ⟨row, isOf.mem_rows.mpr ⟨member, by simpa using some_, UInt64.zero_le, top _⟩, rfl⟩
  · rintro ⟨row, inWalk, rfl⟩
    obtain ⟨member, some_, -⟩ := isOf.mem_rows.mp inWalk
    exact ⟨⟨row, member, rfl⟩, by rw [some_]; rfl⟩

/-- What the walk to MIN finds: the first short string of the least key, or else the least
value of that key. -/
theorem OfIndex.min_found (isOf : OfIndex table spec) (isMin : spec.func = .kMin) {row : Row}
    {rest : List Row} (walk : (table.index spec.col).rows 0 (~~~0) = row :: rest) :
    if spec.type = .kText then
      match (((row :: rest).filter (hasKey spec.col (entryKey spec.col row))).filter
          (isShort spec.col)).head? with
      | some first => endValue table spec = Row.at first spec.col
      | none => Least (endValue table spec)
          (valuesOf spec.col ((row :: rest).filter (hasKey spec.col (entryKey spec.col row))))
    else endValue table spec = Row.at row spec.col := by
  have first : endValue table spec =
      if orderKeyExact spec.type then Row.at row spec.col
      else if (Row.at row spec.col).text.length < 8 then Row.at row spec.col
      else walkEnd spec rest
        { first := false, last := entryKey spec.col row, best := Row.at row spec.col } := by
    simp only [endValue, isMin, if_true, walk, walkEnd, Bool.not_true, Bool.false_and,
      Bool.false_eq_true, if_false, Bool.true_or, true_and]
  split
  · rename_i text
    have typed : ∀ v ∈ valuesOf spec.col (row :: rest), v.type = .kText := by
      intro v member
      obtain ⟨row', inWalk, rfl⟩ := List.mem_map.mp member
      rw [← walk] at inWalk
      rw [isOf.typed (isOf.mem_rows.mp inWalk).1, text]
    have inOrder := (table.walked spec.col isOf.indexed).ordered 0 (~~~0)
    rw [walk] at inOrder
    obtain ⟨above, later⟩ := List.pairwise_cons.mp inOrder
    have inexact : orderKeyExact spec.type = false := by rw [text]; rfl
    have hit : hasKey spec.col (entryKey spec.col row) row = true := decide_eq_true rfl
    rw [inexact, if_neg Bool.false_ne_true] at first
    rw [first, List.filter_cons_of_pos hit]
    by_cases short : (Row.at row spec.col).text.length < 8
    · have isShort_ : isShort spec.col row = true := decide_eq_true short
      rw [List.filter_cons_of_pos isShort_, if_pos short]
      rfl
    · rw [List.filter_cons_of_neg (by rwa [isShort, decide_eq_true_iff]), if_neg short]
      refine @walkEnd_least spec [Row.at row spec.col] rest _ _ isMin inexact later above typed ?_ ?_ ?_
      · intro v member
        rw [List.mem_singleton.mp member]
        exact Nat.not_lt.mp short
      · intro v member
        rw [List.mem_singleton.mp member]
        rfl
      · refine ⟨List.mem_singleton.mpr rfl, fun v member => ?_⟩
        rw [List.mem_singleton.mp member, compareValues_text (typed _ List.mem_cons_self),
          Std.compare_self]
        nofun
  · rename_i noText
    have exact_ : orderKeyExact spec.type = true := decide_eq_true noText
    rw [first, if_pos exact_]

/-- A least value of the least key is the least one of all. -/
theorem OfIndex.least_all (isOf : OfIndex table spec) {row : Row} {rest : List Row}
    (walk : (table.index spec.col).rows 0 (~~~0) = row :: rest) {best : Field}
    (least : Least best
      (valuesOf spec.col ((row :: rest).filter (hasKey spec.col (entryKey spec.col row))))) :
    Least best (valuesOf spec.col (row :: rest)) := by
  obtain ⟨member, below⟩ := least
  obtain ⟨row', inWalk, rfl⟩ := List.mem_map.mp member
  obtain ⟨inWalk, same⟩ := List.mem_filter.mp inWalk
  have inAll : ∀ {r}, r ∈ row :: rest →
      Row.at r spec.col ∈ valuesOf spec.col ((table.index spec.col).rows 0 (~~~0)) := fun inRows => by
    rw [walk]
    exact List.mem_map.mpr ⟨_, inRows, rfl⟩
  have inOrder := (table.walked spec.col isOf.indexed).ordered 0 (~~~0)
  rw [walk] at inOrder
  refine ⟨List.mem_map.mpr ⟨row', inWalk, rfl⟩, fun v inValues => ?_⟩
  obtain ⟨other, inRows, rfl⟩ := List.mem_map.mp inValues
  by_cases shares : hasKey spec.col (entryKey spec.col row) other = true
  · exact below _ (List.mem_map.mpr ⟨other, List.mem_filter.mpr ⟨inRows, shares⟩, rfl⟩)
  · have le : entryKey spec.col row ≤ entryKey spec.col other := by
      rcases List.mem_cons.mp inRows with rfl | later
      · exact UInt64.le_refl _
      · exact (List.pairwise_cons.mp inOrder).1 other later
    rw [hasKey, decide_eq_true_iff] at same shares
    have less : entryKey spec.col row' < entryKey spec.col other := by
      rw [same]
      exact UInt64.lt_of_le_of_ne le (Ne.symm shares)
    exact not_gt_of_key (isOf.fieldOf (inAll inWalk)) (isOf.fieldOf (inAll inRows)) less

/-- The walk to MIN finds the least value, unless it ends at a string that is not the shortest. -/
theorem OfIndex.min_iff (isOf : OfIndex table spec) (isMin : spec.func = .kMin) {row : Row}
    {rest : List Row} (walk : (table.index spec.col).rows 0 (~~~0) = row :: rest) :
    endValue table spec ∈ valuesOf spec.col (row :: rest) ∧
      (Least (endValue table spec) (valuesOf spec.col (row :: rest)) ↔
        (spec.type = .kText → ShortestFirst spec.col (row :: rest))) := by
  have found := isOf.min_found isMin walk
  have inAll : ∀ {r}, r ∈ row :: rest →
      Row.at r spec.col ∈ valuesOf spec.col ((table.index spec.col).rows 0 (~~~0)) := fun inRows => by
    rw [walk]
    exact List.mem_map.mpr ⟨_, inRows, rfl⟩
  split at found
  · rename_i text
    have typed : ∀ {r}, r ∈ row :: rest → (Row.at r spec.col).type = .kText := fun inRows => by
      rw [isOf.typed (isOf.mem_rows.mp (walk ▸ inRows)).1, text]
    split at found
    · rename_i first isFirst
      rw [found]
      have member := List.mem_of_mem_head? isFirst
      obtain ⟨inKey, short⟩ := List.mem_filter.mp member
      obtain ⟨inWalk, same⟩ := List.mem_filter.mp inKey
      rw [isShort, decide_eq_true_iff] at short
      rw [hasKey, decide_eq_true_iff] at same
      have lengths : ∀ other ∈ row :: rest, entryKey spec.col other = entryKey spec.col row →
          compareValues (Row.at first spec.col) (Row.at other spec.col) =
            compare (Row.at first spec.col).text.length (Row.at other spec.col).text.length := by
        intro other inRows shares
        rw [compareValues_text (typed inWalk)]
        refine compare_short ?_ short
        rw [← orderKey_text (typed inWalk), ← orderKey_text (typed inRows)]
        exact congrArg UInt64.toNat (same.trans shares.symm)
      refine ⟨List.mem_map.mpr ⟨first, inWalk, rfl⟩, fun least _ => ?_, fun shortest => ?_⟩
      · intro head isHead
        cases isHead
        intro short first' isFirst' other inShort
        obtain rfl := Option.some.inj (isFirst.symm.trans isFirst')
        obtain ⟨inKey', -⟩ := List.mem_filter.mp inShort
        obtain ⟨inRows, shares⟩ := List.mem_filter.mp inKey'
        rw [hasKey, decide_eq_true_iff] at shares
        have below := least.2 _ (List.mem_map.mpr ⟨other, inRows, rfl⟩)
        rw [lengths other inRows shares] at below
        exact Nat.not_lt.mp (mt Nat.compare_eq_gt.mpr below)
      · refine isOf.least_all walk ⟨List.mem_map.mpr ⟨first, inKey, rfl⟩, fun v inValues => ?_⟩
        obtain ⟨other, inKey', rfl⟩ := List.mem_map.mp inValues
        obtain ⟨inRows, shares⟩ := List.mem_filter.mp inKey'
        rw [hasKey, decide_eq_true_iff] at shares
        rw [lengths other inRows shares]
        refine mt Nat.compare_eq_gt.mp (Nat.not_lt.mpr ?_)
        by_cases short' : isShort spec.col other = true
        · exact shortest text row rfl first isFirst other (List.mem_filter.mpr ⟨inKey', short'⟩)
        · rw [isShort, decide_eq_true_iff] at short'
          omega
    · rename_i noShort
      have least := isOf.least_all walk found
      refine ⟨least.1, fun _ _ head isHead => ?_, fun _ => least⟩
      cases isHead
      intro short first isFirst
      cases noShort.symm.trans isFirst
  · rename_i noText
    rw [found]
    have exact_ : orderKeyExact spec.type = true := decide_eq_true noText
    have inOrder := (table.walked spec.col isOf.indexed).ordered 0 (~~~0)
    rw [walk] at inOrder
    refine ⟨List.mem_map.mpr ⟨row, List.mem_cons_self, rfl⟩, iff_of_true ?_
      fun text => absurd text noText⟩
    refine ⟨List.mem_map.mpr ⟨row, List.mem_cons_self, rfl⟩, fun v inValues => ?_⟩
    obtain ⟨other, inRows, rfl⟩ := List.mem_map.mp inValues
    have exact' : orderKeyExact (Row.at other spec.col).type = true := by
      rw [isOf.typed (isOf.mem_rows.mp (walk ▸ inRows)).1]
      exact exact_
    refine not_gt_of_exact (isOf.fieldOf (inAll List.mem_cons_self)) (isOf.fieldOf (inAll inRows))
      exact' ?_
    rcases List.mem_cons.mp inRows with rfl | later
    · exact UInt64.le_refl _
    · exact (List.pairwise_cons.mp inOrder).1 other later

/-- The greatest key's entries hold the greatest value. -/
theorem OfIndex.max_greatest (isOf : OfIndex table spec) (isMax : spec.func ≠ .kMin) {row : Row}
    {rest : List Row} (walk : (table.index spec.col).rows 0 (~~~0) = row :: rest) :
    Greatest (endValue table spec) (valuesOf spec.col (row :: rest)) := by
  have inOrder := (table.walked spec.col isOf.indexed).ordered 0 (~~~0)
  obtain ⟨last, isLast⟩ : ∃ last, (row :: rest).getLast? = some last :=
    ⟨_, List.getLast?_eq_getLast_of_ne_nil (List.cons_ne_nil _ _)⟩
  have lastIn : last ∈ (table.index spec.col).rows 0 (~~~0) :=
    walk ▸ List.mem_of_getLast? isLast
  have top : ∀ other ∈ row :: rest, entryKey spec.col other ≤ entryKey spec.col last := by
    intro other inRows
    rw [walk] at inOrder
    obtain ⟨front, split⟩ := List.getLast?_eq_some_iff.mp isLast
    rw [split] at inOrder inRows
    rcases List.mem_append.mp inRows with earlier | same
    · exact (List.pairwise_append.mp inOrder).2.2 other earlier last List.mem_cons_self
    · rw [List.mem_singleton.mp same]
      exact UInt64.le_refl _
  obtain ⟨inTable, some_, -, high⟩ := isOf.mem_rows.mp lastIn
  have lastIn' : last ∈ (table.index spec.col).rows (entryKey spec.col last) (~~~0) :=
    isOf.mem_rows.mpr ⟨inTable, some_, UInt64.le_refl _, high⟩
  have keys : ∀ other ∈ (table.index spec.col).rows (entryKey spec.col last) (~~~0),
      other ∈ row :: rest ∧ entryKey spec.col other = entryKey spec.col last := by
    intro other inRows
    obtain ⟨inTable', some', low, high'⟩ := isOf.mem_rows.mp inRows
    have inAll : other ∈ row :: rest :=
      walk ▸ isOf.mem_rows.mpr ⟨inTable', some', UInt64.zero_le, high'⟩
    exact ⟨inAll, UInt64.le_antisymm (top other inAll) low⟩
  have found : endValue table spec = walkEnd spec
      ((table.index spec.col).rows (entryKey spec.col last) (~~~0))
      { last := entryKey spec.col last, best := .null spec.type } := by
    simp only [endValue, isMax, if_false, IndexWalk.maxKey, walk, isLast, Option.map_some]
  -- The entries of the greatest key give a greatest value among them.
  have greatest : Greatest (endValue table spec)
      (valuesOf spec.col ((table.index spec.col).rows (entryKey spec.col last) (~~~0))) := by
    have typed : ∀ v ∈ valuesOf spec.col
        ((table.index spec.col).rows (entryKey spec.col last) (~~~0)), v.Of spec.type :=
      fun v member => isOf.fieldOf member
    rw [found]
    cases run_ : (table.index spec.col).rows (entryKey spec.col last) (~~~0) with
    | nil =>
      rw [run_] at lastIn'
      cases lastIn'
    | cons head tail =>
      rw [run_] at typed keys
      have headOf := typed _ List.mem_cons_self
      have sameKey := (keys head List.mem_cons_self).2
      cases exact_ : orderKeyExact spec.type with
      | true =>
        have first : walkEnd spec (head :: tail)
            { last := entryKey spec.col last, best := .null spec.type } = Row.at head spec.col := by
          simp [walkEnd, exact_]
        rw [first]
        refine ⟨List.mem_cons_self, fun v member => ?_⟩
        obtain ⟨other, inRows, rfl⟩ := List.mem_map.mp member
        have exact' : orderKeyExact (Row.at head spec.col).type = true := by
          rw [isOf.typed (isOf.mem_rows.mp (run_ ▸ List.mem_cons_self :
            head ∈ (table.index spec.col).rows (entryKey spec.col last) (~~~0))).1]
          exact exact_
        refine not_lt_of_exact headOf (typed _ member) exact' ?_
        exact UInt64.le_of_eq ((keys other inRows).2.trans sameKey.symm)
      | false =>
        have first : walkEnd spec (head :: tail)
            { last := entryKey spec.col last, best := .null spec.type } =
            walkEnd spec tail { first := false, last := entryKey spec.col last
                                best := Row.at head spec.col } := by
          simp [walkEnd, exact_, isMax, sameKey]
        rw [first]
        refine @walkEnd_greatest spec [Row.at head spec.col] tail _ _ isMax exact_
          (fun other member => (keys other (List.mem_cons_of_mem head member)).2) spec.type typed ?_
        refine ⟨List.mem_singleton.mpr rfl, fun v member => ?_⟩
        rw [List.mem_singleton.mp member, compareValues_of headOf headOf,
          @Std.ReflCmp.compare_self _ rankedOrder _]
        nofun
  obtain ⟨member, above⟩ := greatest
  obtain ⟨best, inRun, isBest⟩ := List.mem_map.mp member
  obtain ⟨inAll, bestKey⟩ := keys best inRun
  refine ⟨List.mem_map.mpr ⟨best, inAll, isBest⟩, fun v inValues => ?_⟩
  obtain ⟨other, inRows, rfl⟩ := List.mem_map.mp inValues
  by_cases shares : entryKey spec.col other = entryKey spec.col last
  · obtain ⟨inTable', some', -, high'⟩ := isOf.mem_rows.mp (walk ▸ inRows)
    exact above _ (List.mem_map.mpr ⟨other, isOf.mem_rows.mpr
      ⟨inTable', some', UInt64.le_of_eq shares.symm, high'⟩, rfl⟩)
  · rw [← isBest]
    refine not_lt_of_key (isOf.fieldOf (List.mem_map.mpr ⟨best, inRun, rfl⟩))
      (isOf.fieldOf (List.mem_map.mpr ⟨other, walk ▸ inRows, rfl⟩)) ?_
    change entryKey spec.col other < entryKey spec.col best
    rw [bestKey]
    exact UInt64.lt_of_le_of_ne (top other inRows) shares

private theorem sameField_iff_eq {type : ColType} {a b : Field} (aType : a.type = type)
    (bType : b.type = type) (noDouble : type ≠ .kDouble) (aSome : a.isNull = false)
    (bSome : b.isNull = false) : SameField a b ↔ compareValues a b = .eq := by
  unfold SameField Field.equals compareValues compareFields
  rw [aType, bType, aSome, bSome]
  by_cases text : type = .kText
  · simp [text]
  · simp [text, noDouble]

private theorem null_same (type : ColType) : SameField (.null type) (.null type) := ⟨rfl, rfl⟩

/-- The value at the end of the index is what a scan answers, unless the walk to MIN ends at a
string that is not the shortest. -/
theorem OfIndex.same_iff (isOf : OfIndex table spec) {answer : Field}
    (answers : spec.Answers table.rows answer) :
    SameField (endValue table spec) answer ↔
      (spec.func = .kMin → spec.type = .kText →
        ShortestFirst spec.col ((table.index spec.col).rows 0 (~~~0))) := by
  have inValues : ∀ v, v ∈ values spec.col table.rows ↔
      v ∈ valuesOf spec.col ((table.index spec.col).rows 0 (~~~0)) := fun v => isOf.mem_values
  have isField : ∀ v ∈ values spec.col table.rows,
      v.isNull = false ∧ v.type = spec.type ∧ v.Of spec.type := by
    intro v member
    obtain ⟨some_, row, inTable, rfl⟩ := Query.mem_values member
    exact ⟨some_, isOf.typed inTable, isOf.fieldOf ((inValues _).mp member)⟩
  cases walk : (table.index spec.col).rows 0 (~~~0) with
  | nil =>
    have empty : values spec.col table.rows = [] := by
      refine List.eq_nil_iff_forall_not_mem.mpr fun v member => ?_
      rw [inValues, walk] at member
      cases member
    have none_ : endValue table spec = .null spec.type := by
      unfold endValue
      split
      · simp only [walk, walkEnd]
      · simp only [IndexWalk.maxKey, walk, List.getLast?_nil, Option.map_none]
    have isNull : answer = .null spec.type := by
      unfold AggSpec.Answers at answers
      rcases isOf.isEnd with isMin | isMax
      · rw [isMin] at answers
        dsimp only at answers
        rwa [if_pos empty] at answers
      · rw [isMax] at answers
        dsimp only at answers
        rwa [if_pos empty] at answers
    rw [none_, isNull]
    exact iff_of_true (null_same _) fun _ _ head isHead => by cases isHead
  | cons row rest =>
    rw [walk] at inValues
    have some_ : values spec.col table.rows ≠ [] :=
      List.ne_nil_of_mem ((inValues _).mpr List.mem_cons_self)
    have agree : ∀ {a b}, a ∈ values spec.col table.rows → b ∈ values spec.col table.rows →
        (SameField a b ↔ compareValues a b = .eq) := fun aIn bIn =>
      sameField_iff_eq (isField _ aIn).2.1 (isField _ bIn).2.1 isOf.noDouble (isField _ aIn).1
        (isField _ bIn).1
    have ranked : ∀ {a b}, a ∈ values spec.col table.rows → b ∈ values spec.col table.rows →
        compareValues a b = rankedOrder a b := fun aIn bIn =>
      compareValues_of (isField _ aIn).2.2 (isField _ bIn).2.2
    have swapped : ∀ {a b}, a ∈ values spec.col table.rows → b ∈ values spec.col table.rows →
        compareValues a b = (compareValues b a).swap := fun aIn bIn =>
      compareValues_swapped (isField _ aIn).2.2 (isField _ bIn).2.2
    unfold AggSpec.Answers at answers
    rcases isOf.isEnd with isMin | isMax
    · rw [isMin] at answers
      dsimp only at answers
      rw [if_neg some_] at answers
      obtain ⟨answerIn, below⟩ := answers
      obtain ⟨member, least⟩ := isOf.min_iff isMin walk
      have foundIn := (inValues _).mpr member
      rw [agree foundIn answerIn]
      constructor
      · intro equal _
        refine least.mp ⟨member, fun v inWalk => ?_⟩
        have vIn := (inValues v).mpr inWalk
        have le := below v vIn
        rw [ranked answerIn vIn] at le
        rw [ranked foundIn answerIn] at equal
        rw [ranked foundIn vIn, Std.TransCmp.congr_left equal]
        exact le
      · intro shortest
        have least' := least.mpr (shortest isMin)
        have first := below _ foundIn
        have second := least'.2 answer ((inValues _).mp answerIn)
        rw [swapped answerIn foundIn] at first
        cases order : compareValues (endValue table spec) answer with
        | lt => exact absurd (by rw [order]; rfl) first
        | eq => rfl
        | gt => exact absurd order second
    · rw [isMax] at answers
      dsimp only at answers
      rw [if_neg some_] at answers
      obtain ⟨answerIn, above⟩ := answers
      have noMin : spec.func ≠ .kMin := by rw [isMax]; nofun
      obtain ⟨member, greatest⟩ := isOf.max_greatest noMin walk
      have foundIn := (inValues _).mpr member
      rw [agree foundIn answerIn]
      refine iff_of_true ?_ fun isMin => absurd isMin noMin
      have first := above _ foundIn
      have second := greatest answer ((inValues _).mp answerIn)
      rw [swapped answerIn foundIn] at first
      cases order : compareValues (endValue table spec) answer with
      | lt => exact absurd order second
      | eq => rfl
      | gt => exact absurd (by rw [order]; rfl) first

end Ends

private theorem forall₂_iff_all {α β : Type} {P R : α → β → Prop} {C : α → Prop} {as : List α}
    {bs : List β} (holds : List.Forall₂ P as bs)
    (agree : ∀ a ∈ as, ∀ b, P a b → (R a b ↔ C a)) : List.Forall₂ R as bs ↔ ∀ a ∈ as, C a := by
  induction holds with
  | nil => exact iff_of_true .nil nofun
  | @cons a b as bs first later ih =>
    rw [List.forall₂_cons, List.forall_mem_cons, agree a List.mem_cons_self b first,
      ih fun a' member => agree a' (List.mem_cons_of_mem a member)]

/-- The row from the ends of the indexes is the one that a scan gives exactly where, for each
MIN of a TEXT column, the first short string of the least key is a shortest one. -/
theorem index_min_max_iff (table : Table) {aggs : List AggSpec}
    (ends : Ends table aggs = true)
    (valid : ∀ spec ∈ aggs, spec.Valid ∧
      spec.type = typeAt (tableSchema table.schema {}) spec.col) {scan : RowPath}
    (scanned : scan.Delivers table.rows) :
    ∃ path answers row, HashAggregate.run ⟨[], aggs⟩ scan = some (.ok path) ∧
      path.Delivers [answers] ∧ (IndexMinMax.run ⟨table, aggs⟩).Delivers [row] ∧
      (List.Forall₂ SameField row answers ↔ ∀ spec ∈ aggs, spec.func = .kMin → spec.type = .kText →
        ShortestFirst spec.col ((table.index spec.col).rows 0 (~~~0))) := by
  have isOf : ∀ spec ∈ aggs, OfIndex table spec := by
    intro spec member
    obtain ⟨isEnd, indexed⟩ := (Bool.and_eq_true _ _).mp (List.all_eq_true.mp ends spec member)
    rw [Bool.or_eq_true, decide_eq_true_iff, decide_eq_true_iff] at isEnd
    exact ⟨isEnd, (valid spec member).1, (valid spec member).2, indexed⟩
  have one : HashAggregate.groups ⟨[], aggs⟩ table.rows = [([], table.rows)] := rfl
  have numbers : ∀ row ∈ table.rows, ∀ col, (Row.at row col).Ordered := fun row member col double =>
    absurd (((table.typed {} row member).type_at col).symm.trans double)
      (typeAt_noDouble table {} col)
  have fits : ∀ group ∈ HashAggregate.groups ⟨[], aggs⟩ table.rows, ∀ spec ∈ aggs,
      spec.SumFits group.2 := by
    intro group _ spec member sums
    rcases (isOf spec member).isEnd with isMin | isMax
    · rw [isMin] at sums
      simp at sums
    · rw [isMax] at sums
      simp at sums
  obtain ⟨path, out, run_, delivers, answers⟩ := HashAggregate.run_answers scanned (table.typed {})
    numbers (fun spec member => (valid spec member).1) fits
  rw [one] at answers
  obtain ⟨row, rest, ⟨fields, isRow, each⟩, none_, rfl⟩ := List.forall₂_cons_left_iff.mp answers
  rw [List.forall₂_nil_left_iff.mp none_] at delivers
  rw [List.nil_append] at isRow
  rw [isRow] at delivers
  refine ⟨path, fields, _, run_, delivers, rowsPath_delivers _, ?_⟩
  rw [List.forall₂_map_left_iff]
  exact forall₂_iff_all each fun spec member answer answers => (isOf spec member).same_iff answers

section Strings

/-- Two rows whose strings share a key: the first ends in a zero byte. -/
def padded : List Row := [[.ofInt64 1, .ofText (bytes "a\x00")], [.ofInt64 2, .ofText (bytes "a")]]

/-- The table of these rows, both columns indexed. Entries of one key lie in the order in which
the rows were inserted. -/
def paddedTable : Table where
  schema := ⟨[⟨bytes "id", .kInt64, false⟩, ⟨bytes "s", .kText, true⟩]⟩
  indexed col := col < 2
  rows := padded
  byKey key := padded.find? fun row => tableKey (Row.at row 0).i64 = tableKey key.toInt64
  index col :=
    { rows := fun lo hi => padded.filter (IndexWalk.between col lo hi)
      entries := padded.length
      within := fun _ _ => List.length_filter_le _ _ }
  typed ref row member := by
    refine TypedRow.relabel {} ref ?_
    revert row
    decide
  noDouble := by decide
  keyed := by decide
  ascending := by decide
  searched _ := rfl
  walked col indexed := by
    refine ⟨fun lo hi => List.Perm.refl _, fun lo hi => List.Pairwise.filter _ ?_⟩
    match col with
    | 0 => decide
    | 1 => decide
    | col + 2 => simp at indexed

def minOfStrings : AggSpec := { func := .kMin, col := 1, type := .kText }

theorem index_min_max_iff_padded :
    ∃ path answers row, HashAggregate.run ⟨[], [minOfStrings]⟩ (rowsPath padded) =
        some (.ok path) ∧
      path.Delivers [answers] ∧ (IndexMinMax.run ⟨paddedTable, [minOfStrings]⟩).Delivers [row] ∧
      (List.Forall₂ SameField row answers ↔ ∀ spec ∈ [minOfStrings], spec.func = .kMin →
        spec.type = .kText →
        ShortestFirst spec.col ((paddedTable.index spec.col).rows 0 (~~~0))) :=
  index_min_max_iff paddedTable (by decide) (by decide) (rowsPath_delivers padded)

/-- Of a string and the same one with a zero byte after it, MIN finds the longer where that was
inserted first. -/
theorem index_min_finds_longer :
    (IndexMinMax.run ⟨paddedTable, [minOfStrings]⟩).rows =
        [[.ofText (bytes "a\x00")]] ∧
      (∃ path, HashAggregate.run ⟨[], [minOfStrings]⟩ (rowsPath padded) = some (.ok path) ∧
        path.rows = [[.ofText (bytes "a")]]) ∧
      ¬ SameField (.ofText (bytes "a\x00")) (.ofText (bytes "a")) := by
  refine ⟨by decide +kernel, ⟨_, rfl, by decide +kernel⟩, fun same => ?_⟩
  exact absurd same.2 (by decide +kernel)

end Strings

end Labdb.Query
