import Labdb.Query.JoinRows
import Mathlib.Data.List.Flatten

/-! The join algorithms hand out the same rows: each of them joins the pairs that satisfy
the conditions, however it finds them. -/

namespace Labdb.Query

/-- The comparison of a key's two columns, bound against the joined schema. -/
def keyTerm (left right : OutSchema) (key : Nat × Nat) : BoundComparison where
  left := key.1
  op := .kEq
  asText := typeAt left key.1 = .kText
  asDouble := typeAt left key.1 = .kDouble || typeAt right key.2 = .kDouble
  rightIsColumn := true
  right := left.length + key.2

/-- A pair of columns that a join may use as a key. No table can declare a DOUBLE. -/
structure KeyOf (left right : OutSchema) (key : Nat × Nat) : Prop where
  l_lt : key.1 < left.length
  r_lt : key.2 < right.length
  sameClass : typeClass (typeAt left key.1) = typeClass (typeAt right key.2)
  l_type : typeAt left key.1 ≠ .kDouble
  r_type : typeAt right key.2 ≠ .kDouble

instance (left right : OutSchema) (key : Nat × Nat) : Decidable (KeyOf left right key) :=
  decidable_of_iff (key.1 < left.length ∧ key.2 < right.length ∧
      typeClass (typeAt left key.1) = typeClass (typeAt right key.2) ∧
      typeAt left key.1 ≠ .kDouble ∧ typeAt right key.2 ≠ .kDouble)
    ⟨fun ⟨l_lt, r_lt, same, l_type, r_type⟩ => ⟨l_lt, r_lt, same, l_type, r_type⟩,
      fun key => ⟨key.l_lt, key.r_lt, key.sameClass, key.l_type, key.r_type⟩⟩

/-- A walk from a key to itself hands out every row whose value in the column has it. -/
def IndexWalk.Serves (index : IndexWalk) (rows : List Row) (col : Nat) : Prop :=
  ∀ key, (index.rows key key).Perm
    (rows.filter fun row => !(Row.at row col).isNull && orderKey (Row.at row col) = key)

section Terms

variable {left right : OutSchema} {key : Nat × Nat} {l r : Row}

theorem at_append_left {position : Nat} (inside : position < l.length) :
    Row.at (l ++ r) position = Row.at l position := by
  simp [Row.at, List.getD_eq_getElem?_getD, List.getElem?_append_left inside]

theorem at_append_right {position : Nat} (beyond : ¬ position < l.length) :
    Row.at (l ++ r) position = Row.at r (position - l.length) := by
  simp [Row.at, List.getD_eq_getElem?_getD, List.getElem?_append_right (Nat.le_of_not_lt beyond)]

/-- Evaluating a comparison on the joined row and on the pair is the same. -/
theorem eval_joinRows (c : BoundComparison) : eval c (joinRows l r) = evalPair c l r l.length := by
  have side : ∀ position, Row.at (joinRows l r) position =
      if position < l.length then Row.at l position else Row.at r (position - l.length) := by
    intro position
    split
    · rename_i inside
      exact at_append_left inside
    · rename_i beyond
      exact at_append_right beyond
  simp only [eval, evalPair, side]

private theorem isEq_compare {α : Type} [Ord α] [Std.LawfulEqOrd α] [DecidableEq α] (a b : α) :
    (compare a b).isEq = decide (a = b) := by
  rw [Bool.eq_iff_iff, decide_eq_true_iff, Ordering.isEq_iff_eq_eq]
  exact Std.LawfulEqOrd.compare_eq_iff_eq

theorem compareFields_isEq (a b : Field) (text : Bool) :
    (compareFields a b text false).isEq = if text then decide (a.text = b.text)
      else decide (a.i64 = b.i64) := by
  cases text with
  | true => exact isEq_compare a.text b.text
  | false => exact isEq_compare a.i64 b.i64

/-- Two values of a key's columns are equal, NULL or not. -/
def keyEqual (left : OutSchema) (key : Nat × Nat) (l r : Row) : Bool :=
  if typeAt left key.1 = .kText then decide ((Row.at l key.1).text = (Row.at r key.2).text)
  else decide ((Row.at l key.1).i64 = (Row.at r key.2).i64)

private theorem evalPair_keyTerm (isKey : KeyOf left right key) :
    evalPair (keyTerm left right key) l r left.length =
      (!(Row.at l key.1).isNull && !(Row.at r key.2).isNull && keyEqual left key l r) := by
  have noDouble : (keyTerm left right key).asDouble = false := by
    simp [keyTerm, isKey.l_type, isKey.r_type]
  have beyond : ¬ left.length + key.2 < left.length := by omega
  simp only [evalPair, BoundComparison.test, noDouble]
  simp [keyTerm, isKey.l_lt, holds, compareFields_isEq, keyEqual]

private theorem orderKeyInt_inj {a b : Int64} : orderKeyInt a = orderKeyInt b ↔ a = b := by
  unfold orderKeyInt
  rw [UInt64.xor_left_inj]
  constructor
  · intro same
    cases a
    cases b
    cases same
    rfl
  · exact congrArg _

/-- The order key of a column that is not a DOUBLE. -/
theorem orderKey_of {field : Field} (noDouble : field.type ≠ .kDouble) :
    orderKey field = if field.type = .kText then orderKeyText field.text
      else orderKeyInt field.i64 := by
  unfold orderKey
  split <;> simp_all

theorem KeyOf.text_iff (isKey : KeyOf left right key) :
    typeAt right key.2 = .kText ↔ typeAt left key.1 = .kText := by
  have same := isKey.sameClass
  cases l_type : typeAt left key.1 <;> cases r_type : typeAt right key.2 <;>
    simp_all [typeClass]

/-- A search by order key, with the strings compared for a TEXT, finds the equal values. -/
theorem keyEqual_eq (isKey : KeyOf left right key) (lfit : TypedRow left l) (rfit : TypedRow right r) :
    keyEqual left key l r = (decide (orderKey (Row.at l key.1) = orderKey (Row.at r key.2)) &&
      !(decide (typeAt left key.1 = .kText) &&
        decide ((Row.at l key.1).text ≠ (Row.at r key.2).text))) := by
  have l_type := lfit.typed key.1 isKey.l_lt
  have r_type := rfit.typed key.2 isKey.r_lt
  rw [orderKey_of (l_type ▸ isKey.l_type), orderKey_of (r_type ▸ isKey.r_type), l_type, r_type]
  by_cases text : typeAt left key.1 = .kText
  · have text' := isKey.text_iff.mpr text
    by_cases same : (Row.at l key.1).text = (Row.at r key.2).text
    · simp [keyEqual, text, text', same]
    · simp [keyEqual, text, same]
  · have text' := mt isKey.text_iff.mp text
    simp [keyEqual, text, text', orderKeyInt_inj]

end Terms

section Joins

variable {left right : OutSchema} {keys : List (Nat × Nat)} {residual : List BoundComparison}

/-- The conditions of the nested loop, for a pair of rows. -/
theorem all_terms (areKeys : ∀ key ∈ keys, KeyOf left right key) (l r : Row) :
    (keys.map (keyTerm left right) ++ residual).all (evalPair · l r left.length) =
      (!(keys.any fun key => (Row.at l key.1).isNull) &&
        !(keys.any fun key => (Row.at r key.2).isNull) &&
        keys.all (keyEqual left · l r) && residual.all (evalPair · l r left.length)) := by
  rw [List.all_append]
  congr 1
  induction keys with
  | nil => rfl
  | cons key keys ih =>
    have here := evalPair_keyTerm (l := l) (r := r) (areKeys key List.mem_cons_self)
    have rest := ih fun other member => areKeys other (List.mem_cons_of_mem _ member)
    rw [List.map_cons, List.all_cons, here, rest]
    simp only [List.any_cons, List.all_cons, Bool.not_or]
    ac_rfl

/-- A hash join on these keys. -/
def hashJoin (left : OutSchema) (keys : List (Nat × Nat)) (residual : List BoundComparison)
    (mix : UInt64 → UInt64) (buildLeft : Bool) : HashJoin :=
  { keys := HashJoin.keysOf left keys, residual, mix, buildLeft, nleft := left.length }

variable {mix : UInt64 → UInt64} {buildLeft : Bool}

private theorem keysEqual_hashJoin (l r : Row) :
    (hashJoin left keys residual mix buildLeft).keysEqual l r = keys.all (keyEqual left · l r) := by
  simp only [hashJoin, HashJoin.keysEqual, HashJoin.keysOf, List.all_map]
  refine List.all_congr rfl fun key => ?_
  simp only [Function.comp_apply, decide_eq_true_eq, keyEqual]

private theorem nullKey_lkeys (row : Row) :
    HashJoin.nullKey row (hashJoin left keys residual mix buildLeft).lkeys =
      keys.any fun key => (Row.at row key.1).isNull := by
  simp only [hashJoin, HashJoin.nullKey, HashJoin.lkeys, HashJoin.keysOf, List.any_map]
  rfl

private theorem nullKey_rkeys (row : Row) :
    HashJoin.nullKey row (hashJoin left keys residual mix buildLeft).rkeys =
      keys.any fun key => (Row.at row key.2).isNull := by
  simp only [hashJoin, HashJoin.nullKey, HashJoin.rkeys, HashJoin.keysOf, List.any_map]
  rfl

/-- A pair whose keys are not NULL joins when it satisfies the conditions. -/
theorem joinPair_eq (areKeys : ∀ key ∈ keys, KeyOf left right key) {outer inner l r : Row}
    (sides : (hashJoin left keys residual mix buildLeft).sides outer inner = (l, r)) :
    (if HashJoin.nullKey l (hashJoin left keys residual mix buildLeft).lkeys ||
        HashJoin.nullKey r (hashJoin left keys residual mix buildLeft).rkeys then none
      else (hashJoin left keys residual mix buildLeft).joinPair outer inner) =
      pair (keys.map (keyTerm left right) ++ residual) left.length l r := by
  rw [nullKey_lkeys, nullKey_rkeys, HashJoin.joinPair, sides, pair, all_terms areKeys]
  dsimp only
  rw [keysEqual_hashJoin]
  cases keys.any fun key => (Row.at l key.1).isNull with
  | true => rfl
  | false =>
    cases keys.any fun key => (Row.at r key.2).isNull with
    | true => rfl
    | false => rfl

/-- Building from the right, a left row meets the right rows that it pairs up with. -/
theorem matches_right (areKeys : ∀ key ∈ keys, KeyOf left right key) (rrows : List Row) (l : Row) :
    (hashJoin left keys residual mix false).matches_ rrows l =
      rrows.filterMap (pair (keys.map (keyTerm left right) ++ residual) left.length l) := by
  rw [HashJoin.matches_eq]
  exact List.filterMap_congr fun r _ => joinPair_eq areKeys rfl

/-- Building from the left, a right row meets the left rows that it pairs up with. -/
theorem matches_left (areKeys : ∀ key ∈ keys, KeyOf left right key) (lrows : List Row) (r : Row) :
    (hashJoin left keys residual mix true).matches_ lrows r =
      lrows.filterMap (pair (keys.map (keyTerm left right) ++ residual) left.length · r) := by
  rw [HashJoin.matches_eq]
  refine List.filterMap_congr fun l _ => ?_
  rw [Bool.or_comm]
  exact joinPair_eq areKeys rfl

/-- An index join on one key; the other keys are checked on the joined row. -/
def indexJoin (left right : OutSchema) (key : Nat × Nat) (others : List (Nat × Nat))
    (filter residual : List BoundComparison) (innerFirst : Bool) : IndexNestedLoopJoin :=
  let innerCol := if innerFirst then key.1 else key.2
  { outerCol := if innerFirst then key.2 else key.1
    innerCol
    innerFilter := filter
    residual := others.map (keyTerm left right) ++ residual
    innerFirst
    textKey := IndexNestedLoopJoin.textKeyOf (if innerFirst then left else right) innerCol }

variable {key : Nat × Nat} {others : List (Nat × Nat)} {filter : List BoundComparison}

private theorem guards {α : Type} (a b c : Bool) (x : α) :
    (if a then none else if !b then none else if !c then none else some x) =
      if !a && b && c then some x else none := by
  cases a <;> cases b <;> cases c <;> rfl

/-- A row that a search found, when it stands the tests of the loop. -/
theorem joinFound_eq {innerFirst : Bool} {outer inner l r : Row} (isKey : KeyOf left right key)
    (lfit : TypedRow left l) (sides : (if innerFirst then (inner, outer) else (outer, inner)) = (l, r)) :
    (indexJoin left right key others filter residual innerFirst).joinFound outer inner =
      if !(decide (typeAt left key.1 = .kText) &&
            decide ((Row.at l key.1).text ≠ (Row.at r key.2).text)) &&
          filter.all (eval · inner) &&
          (others.map (keyTerm left right) ++ residual).all (evalPair · l r left.length) then
        some (joinRows l r)
      else none := by
  have same : ∀ c, eval c (joinRows l r) = evalPair c l r left.length := fun c =>
    lfit.length ▸ eval_joinRows c
  have text : decide (typeAt right key.2 = .kText) = decide (typeAt left key.1 = .kText) :=
    decide_eq_decide.mpr isKey.text_iff
  cases innerFirst with
  | true =>
    cases sides
    simp only [indexJoin, IndexNestedLoopJoin.joinFound, IndexNestedLoopJoin.joined,
      IndexNestedLoopJoin.textKeyOf, if_true, same]
    exact guards _ _ _ _
  | false =>
    cases sides
    simp only [indexJoin, IndexNestedLoopJoin.joinFound, IndexNestedLoopJoin.joined,
      IndexNestedLoopJoin.textKeyOf, Bool.false_eq_true, if_false, same, text,
      @ne_comm _ (Row.at inner key.2).text]
    exact guards _ _ _ _

/-- The rows that a search finds join as in the nested loop. -/
theorem joinFound_pair (innerFirst : Bool) (outer inner : Row) {l r : Row} (isKey : KeyOf left right key)
    (lfit : TypedRow left l) (rfit : TypedRow right r)
    (sides : (if innerFirst then (inner, outer) else (outer, inner)) = (l, r)) :
    (if !(Row.at l key.1).isNull && !(Row.at r key.2).isNull &&
        decide (orderKey (Row.at l key.1) = orderKey (Row.at r key.2)) then
      (indexJoin left right key others filter residual innerFirst).joinFound outer inner
    else none) =
    if filter.all (eval · inner) then
      pair ((key :: others).map (keyTerm left right) ++ residual) left.length l r
    else none := by
  rw [joinFound_eq isKey lfit sides, pair, List.map_cons, List.cons_append, List.all_cons,
    evalPair_keyTerm isKey, keyEqual_eq isKey lfit rfit]
  cases (Row.at l key.1).isNull with
  | true => simp
  | false =>
    cases (Row.at r key.2).isNull with
    | true => simp
    | false =>
      cases decide (orderKey (Row.at l key.1) = orderKey (Row.at r key.2)) with
      | false => simp
      | true =>
        cases filter.all (eval · inner) with
        | false => simp only [Bool.and_false, Bool.false_and, Bool.false_eq_true, if_false, ite_self]
        | true => simp only [Bool.and_true, Bool.true_and, Bool.not_false, if_true]

/-- What an index search leads to, from the rows of the table. -/
theorem matches_index (join : IndexNestedLoopJoin) {index : IndexWalk} {inners : List Row}
    (serves : index.Serves inners join.innerCol) (outer : Row) :
    (join.matches_ index outer).Perm (inners.filterMap fun inner =>
      if !(Row.at outer join.outerCol).isNull && !(Row.at inner join.innerCol).isNull &&
          decide (orderKey (Row.at inner join.innerCol) = orderKey (Row.at outer join.outerCol)) then
        join.joinFound outer inner
      else none) := by
  unfold IndexNestedLoopJoin.matches_
  cases (Row.at outer join.outerCol).isNull with
  | true => simp
  | false =>
    have found := (serves (orderKey (Row.at outer join.outerCol))).filterMap (join.joinFound outer)
    rw [List.filterMap_filter] at found
    simpa using found

/-- Searching the right table for each left row. -/
theorem index_right (isKey : KeyOf left right key) {lrows rrows : List Row}
    (lfit : ∀ row ∈ lrows, TypedRow left row) (rfit : ∀ row ∈ rrows, TypedRow right row)
    {index : IndexWalk} (serves : index.Serves rrows key.2) {leftPath : RowPath}
    (fromLeft : leftPath.Delivers lrows) :
    ((indexJoin left right key others filter residual false).run leftPath index).rows.Perm
      (lrows.flatMap fun l => (rrows.filter fun row => filter.all (eval · row)).filterMap
        (pair ((key :: others).map (keyTerm left right) ++ residual) left.length l)) := by
  rw [(IndexNestedLoopJoin.run_delivers _ fromLeft).rows_eq]
  refine List.Perm.flatMap_left lrows fun l member => (matches_index _ serves l).trans ?_
  rw [List.filterMap_filter]
  refine List.Perm.of_eq (List.filterMap_congr fun r member' => ?_)
  refine Eq.trans ?_ (joinFound_pair false l r isKey (lfit l member) (rfit r member') rfl)
  have flip : decide (orderKey (Row.at l key.1) = orderKey (Row.at r key.2)) =
      decide (orderKey (Row.at r key.2) = orderKey (Row.at l key.1)) := decide_eq_decide.mpr eq_comm
  rw [flip]
  rfl

/-- Searching the left table for each right row. -/
theorem index_left (isKey : KeyOf left right key) {lrows rrows : List Row}
    (lfit : ∀ row ∈ lrows, TypedRow left row) (rfit : ∀ row ∈ rrows, TypedRow right row)
    {index : IndexWalk} (serves : index.Serves lrows key.1) {rightPath : RowPath}
    (fromRight : rightPath.Delivers rrows) :
    ((indexJoin left right key others filter residual true).run rightPath index).rows.Perm
      (rrows.flatMap fun r => (lrows.filter fun row => filter.all (eval · row)).filterMap
        (pair ((key :: others).map (keyTerm left right) ++ residual) left.length · r)) := by
  rw [(IndexNestedLoopJoin.run_delivers _ fromRight).rows_eq]
  refine List.Perm.flatMap_left rrows fun r member => (matches_index _ serves r).trans ?_
  rw [List.filterMap_filter]
  refine List.Perm.of_eq (List.filterMap_congr fun l member' => ?_)
  refine Eq.trans ?_ (joinFound_pair true r l isKey (lfit l member') (rfit r member) rfl)
  rw [Bool.and_comm (!(Row.at l key.1).isNull)]
  rfl

/-- A nested loop hands out the same rows whichever input it goes through first. -/
theorem flatMap_swap {α β γ : Type} (xs : List α) (ys : List β) (f : α → β → Option γ) :
    (ys.flatMap fun y => xs.filterMap (f · y)).Perm (xs.flatMap fun x => ys.filterMap (f x)) := by
  induction xs with
  | nil => simp
  | cons x xs ih =>
    have split : ∀ y, (x :: xs).filterMap (f · y) = (f x y).toList ++ xs.filterMap (f · y) := by
      intro y
      rw [List.filterMap_cons]
      cases f x y <;> rfl
    simp only [split, List.flatMap_cons]
    refine (List.flatMap_append_perm ys _ _).symm.trans ?_
    rw [← List.filterMap_eq_flatMap_toList]
    exact ih.append_left _

/-- The nested loop's conditions do not depend on where a key stands among the others. -/
theorem pair_middle (before after : List (Nat × Nat)) :
    pair ((before ++ key :: after).map (keyTerm left right) ++ residual) left.length =
      pair ((key :: (before ++ after)).map (keyTerm left right) ++ residual) left.length := by
  funext l r
  have same : ((before ++ key :: after).map (keyTerm left right) ++ residual).all
      (evalPair · l r left.length) =
        ((key :: (before ++ after)).map (keyTerm left right) ++ residual).all
          (evalPair · l r left.length) := by
    simp only [List.all_append, List.all_map, List.all_cons]
    ac_rfl
  rw [pair, pair, same]

end Joins

/-- For any inputs, the hash join hands out the rows of the nested loop on the same
conditions: in the same order when it builds from the right, and as many times each when
it builds from the left. So does an index join on any of the keys, whichever table it
searches, against the nested loop over the rows of that table that pass its filter. Rows are
numbered without a bound here, in 32 bits there: fewer than 2 ^ 32 rows are built from. -/
theorem join_algorithms_agree {left right : OutSchema} {leftPath rightPath : RowPath}
    {lrows rrows : List Row} (fromLeft : leftPath.Delivers lrows)
    (fromRight : rightPath.Delivers rrows) (lfit : ∀ row ∈ lrows, TypedRow left row)
    (rfit : ∀ row ∈ rrows, TypedRow right row) {keys : List (Nat × Nat)}
    (areKeys : ∀ key ∈ keys, KeyOf left right key) (residual : List BoundComparison)
    (mix : UInt64 → UInt64) :
    let on := keys.map (keyTerm left right) ++ residual
    let nested := fun leftPath rightPath => (nestedLoopJoin leftPath rightPath on left.length).rows
    let hash := fun buildLeft =>
      ((hashJoin left keys residual mix buildLeft).run leftPath rightPath).rows
    hash false = nested leftPath rightPath ∧ (hash true).Perm (nested leftPath rightPath) ∧
      ∀ before key after, keys = before ++ key :: after → ∀ filter : List BoundComparison,
        let index := fun innerFirst =>
          (indexJoin left right key (before ++ after) filter residual innerFirst).run
        let filtered := fun rows : List Row => rows.filter fun row => filter.all (eval · row)
        (∀ walk : IndexWalk, walk.Serves rrows key.2 →
          (index false leftPath walk).rows.Perm (nested leftPath (rowsPath (filtered rrows)))) ∧
        ∀ walk : IndexWalk, walk.Serves lrows key.1 →
          (index true rightPath walk).rows.Perm (nested (rowsPath (filtered lrows)) rightPath) := by
  intro on nested hash
  have nests : ∀ {leftPath rightPath lrows rrows}, RowPath.Delivers leftPath lrows →
      RowPath.Delivers rightPath rrows → nested leftPath rightPath =
        lrows.flatMap fun l => rrows.filterMap (pair on left.length l) :=
    fun fromLeft fromRight => (nestedLoopJoin_delivers fromLeft fromRight).rows_eq
  have fromRight' : ∀ filter : List BoundComparison,
      (rowsPath (rrows.filter fun row => filter.all (eval · row))).Delivers _ :=
    fun filter => rowsPath_delivers _
  have fromLeft' : ∀ filter : List BoundComparison,
      (rowsPath (lrows.filter fun row => filter.all (eval · row))).Delivers _ :=
    fun filter => rowsPath_delivers _
  refine ⟨?_, ?_, ?_⟩
  · rw [nests fromLeft fromRight]
    refine (HashJoin.run_delivers (hashJoin left keys residual mix false) fromRight
      fromLeft).rows_eq.trans ?_
    exact List.flatMap_congr fun l _ => matches_right areKeys rrows l
  · rw [nests fromLeft fromRight]
    have built := (HashJoin.run_delivers (hashJoin left keys residual mix true) fromLeft
      fromRight).rows_eq
    have hash_eq : hash true = rrows.flatMap fun r => lrows.filterMap (pair on left.length · r) :=
      built.trans (List.flatMap_congr fun r _ => matches_left areKeys lrows r)
    rw [hash_eq]
    exact flatMap_swap lrows rrows (pair on left.length)
  · rintro before key after rfl filter
    have isKey := areKeys key (List.mem_append_right before List.mem_cons_self)
    constructor
    · intro walk serves
      rw [nests fromLeft (fromRight' filter)]
      have found := @index_right _ _ residual key (before ++ after) filter isKey _ _ lfit rfit _
        serves _ fromLeft
      rwa [← pair_middle] at found
    · intro walk serves
      rw [nests (fromLeft' filter) fromRight]
      have found := @index_left _ _ residual key (before ++ after) filter isKey _ _ lfit rfit _
        serves _ fromRight
      rw [← pair_middle] at found
      exact found.trans (flatMap_swap _ rrows _)

/-- One column of a type, for the examples of this module. -/
def oneColumn (type : ColType) : OutSchema := [⟨[], ⟨[], type, true⟩⟩]

theorem join_algorithms_agree_nulls :
    let lrows := [[Field.ofInt64 7], [Field.null .kInt64], [Field.ofInt64 7]]
    let rrows := [[Field.null .kInt32], [Field.ofInt32 7], [Field.ofInt32 5], [Field.ofInt32 7]]
    let left := oneColumn .kInt64
    let right := oneColumn .kInt32
    ((hashJoin left [(0, 0)] [] mix64 false).run (rowsPath lrows) (rowsPath rrows)).rows =
      (nestedLoopJoin (rowsPath lrows) (rowsPath rrows) [keyTerm left right (0, 0)] 1).rows :=
  (@join_algorithms_agree (oneColumn .kInt64) (oneColumn .kInt32) _ _ _ _ (rowsPath_delivers _)
    (rowsPath_delivers _) (by decide) (by decide) [(0, 0)] (by decide) [] mix64).1

/-- With DOUBLE columns the algorithms part: the zeros are equal, and hash apart. -/
theorem join_algorithms_differ_on_zeros :
    let lrows := [[Field.ofDouble ⟨0⟩]]
    let rrows := [[Field.ofDouble ⟨1#64 <<< 63⟩]]
    let schema := oneColumn .kDouble
    ((hashJoin schema [(0, 0)] [] mix64 false).run (rowsPath lrows) (rowsPath rrows)).rows ≠
      (nestedLoopJoin (rowsPath lrows) (rowsPath rrows) [keyTerm schema schema (0, 0)] 1).rows := by
  decide +kernel

end Labdb.Query
