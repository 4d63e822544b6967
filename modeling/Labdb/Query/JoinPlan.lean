import Labdb.Query.Scope

/-! The operator planned for a join, whichever algorithm is picked, hands out the pairs of
rows that satisfy the terms it was given. -/

namespace Labdb.Query

open Labdb.Sql

/-- The joined rows of the pairs that satisfy the conditions. -/
def pairRows (on : List BoundComparison) (nleft : Nat) (lrows rrows : List Row) : List Row :=
  lrows.flatMap fun l => rrows.filterMap (pair on nleft l)

section Pairs

variable {on on' : List BoundComparison} {nleft : Nat} {lrows lrows' rrows rrows' : List Row}

private theorem pairRows_perm (lperm : lrows.Perm lrows') (rperm : rrows.Perm rrows') :
    (pairRows on nleft lrows rrows).Perm (pairRows on nleft lrows' rrows') :=
  (List.Perm.flatMap_left lrows fun _ _ => rperm.filterMap _).trans (lperm.flatMap_right _)

/-- Only what the conditions say together matters. -/
theorem pair_congr (same : ∀ l r, on.all (evalPair · l r nleft) = on'.all (evalPair · l r nleft)) :
    pair on nleft = pair on' nleft := by
  funext l r
  rw [pair, pair, same]

end Pairs

section Keys

variable {left right : OutSchema} {bound : List BoundComparison} {b : BoundComparison}

theorem typeAt_append_left {position : Nat} (inside : position < left.length) :
    typeAt (left ++ right) position = typeAt left position := by
  rw [typeAt, typeAt, List.getElem?_append_left inside]

theorem typeAt_append_right {position : Nat} (beyond : left.length ≤ position) :
    typeAt (left ++ right) position = typeAt right (position - left.length) := by
  rw [typeAt, typeAt, List.getElem?_append_right beyond]

private theorem isKeyTerm_iff {nleft : Nat} : isKeyTerm nleft b = true ↔
    b.op = .kEq ∧ b.rightIsColumn = true ∧
      (b.left < nleft ∧ nleft ≤ b.right ∨ b.right < nleft ∧ nleft ≤ b.left) := by
  simp only [isKeyTerm, Bool.and_eq_true, decide_eq_true_eq, bne_iff_ne, ne_eq,
    decide_eq_decide, and_assoc]
  refine and_congr_right fun _ => and_congr_right fun _ => ?_
  constructor
  · intro differ
    by_cases here : b.left < nleft
    · exact .inl ⟨here, Nat.le_of_not_lt fun there => differ ⟨fun _ => there, fun _ => here⟩⟩
    · refine .inr ⟨?_, Nat.le_of_not_lt here⟩
      by_contra there
      exact differ ⟨fun is => absurd is here, fun is => absurd is there⟩
  · rintro (⟨here, there⟩ | ⟨here, there⟩) same
    · exact absurd (same.mp here) (Nat.not_lt.mpr there)
    · exact absurd (same.mpr here) (Nat.not_lt.mpr there)

/-- An equality of two columns is a key. -/
theorem keyPair_keyOf (columns : BoundColumns (left ++ right) b)
    (noDouble : ∀ position, typeAt (left ++ right) position ≠ .kDouble)
    (isKey : isKeyTerm left.length b = true) : KeyOf left right (keyPair left.length b) := by
  obtain ⟨-, column, sides⟩ := isKeyTerm_iff.mp isKey
  have leftInside := columns.inside b.left (.inl rfl)
  have rightInside := columns.inside b.right (.inr ⟨column, rfl⟩)
  have same := (columns.column column).1
  have leftType := noDouble b.left
  have rightType := noDouble b.right
  rw [List.length_append] at leftInside rightInside
  rcases sides with ⟨here, there⟩ | ⟨here, there⟩
  · rw [typeAt_append_left here] at same leftType
    rw [typeAt_append_right there] at same rightType
    rw [keyPair, Nat.min_eq_left (by omega), Nat.max_eq_right (by omega)]
    exact ⟨here, by dsimp only; omega, same, leftType, rightType⟩
  · rw [typeAt_append_left here] at same rightType
    rw [typeAt_append_right there] at same leftType
    rw [keyPair, Nat.min_eq_right (by omega), Nat.max_eq_left (by omega)]
    exact ⟨here, by dsimp only; omega, same.symm, rightType, leftType⟩

/-- Two equalities that are not of doubles agree, either way round. -/
theorem test_eq {c c' : BoundComparison} (op : c.op = .kEq) (op' : c'.op = .kEq)
    (text : c.asText = c'.asText) (double : c.asDouble = false) (double' : c'.asDouble = false)
    (x y : Field) : c.test x y = c'.test x y ∧ c.test x y = c'.test y x := by
  have swapped : (compareFields x y c'.asText false).isEq =
      (compareFields y x c'.asText false).isEq := by
    simp only [compareFields_isEq, @eq_comm _ x.text, @eq_comm _ x.i64]
  simp only [BoundComparison.test, op, op', double, double', text, holds, swapped,
    Bool.or_comm x.isNull, and_self]

/-- The comparison of a key's two columns is the term that the key came from. -/
theorem evalPair_keyPair (columns : BoundColumns (left ++ right) b)
    (noDouble : ∀ position, typeAt (left ++ right) position ≠ .kDouble)
    (isKey : isKeyTerm left.length b = true) (l r : Row) :
    evalPair (keyTerm left right (keyPair left.length b)) l r left.length =
      evalPair b l r left.length := by
  obtain ⟨op, column, sides⟩ := isKeyTerm_iff.mp isKey
  obtain ⟨-, double⟩ := columns.column column
  have isKeyOf := keyPair_keyOf columns noDouble isKey
  rw [decide_eq_false (noDouble _), decide_eq_false (noDouble _), Bool.or_self] at double
  have double' : (keyTerm left right (keyPair left.length b)).asDouble = false := by
    simp [keyTerm, isKeyOf.l_type, isKeyOf.r_type]
  have tests := @test_eq (keyTerm left right (keyPair left.length b)) b rfl op
  rcases sides with ⟨here, there⟩ | ⟨here, there⟩
  · have pairIs : keyPair left.length b = (b.left, b.right - left.length) := by
      rw [keyPair, Nat.min_eq_left (by omega), Nat.max_eq_right (by omega)]
    have text : (keyTerm left right (keyPair left.length b)).asText = b.asText := by
      rw [columns.asText, typeAt_append_left here, pairIs]
      rfl
    simp only [evalPair, (tests text double' double _ _).1, column, if_true]
    simp only [keyTerm, pairIs, Nat.add_sub_cancel' there, if_true]
  · have pairIs : keyPair left.length b = (b.right, b.left - left.length) := by
      rw [keyPair, Nat.min_eq_right (by omega), Nat.max_eq_left (by omega)]
    have text : (keyTerm left right (keyPair left.length b)).asText = b.asText := by
      have iff := isKeyOf.text_iff
      rw [pairIs, ← typeAt_append_right there] at iff
      rw [columns.asText, pairIs]
      exact decide_eq_decide.mpr iff.symm
    simp only [evalPair, (tests text double' double _ _).2, column, if_true]
    simp only [keyTerm, pairIs, Nat.add_sub_cancel' there, if_true]

/-- The terms of a join, each bound against both sides. -/
structure JoinTerms (left right : OutSchema) (bound : List BoundComparison) : Prop where
  columns : ∀ b ∈ bound, BoundColumns (left ++ right) b
  noDouble : ∀ position, typeAt (left ++ right) position ≠ .kDouble

/-- The keys of a hash join and the terms that are not keys say what all the terms say. -/
theorem pair_keyPairs (terms : JoinTerms left right bound) :
    pair ((keyPairs left.length bound).map (keyTerm left right) ++
        bound.filter (!isKeyTerm left.length ·)) left.length =
      pair bound left.length := by
  refine pair_congr fun l r => ?_
  rw [Bool.eq_iff_iff, List.all_append, Bool.and_eq_true, List.all_eq_true, List.all_eq_true,
    List.all_eq_true, keyPairs, List.map_map]
  have same : ∀ b ∈ bound, isKeyTerm left.length b = true →
      evalPair (keyTerm left right (keyPair left.length b)) l r left.length =
        evalPair b l r left.length := fun b member isKey =>
    evalPair_keyPair (terms.columns b member) terms.noDouble isKey l r
  constructor
  · rintro ⟨keys, others⟩ b member
    cases isKey : isKeyTerm left.length b with
    | true =>
      rw [← same b member isKey]
      exact keys _ (List.mem_map_of_mem (List.mem_filter.mpr ⟨member, isKey⟩))
    | false => exact others b (List.mem_filter.mpr ⟨member, by rw [isKey]; rfl⟩)
  · intro all
    refine ⟨fun term here => ?_, fun b here => all b (List.mem_filter.mp here).1⟩
    obtain ⟨b, key, rfl⟩ := List.mem_map.mp here
    obtain ⟨member, isKey⟩ := List.mem_filter.mp key
    exact (same b member isKey).trans (all b member)

private theorem keyPairs_keyOf (terms : JoinTerms left right bound) :
    ∀ key ∈ keyPairs left.length bound, KeyOf left right key := by
  intro key here
  obtain ⟨b, member, rfl⟩ := List.mem_map.mp here
  obtain ⟨member, isKey⟩ := List.mem_filter.mp member
  exact keyPair_keyOf (terms.columns b member) terms.noDouble isKey

/-- The key of an index search is one of the terms, and the residual is the others. -/
theorem key_term {nleft number : Nat} {key : Nat × Nat}
    (found : (keyPairs nleft bound)[number]? = some key) :
    ∃ before b after, bound = before ++ b :: after ∧ isKeyTerm nleft b = true ∧
      keyPair nleft b = key ∧ residualWithout nleft bound number = before ++ after := by
  let item := fun k => bound.getD k {}
  have items : bound = (List.range bound.length).map item := by
    apply List.ext_getElem
    · rw [List.length_map, List.length_range]
    · intro k inside _
      rw [List.getElem_map, List.getElem_range]
      exact (List.getD_eq_getElem _ _ inside).symm
  have numbers : keyTerms nleft bound =
      (List.range bound.length).filter (isKeyTerm nleft ∘ item) := by
    refine List.filter_congr fun k inside => ?_
    rw [Function.comp_apply, List.getElem?_eq_getElem (List.mem_range.mp inside), Option.any_some]
    exact congrArg _ (List.getD_eq_getElem _ _ (List.mem_range.mp inside)).symm
  have keys : keyPairs nleft bound = (keyTerms nleft bound).map (keyPair nleft ∘ item) := by
    rw [numbers, keyPairs]
    conv_lhs => rw [items, List.filter_map, List.map_map]
  rw [keys, List.getElem?_map] at found
  obtain ⟨k, at_, rfl⟩ := Option.map_eq_some_iff.mp found
  have member := List.mem_of_getElem? at_
  rw [numbers, List.mem_filter, List.mem_range] at member
  have read : item k = bound[k] := List.getD_eq_getElem _ _ member.1
  have isKey : isKeyTerm nleft bound[k] = true := read ▸ (member.2 : isKeyTerm nleft (item k) = true)
  refine ⟨bound.take k, bound[k], bound.drop (k + 1), ?_, isKey, ?_, ?_⟩
  · rw [← List.drop_eq_getElem_cons member.1, List.take_append_drop]
  · rw [← read]
    rfl
  · rw [residualWithout, at_]
    exact List.eraseIdx_eq_take_drop_succ bound k

/-- The key of an index search, checked first, and the other terms. -/
theorem pair_key {before after : List BoundComparison}
    (terms : JoinTerms left right (before ++ b :: after)) (isKey : isKeyTerm left.length b = true) :
    pair ([keyPair left.length b].map (keyTerm left right) ++ (before ++ after)) left.length =
      pair (before ++ b :: after) left.length := by
  refine pair_congr fun l r => ?_
  have same := evalPair_keyPair (terms.columns b (by simp)) terms.noDouble isKey l r
  simp only [List.map_cons, List.map_nil, List.cons_append, List.nil_append, List.all_cons,
    List.all_append, same]
  ac_rfl

end Keys

section Operators

variable {left right : Plan} {lschema rschema : OutSchema} {lrows lrows' rrows rrows' : List Row}
  {bound : List BoundComparison}

theorem Plan.nestedLoopJoin_delivers (fromLeft : left.Delivers lrows)
    (fromRight : right.Delivers rrows) :
    (nestedLoopJoin left right bound).Delivers
      (pairRows bound left.schema.length lrows rrows) := by
  obtain ⟨lpath, lopened, fromLeft⟩ := fromLeft
  obtain ⟨rpath, ropened, fromRight⟩ := fromRight
  refine ⟨_, ?_, Query.nestedLoopJoin_delivers fromLeft fromRight⟩
  rw [openRows, lopened, ropened]
  rfl

/-- A hash join hands out the pairs that satisfy its terms, whichever side it builds from. -/
theorem Plan.hashJoin_delivers (fromLeft : left.Delivers lrows) (fromRight : right.Delivers rrows)
    (terms : JoinTerms left.schema rschema bound) (buildLeft : Bool) :
    ∃ rows, (hashJoin left right (keyPairs left.schema.length bound)
        (bound.filter (!isKeyTerm left.schema.length ·)) buildLeft).Delivers rows ∧
      rows.Perm (pairRows bound left.schema.length lrows rrows) := by
  obtain ⟨lpath, lopened, fromLeft⟩ := fromLeft
  obtain ⟨rpath, ropened, fromRight⟩ := fromRight
  have areKeys := keyPairs_keyOf terms
  have opened : ∀ path, path = (Query.hashJoin left.schema (keyPairs left.schema.length bound)
      (bound.filter (!isKeyTerm left.schema.length ·)) mix64 buildLeft).run lpath rpath →
      (hashJoin left right (keyPairs left.schema.length bound)
        (bound.filter (!isKeyTerm left.schema.length ·)) buildLeft).openRows = .ok path := by
    rintro _ rfl
    rw [openRows, lopened, ropened]
    rfl
  cases buildLeft with
  | false =>
    refine ⟨_, ⟨_, opened _ rfl, HashJoin.run_delivers _ fromRight fromLeft⟩, .of_eq ?_⟩
    refine List.flatMap_congr fun l _ => ?_
    rw [matches_right areKeys, pair_keyPairs terms]
  | true =>
    refine ⟨_, ⟨_, opened _ rfl, HashJoin.run_delivers _ fromLeft fromRight⟩, ?_⟩
    refine List.Perm.trans (.of_eq ?_) (flatMap_swap lrows rrows (pair bound left.schema.length))
    refine List.flatMap_congr fun r _ => ?_
    rw [matches_left areKeys, pair_keyPairs terms]

private theorem walked_serves {table : Table} {col : Nat} (indexed : table.indexed col = true) :
    (table.index col).Serves table.rows col := by
  intro key
  refine ((table.walked col indexed).found key key).trans (.of_eq ?_)
  refine List.filter_congr fun row _ => ?_
  have between : (decide (key ≤ orderKey (Row.at row col)) &&
      decide (orderKey (Row.at row col) ≤ key)) = decide (orderKey (Row.at row col) = key) := by
    rw [Bool.eq_iff_iff, Bool.and_eq_true, decide_eq_true_iff, decide_eq_true_iff,
      decide_eq_true_iff]
    constructor
    · rintro ⟨above, below⟩
      exact UInt64.le_antisymm below above
    · rintro rfl
      exact ⟨UInt64.le_refl _, UInt64.le_refl _⟩
  rw [IndexWalk.between, Bool.and_assoc, between]

/-- The rows of a table that pass a filter. -/
def filtered (table : Table) (filter : List BoundComparison) : List Row :=
  table.rows.filter fun row => filter.all (eval · row)

/-- Searching the next table's index for each row so far. -/
theorem Plan.indexRight_delivers {table : Table} {ref : TableRef} {number : Nat} {key : Nat × Nat}
    (fromLeft : left.Delivers lrows) (lfit : ∀ row ∈ lrows, TypedRow left.schema row)
    (terms : JoinTerms left.schema (tableSchema table.schema ref) bound)
    (found : (keyPairs left.schema.length bound)[number]? = some key)
    (indexed : table.indexed key.2 = true) (filter : List BoundComparison) :
    ∃ rows, (indexNestedLoopJoin left table (tableSchema table.schema ref) key.1 key.2 filter
        (residualWithout left.schema.length bound number) false).Delivers rows ∧
      rows.Perm (pairRows bound left.schema.length lrows (filtered table filter)) := by
  obtain ⟨lpath, lopened, fromLeft⟩ := fromLeft
  obtain ⟨before, b, after, rfl, isKey, rfl, residual⟩ := key_term found
  have isKeyOf := keyPairs_keyOf terms _ (List.mem_of_getElem? found)
  have delivers := @IndexNestedLoopJoin.run_delivers (indexJoin left.schema
    (tableSchema table.schema ref) (keyPair left.schema.length b) [] filter (before ++ after)
    false) (table.index (keyPair left.schema.length b).2) _ _ fromLeft
  refine ⟨_, ⟨_, ?_, delivers⟩, ?_⟩
  · rw [openRows, lopened, residual]
    rfl
  · rw [← delivers.rows_eq]
    have joined := @index_right _ _ (before ++ after) _ [] filter isKeyOf _ _ lfit
      (table.typed ref) _ (walked_serves indexed) _ fromLeft
    rwa [pair_key terms isKey] at joined

/-- Searching the first table's index for each row of the next one. -/
theorem Plan.indexLeft_delivers {table : Table} {ref : TableRef} {number : Nat} {key : Nat × Nat}
    (fromRight : right.Delivers rrows) (rfit : ∀ row ∈ rrows, TypedRow right.schema row)
    (terms : JoinTerms (tableSchema table.schema ref) right.schema bound)
    (found : (keyPairs (tableSchema table.schema ref).length bound)[number]? = some key)
    (indexed : table.indexed key.1 = true) (filter : List BoundComparison) :
    ∃ rows, (indexNestedLoopJoin right table (tableSchema table.schema ref) key.2 key.1 filter
        (residualWithout (tableSchema table.schema ref).length bound number) true).Delivers rows ∧
      rows.Perm (pairRows bound (tableSchema table.schema ref).length (filtered table filter)
        rrows) := by
  obtain ⟨rpath, ropened, fromRight⟩ := fromRight
  obtain ⟨before, b, after, rfl, isKey, rfl, residual⟩ := key_term found
  have isKeyOf := keyPairs_keyOf terms _ (List.mem_of_getElem? found)
  have delivers := @IndexNestedLoopJoin.run_delivers (indexJoin (tableSchema table.schema ref)
    right.schema (keyPair (tableSchema table.schema ref).length b) [] filter (before ++ after)
    true) (table.index (keyPair (tableSchema table.schema ref).length b).1) _ _ fromRight
  refine ⟨_, ⟨_, ?_, delivers⟩, ?_⟩
  · rw [openRows, ropened, residual]
    rfl
  · rw [← delivers.rows_eq]
    have joined := @index_left _ _ (before ++ after) _ [] filter isKeyOf _ _ (table.typed ref)
      rfit _ (walked_serves indexed) _ fromRight
    rw [pair_key terms isKey] at joined
    exact joined.trans (flatMap_swap _ rrows _)

end Operators

section Options

variable {options : List JoinOption} {option : JoinOption} {keys : List (Nat × Nat)}
  {indexedRight indexedFirst : Nat → Bool} {i : Nat}

private theorem pickOption_mem {algorithm : JoinAlgorithm} {cheapest : List JoinOption → Nat}
    (picked : pickOption algorithm cheapest options = some option) : option ∈ options := by
  have first : ∀ want, firstOf options want = some option → option ∈ options := by
    intro want found
    obtain ⟨algo, -, isAlgo⟩ := List.exists_of_findSome?_eq_some found
    exact List.mem_of_find?_eq_some isAlgo
  cases algorithm with
  | kAuto => exact List.mem_of_getElem? picked
  | kNestedLoop => exact first _ picked
  | kHash => exact first _ picked
  | kHashLeft => exact first _ picked
  | kIndexNestedLoop => exact first _ picked

/-- An index join is an option where the key's column has an index. -/
theorem joinOptions_index (member : option ∈ joinOptions keys indexedRight indexedFirst i) :
    (option.algo = .kIndexRight → ∃ key, keys[option.key]? = some key ∧
      indexedRight key.2 = true) ∧
    (option.algo = .kIndexLeft → i = 1 ∧ ∃ key, keys[option.key]? = some key ∧
      indexedFirst key.1 = true) := by
  unfold joinOptions at member
  rcases List.mem_append.mp member with member | member
  · have plain : option.algo ≠ .kIndexRight ∧ option.algo ≠ .kIndexLeft := by
      rcases List.mem_append.mp member with member | member
      · rw [List.mem_singleton.mp member]
        exact ⟨nofun, nofun⟩
      · split at member
        · cases member
        · rcases List.mem_pair.mp member with rfl | rfl
          · exact ⟨nofun, nofun⟩
          · exact ⟨nofun, nofun⟩
    exact ⟨fun is => absurd is plain.1, fun is => absurd is plain.2⟩
  · obtain ⟨⟨key, number⟩, numbered, member⟩ := List.mem_flatMap.mp member
    have at_ : keys[number]? = some key := List.mem_zipIdx_iff_getElem?.mp numbered
    rcases List.mem_append.mp member with member | member
    · split at member
      · rename_i indexed
        rw [List.mem_singleton.mp member]
        exact ⟨fun _ => ⟨key, at_, indexed⟩, nofun⟩
      · cases member
    · split at member
      · rename_i indexed
        rw [List.mem_singleton.mp member]
        exact ⟨nofun, fun _ => ⟨indexed.1, key, at_, indexed.2⟩⟩
      · cases member

end Options

section PlanJoin

variable {toChars : Double → Text}

/-- A planned input hands out the rows of its table that satisfy the table's terms. -/
structure Input.Serves (toChars : Double → Text) (input : Input)
    (bound : List BoundComparison) : Prop where
  schema : input.access.op.schema = input.from_.schema
  terms : input.tableTerms toChars = .ok bound
  rows : ∃ rows, input.access.op.Delivers rows ∧ rows.Perm (filtered input.from_.table bound)

variable {first input : Input} {firstBound inputBound bound : List BoundComparison}
  {root joined : Plan} {lrows : List Row} {here : List Comparison} {i : Nat}

theorem buildJoin_delivers {option : JoinOption} (firstServes : first.Serves toChars firstBound)
    (inputServes : input.Serves toChars inputBound)
    (fromRoot : ∃ rows, root.Delivers rows ∧ rows.Perm lrows)
    (lfit : ∀ row ∈ lrows, TypedRow root.schema row)
    (atFirst : i = 1 → root.schema = first.from_.schema ∧
      lrows = filtered first.from_.table firstBound)
    (terms : JoinTerms root.schema input.from_.schema bound)
    (member : option ∈ joinOptions (keyPairs root.schema.length bound)
      input.from_.table.indexed first.from_.table.indexed i)
    (built : buildJoin toChars first root input bound option = .ok joined) :
    joined.schema = concat root.schema input.from_.schema ∧
      ∃ rows, joined.Delivers rows ∧ rows.Perm
        (pairRows bound root.schema.length lrows (filtered input.from_.table inputBound)) := by
  obtain ⟨lrows', fromRoot, lperm⟩ := fromRoot
  obtain ⟨rrows', fromInput, rperm⟩ := inputServes.rows
  obtain ⟨isRight, isLeft⟩ := joinOptions_index member
  unfold buildJoin at built
  dsimp only at built
  cases algo : option.algo with
  | kNestedLoop =>
    rw [algo] at built
    cases built
    refine ⟨congrArg _ inputServes.schema, _, Plan.nestedLoopJoin_delivers fromRoot fromInput, ?_⟩
    exact pairRows_perm lperm rperm
  | kHashRight =>
    rw [algo] at built
    cases built
    obtain ⟨rows, delivers, perm⟩ := Plan.hashJoin_delivers fromRoot fromInput terms false
    exact ⟨congrArg _ inputServes.schema, rows, delivers, perm.trans (pairRows_perm lperm rperm)⟩
  | kHashLeft =>
    rw [algo] at built
    cases built
    obtain ⟨rows, delivers, perm⟩ := Plan.hashJoin_delivers fromRoot fromInput terms true
    exact ⟨congrArg _ inputServes.schema, rows, delivers, perm.trans (pairRows_perm lperm rperm)⟩
  | kIndexRight =>
    obtain ⟨key, found, indexed⟩ := isRight algo
    rw [algo] at built
    dsimp only at built
    rw [inputServes.terms, List.getD_eq_getElem?_getD, found] at built
    cases built
    obtain ⟨rows, delivers, perm⟩ := Plan.indexRight_delivers fromRoot
      (fun row here => lfit row (lperm.mem_iff.mp here)) terms found indexed inputBound
    exact ⟨rfl, rows, delivers, perm.trans (pairRows_perm lperm (.refl _))⟩
  | kIndexLeft =>
    obtain ⟨one, key, found, indexed⟩ := isLeft algo
    obtain ⟨schema, rfl⟩ := atFirst one
    rw [algo] at built
    dsimp only at built
    rw [firstServes.terms, List.getD_eq_getElem?_getD, found] at built
    cases built
    rw [schema, ← inputServes.schema] at terms
    rw [schema] at found ⊢
    have rfit : ∀ row ∈ rrows', TypedRow input.access.op.schema row := by
      rw [inputServes.schema]
      intro row here
      exact input.from_.table.typed _ row (List.mem_filter.mp (rperm.mem_iff.mp here)).1
    obtain ⟨rows, delivers, perm⟩ :=
      Plan.indexLeft_delivers fromInput rfit terms found indexed firstBound
    refine ⟨congrArg _ inputServes.schema, rows, delivers, ?_⟩
    exact perm.trans (pairRows_perm (.refl _) rperm)

/-- The join of a table, its terms bound against both sides. -/
theorem planJoin_delivers {algorithm : JoinAlgorithm} {cheapest : Nat → List JoinOption → Nat}
    (firstServes : first.Serves toChars firstBound) (inputServes : input.Serves toChars inputBound)
    (fromRoot : ∃ rows, root.Delivers rows ∧ rows.Perm lrows)
    (lfit : ∀ row ∈ lrows, TypedRow root.schema row)
    (atFirst : i = 1 → root.schema = first.from_.schema ∧
      lrows = filtered first.from_.table firstBound)
    (bound_eq : here.mapM (bind toChars (concat root.schema input.from_.schema)) = .ok bound)
    (noDouble : ∀ position, typeAt (root.schema ++ input.from_.schema) position ≠ .kDouble)
    (planned : planJoin toChars algorithm cheapest first i root input here = .ok joined) :
    joined.schema = concat root.schema input.from_.schema ∧
      ∃ rows, joined.Delivers rows ∧ rows.Perm
        (pairRows bound root.schema.length lrows (filtered input.from_.table inputBound)) := by
  have terms : JoinTerms root.schema input.from_.schema bound := by
    refine ⟨fun b member => ?_, noDouble⟩
    obtain ⟨c, -, isBound⟩ := mem_mapM bound_eq member
    exact bind_columns isBound
  unfold planJoin at planned
  rw [bound_eq] at planned
  obtain ⟨_, same, planned⟩ := ok_of_bind planned
  cases same
  dsimp only at planned
  split at planned
  · cases planned
  · rename_i option picked
    exact buildJoin_delivers firstServes inputServes fromRoot lfit atFirst terms
      (pickOption_mem picked) planned

end PlanJoin

end Labdb.Query
