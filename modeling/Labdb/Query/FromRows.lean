import Labdb.Query.JoinPlan

/-! The rows of a join tree: the cross product of the tables, restricted to the rows that
satisfy every comparison of the query. -/

namespace Labdb.Query

open Labdb.Sql

/-- The rows of the tables side by side, in every combination. -/
def crossRows : List FromTable → List Row
  | [] => [[]]
  | from_ :: rest => from_.table.rows.flatMap fun l => (crossRows rest).map (joinRows l)

/-- The comparisons that are checked at the join of table `i`: the first with all of their
tables. -/
def joinTerms (tables : List FromTable) (terms : List Term) (i : Nat) : List Term :=
  (crossTerms tables terms).filter fun term =>
    term.tables tables ⊆ Finset.range (i + 1) ∧ ¬ term.tables tables ⊆ Finset.range i

section Terms

variable {toChars : Double → Text} {tables : List FromTable} {term : Term} {i : Nat}

/-- A term was bound in the scope of some of the first tables. -/
def Term.Scoped (toChars : Double → Text) (tables : List FromTable) (term : Term) : Prop :=
  ∃ count, bind toChars (scope tables count) term.c = .ok term.bound

private theorem mem_tables : i ∈ term.tables tables ↔
    ∃ position, term.bound.Reads position ∧ owner tables position = i := by
  unfold Term.tables BoundComparison.Reads
  cases term.bound.rightIsColumn with
  | false => simp [eq_comm]
  | true =>
    rw [if_pos rfl, Finset.mem_insert, Finset.mem_singleton]
    constructor
    · rintro (rfl | rfl)
      · exact ⟨_, .inl rfl, rfl⟩
      · exact ⟨_, .inr ⟨rfl, rfl⟩, rfl⟩
    · rintro ⟨position, rfl | ⟨-, rfl⟩, rfl⟩
      · exact .inl rfl
      · exact .inr rfl

private theorem tables_nonempty : (term.tables tables).Nonempty :=
  ⟨_, mem_tables.mpr ⟨_, .inl rfl, rfl⟩⟩

theorem Term.Scoped.owned (inScope : term.Scoped toChars tables) {position : Nat}
    (reads : term.bound.Reads position) :
    ∃ table, tables[owner tables position]? = some table ∧
      Within (scope tables (owner tables position)) table.schema position := by
  obtain ⟨count, bound⟩ := inScope
  exact (owner_spec ((bind_columns bound).inside position reads)).2

/-- The first tables have all the columns of a term when they are the only ones it names. -/
theorem Term.Scoped.subset_range (inScope : term.Scoped toChars tables) :
    term.tables tables ⊆ Finset.range i ↔
      ∀ position, term.bound.Reads position → position < (scope tables i).length := by
  constructor
  · intro subset position reads
    obtain ⟨table, at_, within⟩ := inScope.owned reads
    have le := Finset.mem_range.mp (subset (mem_tables.mpr ⟨position, reads, rfl⟩))
    have inside := within.2
    rw [← List.length_append, ← scope_succ at_] at inside
    exact Nat.lt_of_lt_of_le inside (scope_length_le le)
  · intro inside other member
    obtain ⟨position, reads, rfl⟩ := mem_tables.mp member
    exact Finset.mem_range.mpr (owner_spec (inside position reads)).1

theorem Term.Scoped.subset_all (inScope : term.Scoped toChars tables) :
    term.tables tables ⊆ Finset.range tables.length := by
  intro other member
  obtain ⟨position, reads, rfl⟩ := mem_tables.mp member
  obtain ⟨table, at_, -⟩ := inScope.owned reads
  exact Finset.mem_range.mpr (List.getElem?_eq_some_iff.mp at_).1

/-- The scope in which a term was written has the tables that it names. -/
theorem Term.Scoped.seen (inScope : term.Scoped toChars tables) (member : i ∈ term.tables tables) :
    ∃ count, i < count ∧ bind toChars (scope tables count) term.c = .ok term.bound := by
  obtain ⟨count, bound⟩ := inScope
  obtain ⟨position, reads, rfl⟩ := mem_tables.mp member
  exact ⟨count, (owner_spec ((bind_columns bound).inside position reads)).1, bound⟩

/-- A term of one table, bound against that table. -/
theorem bind_local (inScope : term.Scoped toChars tables) (only : term.tables tables = {i})
    {table : FromTable} (at_ : tables[i]? = some table) :
    bind toChars table.schema term.c = .ok (term.bound.unshift (scope tables i).length) ∧
      (term.bound.unshift (scope tables i).length).shift (scope tables i).length = term.bound := by
  have within : ∀ position, term.bound.Reads position →
      Within (scope tables i) table.schema position := by
    intro position reads
    obtain ⟨table', at', within⟩ := inScope.owned reads
    have same : owner tables position = i := Finset.mem_singleton.mp
      (only ▸ mem_tables.mpr ⟨position, reads, rfl⟩)
    rw [same] at at' within
    cases Option.some.inj (at_.symm.trans at')
    exact within
  obtain ⟨count, seen, bound⟩ := inScope.seen (only ▸ Finset.mem_singleton_self i)
  obtain ⟨after, split⟩ := scope_split at_ seen
  rw [split] at bound
  exact ⟨bind_within bound within, shift_unshift fun position reads => (within position reads).1⟩

private theorem unshift_zero (b : BoundComparison) : b.unshift 0 = b := by
  obtain ⟨left, op, asText, asDouble, rightIsColumn, right, literal⟩ := b
  cases rightIsColumn <;> rfl

/-- A term bound at the join that is the first to have all of its tables. -/
theorem bind_join (inScope : term.Scoped toChars tables)
    (have_ : term.tables tables ⊆ Finset.range (i + 1))
    (before : ¬ term.tables tables ⊆ Finset.range i) :
    bind toChars (scope tables (i + 1)) term.c = .ok term.bound := by
  have member : i ∈ term.tables tables := by
    obtain ⟨other, member, notBefore⟩ := Finset.not_subset.mp before
    have le := Finset.mem_range.mp (have_ member)
    rw [Finset.mem_range] at notBefore
    exact (by omega : other = i) ▸ member
  obtain ⟨count, seen, bound⟩ := inScope.seen member
  obtain ⟨more, rfl⟩ := Nat.exists_eq_add_of_le seen
  have split : scope tables (i.succ + more) = [] ++ scope tables (i + 1) ++
      ((tables.drop (i + 1)).take more).flatMap FromTable.schema := by
    rw [scope, List.take_add, List.flatMap_append]
    rfl
  rw [split] at bound
  have bound' := bind_within bound fun position reads =>
    ⟨Nat.zero_le _, by simpa using inScope.subset_range.mp have_ position reads⟩
  rwa [List.length_nil, unshift_zero] at bound'

end Terms

section Bound

variable {toChars : Double → Text} {tables : List FromTable} {terms : List Term} {i : Nat}

theorem mapM_ok {α β γ ε : Type} {f : β → Except ε γ} {g : α → β} {h : α → γ} {items : List α}
    (each : ∀ item ∈ items, f (g item) = .ok (h item)) :
    (items.map g).mapM f = .ok (items.map h) := by
  induction items with
  | nil => rfl
  | cons item items ih =>
    rw [List.map_cons, List.mapM_cons, each item List.mem_cons_self,
      ih fun other member => each other (List.mem_cons_of_mem _ member)]
    rfl

/-- A table's own terms, counted from its first column. -/
def localBound (tables : List FromTable) (terms : List Term) (i : Nat) : List BoundComparison :=
  (terms.filter fun term => term.tables tables = {i}).map fun term =>
    term.bound.unshift (scope tables i).length

theorem bind_localTerms (inScope : ∀ term ∈ terms, term.Scoped toChars tables)
    {table : FromTable} (at_ : tables[i]? = some table) :
    (localTerms tables terms i).mapM (bind toChars table.schema) =
      .ok (localBound tables terms i) := by
  refine mapM_ok fun term member => ?_
  obtain ⟨member, only⟩ := List.mem_filter.mp member
  exact (bind_local (inScope term member) (of_decide_eq_true only) at_).1

theorem bind_joinTerms (inScope : ∀ term ∈ terms, term.Scoped toChars tables) :
    ((joinTerms tables terms i).map Term.c).mapM (bind toChars (scope tables (i + 1))) =
      .ok ((joinTerms tables terms i).map Term.bound) := by
  refine mapM_ok fun term member => ?_
  obtain ⟨member, checkable⟩ := List.mem_filter.mp member
  obtain ⟨have_, before⟩ := of_decide_eq_true checkable
  exact bind_join (inScope term (List.mem_filter.mp member).1) have_ before

/-- The comparisons that name the first tables only. -/
def keeps (tables : List FromTable) (terms : List Term) (i : Nat) (row : Row) : Bool :=
  (terms.filter fun term => term.tables tables ⊆ Finset.range i).all (eval ·.bound row)

private theorem keeps_iff {row : Row} : keeps tables terms i row = true ↔
    ∀ term ∈ terms, term.tables tables ⊆ Finset.range i → eval term.bound row = true := by
  simp only [keeps, List.all_eq_true, List.mem_filter, decide_eq_true_eq, and_imp]

/-- What a row of the first tables has to satisfy, and one of the next table, and the pair. -/
theorem keeps_succ (inScope : ∀ term ∈ terms, term.Scoped toChars tables)
    {table : FromTable} (at_ : tables[i]? = some table) {l r : Row}
    (length : l.length = (scope tables i).length) :
    keeps tables terms (i + 1) (joinRows l r) =
      (keeps tables terms i l && (localBound tables terms i).all (eval · r) &&
        ((joinTerms tables terms i).map Term.bound).all (evalPair · l r l.length)) := by
  have earlier : ∀ term ∈ terms, term.tables tables ⊆ Finset.range i →
      eval term.bound (joinRows l r) = eval term.bound l := by
    intro term member subset
    refine eval_append fun position reads => ?_
    rw [length]
    exact (inScope term member).subset_range.mp subset position reads
  have own : ∀ term ∈ terms, term.tables tables = {i} →
      eval (term.bound.unshift (scope tables i).length) r = eval term.bound (joinRows l r) := by
    intro term member only
    have shifted := (bind_local (inScope term member) only at_).2
    conv_rhs => rw [← shifted, ← length]
    rw [length]
    exact (length ▸ eval_shift).symm
  rw [Bool.eq_iff_iff, Bool.and_eq_true, Bool.and_eq_true, keeps_iff, keeps_iff, localBound,
    joinTerms, crossTerms]
  simp only [List.all_map, List.all_eq_true, List.mem_filter, decide_eq_true_eq, and_imp,
    Function.comp_apply, ← eval_joinRows]
  constructor
  · intro all
    refine ⟨⟨?_, ?_⟩, ?_⟩
    · intro term member subset
      rw [← earlier term member subset]
      exact all term member (subset.trans (Finset.range_subset_range.mpr (Nat.le_succ i)))
    · intro term member only
      rw [own term member only]
      refine all term member ?_
      rw [only, Finset.singleton_subset_iff]
      exact Finset.self_mem_range_succ i
    · intro term member _ have_ _
      exact all term member have_
  · rintro ⟨⟨before, owned⟩, joins⟩ term member have_
    by_cases subset : term.tables tables ⊆ Finset.range i
    · rw [earlier term member subset]
      exact before term member subset
    · by_cases one : (term.tables tables).card = 1
      · obtain ⟨other, only⟩ := Finset.card_eq_one.mp one
        rw [only, Finset.singleton_subset_iff, Finset.mem_range] at have_ subset
        obtain rfl : other = i := by omega
        rw [← own term member only]
        exact owned term member only
      · exact joins term member one have_ subset

end Bound

section Cross

variable {tables : List FromTable}

private theorem crossRows_append (from_ : FromTable) : crossRows (tables ++ [from_]) =
    (crossRows tables).flatMap fun l => from_.table.rows.map (joinRows l) := by
  induction tables with
  | nil =>
    simp only [crossRows, List.nil_append, List.flatMap_singleton, List.map_singleton, joinRows,
      List.append_nil, List.flatMap_singleton']
    exact (List.map_id _).symm
  | cons first rest ih =>
    rw [List.cons_append, crossRows, ih, crossRows, List.flatMap_assoc]
    refine List.flatMap_congr fun l _ => ?_
    rw [List.map_flatMap, List.flatMap_map]
    refine List.flatMap_congr fun l' _ => ?_
    rw [List.map_map]
    refine List.map_congr_left fun r _ => ?_
    exact (List.append_assoc l l' r).symm

private theorem typedRow_append {left right : OutSchema} {l r : Row} (lfit : TypedRow left l)
    (rfit : TypedRow right r) : TypedRow (left ++ right) (joinRows l r) := by
  refine ⟨?_, fun position inside => ?_⟩
  · rw [joinRows, List.length_append, List.length_append, lfit.length, rfit.length]
  · rw [List.length_append] at inside
    by_cases here : position < left.length
    · rw [joinRows, at_append_left (by rw [lfit.length]; exact here), typeAt_append_left here]
      exact lfit.typed position here
    · rw [joinRows, at_append_right (by rw [lfit.length]; exact here), lfit.length,
        typeAt_append_right (Nat.le_of_not_lt here)]
      exact rfit.typed _ (by omega)

theorem crossRows_typed : ∀ row ∈ crossRows tables,
    TypedRow (tables.flatMap FromTable.schema) row := by
  induction tables with
  | nil =>
    intro row member
    rw [List.mem_singleton.mp member]
    exact ⟨rfl, nofun⟩
  | cons first rest ih =>
    intro row member
    obtain ⟨l, lIn, member⟩ := List.mem_flatMap.mp member
    obtain ⟨r, rIn, rfl⟩ := List.mem_map.mp member
    exact typedRow_append (first.table.typed _ l lIn) (ih r rIn)

theorem scope_noDouble (count position : Nat) : typeAt (scope tables count) position ≠ .kDouble := by
  unfold typeAt
  split
  · rename_i column found
    obtain ⟨from_, -, member⟩ := List.mem_flatMap.mp (List.mem_of_getElem? found)
    obtain ⟨column', declared, rfl⟩ := List.mem_map.mp member
    exact from_.table.noDouble column' declared
  · simp

/-- The pairs of rows that pass their own tests and the conditions of the join. -/
theorem pairRows_eq {on : List BoundComparison} {nleft : Nat} {lrows rrows : List Row}
    {ltest rtest test : Row → Bool} (same : ∀ l ∈ lrows, ∀ r ∈ rrows,
      test (joinRows l r) = (ltest l && rtest r && on.all (evalPair · l r nleft))) :
    pairRows on nleft (lrows.filter ltest) (rrows.filter rtest) =
      (lrows.flatMap fun l => rrows.map (joinRows l)).filter test := by
  rw [pairRows, List.filter_flatMap]
  induction lrows with
  | nil => rfl
  | cons l lrows ih =>
    have rest := ih fun l' member => same l' (List.mem_cons_of_mem l member)
    have here : ∀ r ∈ rrows, test (joinRows l r) =
        (ltest l && rtest r && on.all (evalPair · l r nleft)) := same l List.mem_cons_self
    have row : (rrows.map (joinRows l)).filter test =
        if ltest l then (rrows.filter rtest).filterMap (pair on nleft l) else [] := by
      rw [List.filterMap_filter, List.filter_map, ← List.filterMap_eq_map, List.filterMap_filter]
      split
      · rename_i passes
        refine List.filterMap_congr fun r member => ?_
        rw [Function.comp_apply, Function.comp_apply, here r member, passes, Bool.true_and, pair]
        cases rtest r with
        | true => rfl
        | false => rfl
      · rename_i fails
        refine List.filterMap_eq_nil_iff.mpr fun r member => ?_
        rw [Function.comp_apply, here r member, Bool.eq_false_of_not_eq_true fails]
        rfl
    rw [List.flatMap_cons, ← rest, row, List.filter_cons]
    split
    · rw [List.flatMap_cons]
    · rw [List.nil_append]

end Cross

section Joins

variable {toChars : Double → Text} {tables : List FromTable} {terms : List Term}

/-- The terms that no join so far could check. -/
def waitingTerms (tables : List FromTable) (terms : List Term) (i : Nat) : List Term :=
  (crossTerms tables terms).filter fun term => ¬ term.tables tables ⊆ Finset.range i

private theorem not_subset_one {term : Term} (member : term ∈ crossTerms tables terms) :
    ¬ term.tables tables ⊆ Finset.range 1 := by
  intro subset
  have many := of_decide_eq_true (List.mem_filter.mp member).2
  rw [Finset.range_one, Finset.subset_singleton_iff] at subset
  rcases subset with none_ | one
  · exact tables_nonempty.ne_empty none_
  · exact many (by rw [one, Finset.card_singleton])

theorem waitingTerms_one : waitingTerms tables terms 1 = crossTerms tables terms :=
  List.filter_eq_self.mpr fun _ member => decide_eq_true (not_subset_one member)

theorem joinTerms_eq (i : Nat) : (waitingTerms tables terms i).filter
    (fun term => decide (term.tables tables ⊆ Finset.range (i + 1))) = joinTerms tables terms i := by
  rw [waitingTerms, joinTerms, List.filter_filter]
  exact List.filter_congr fun term _ => (Bool.decide_and _ _).symm

theorem waitingTerms_succ (i : Nat) : (waitingTerms tables terms i).filter
    (fun term => !decide (term.tables tables ⊆ Finset.range (i + 1))) =
      waitingTerms tables terms (i + 1) := by
  rw [waitingTerms, waitingTerms, List.filter_filter]
  refine List.filter_congr fun term _ => ?_
  rw [← decide_not, ← Bool.decide_and]
  refine decide_eq_decide.mpr (and_iff_left_of_imp fun not subset => not ?_)
  exact subset.trans (Finset.range_subset_range.mpr (Nat.le_succ i))

/-- The rows of the first table that satisfy its terms. -/
theorem first_rows (inScope : ∀ term ∈ terms, term.Scoped toChars tables) {first : FromTable}
    (at_ : tables[0]? = some first) :
    (crossRows (tables.take 1)).filter (keeps tables terms 1) =
      filtered first.table (localBound tables terms 0) := by
  have one : tables.take 1 = [first] := by rw [List.take_one, List.head?_eq_getElem?, at_]; rfl
  have rows : crossRows [first] = first.table.rows := by simp [crossRows, joinRows]
  rw [one, rows, filtered]
  refine List.filter_congr fun row _ => ?_
  have split := @keeps_succ toChars tables terms 0 inScope first at_ [] row rfl
  have none_ : keeps tables terms 0 [] = true := by
    refine keeps_iff.mpr fun term _ subset => ?_
    exact absurd (Finset.subset_empty.mp subset) tables_nonempty.ne_empty
  have joins : joinTerms tables terms 0 = [] := List.filter_eq_nil_iff.mpr fun _ member here =>
    not_subset_one member (of_decide_eq_true here).1
  rw [none_, joins, Bool.true_and, List.map_nil, List.all_nil, Bool.and_true] at split
  exact split

/-- The input of table `i`. -/
def Input.At (toChars : Double → Text) (tables : List FromTable) (terms : List Term) (i : Nat)
    (input : Input) : Prop :=
  tables[i]? = some input.from_ ∧ input.Serves toChars (localBound tables terms i)

/-- A plan of the first tables hands out their rows side by side, those that satisfy the
comparisons that name no other table. -/
structure Joined (tables : List FromTable) (terms : List Term) (i : Nat) (root : Plan) : Prop where
  schema : root.schema = scope tables i
  rows : ∃ rows, root.Delivers rows ∧
    rows.Perm ((crossRows (tables.take i)).filter (keeps tables terms i))

variable {algorithm : JoinAlgorithm} {cheapest : Nat → List JoinOption → Nat} {first input : Input}
  {root joined : Plan} {i : Nat}

/-- One join. -/
theorem planJoin_joined (inScope : ∀ term ∈ terms, term.Scoped toChars tables)
    (firstServes : first.At toChars tables terms 0) (inputServes : input.At toChars tables terms i)
    (isJoined : Joined tables terms i root)
    (planned : planJoin toChars algorithm cheapest first i root input
      ((joinTerms tables terms i).map Term.c) = .ok joined) :
    Joined tables terms (i + 1) joined := by
  obtain ⟨firstAt, firstServes⟩ := firstServes
  obtain ⟨at_, inputServes⟩ := inputServes
  obtain ⟨schema, rows⟩ := isJoined
  have typed : ∀ row ∈ (crossRows (tables.take i)).filter (keeps tables terms i),
      TypedRow root.schema row := fun row member =>
    schema ▸ crossRows_typed row (List.mem_filter.mp member).1
  have bound : ((joinTerms tables terms i).map Term.c).mapM
      (bind toChars (concat root.schema input.from_.schema)) =
        .ok ((joinTerms tables terms i).map Term.bound) := by
    rw [schema, concat, ← scope_succ at_]
    exact bind_joinTerms inScope
  have noDouble : ∀ position, typeAt (root.schema ++ input.from_.schema) position ≠ .kDouble := by
    rw [schema, ← scope_succ at_]
    exact scope_noDouble (i + 1)
  have atFirst : i = 1 → root.schema = first.from_.schema ∧
      (crossRows (tables.take i)).filter (keeps tables terms i) =
        filtered first.from_.table (localBound tables terms 0) := by
    rintro rfl
    refine ⟨?_, first_rows inScope firstAt⟩
    rw [schema, scope_succ firstAt]
    rfl
  obtain ⟨schema', rows', delivers, perm⟩ :=
    planJoin_delivers firstServes inputServes rows typed atFirst bound noDouble planned
  refine ⟨?_, rows', delivers, perm.trans (.of_eq ?_)⟩
  · rw [schema', schema, scope_succ at_]
    rfl
  · have more : tables.take (i + 1) = tables.take i ++ [input.from_] := by
      rw [List.take_add_one, at_]
      rfl
    rw [more, crossRows_append, schema]
    refine pairRows_eq fun l lIn r _ => ?_
    have length := (crossRows_typed l lIn).length
    rw [keeps_succ inScope at_ length, length]
    rfl

/-- All the joins. -/
theorem planJoins_joined {inputs : List Input}
    (inScope : ∀ term ∈ terms, term.Scoped toChars tables)
    (firstServes : first.At toChars tables terms 0)
    (serve : ∀ k (input : Input), inputs[k]? = some input → input.At toChars tables terms (i + k))
    (isJoined : Joined tables terms i root)
    (planned : planJoins toChars algorithm cheapest tables first inputs i root
      (waitingTerms tables terms i) = .ok joined) :
    Joined tables terms (i + inputs.length) joined := by
  induction inputs generalizing i root with
  | nil =>
    cases planned
    exact isJoined
  | cons input rest ih =>
    unfold planJoins at planned
    dsimp only at planned
    rw [joinTerms_eq, waitingTerms_succ] at planned
    obtain ⟨next, here, planned⟩ := ok_of_bind planned
    have later : ∀ k (other : Input), rest[k]? = some other →
        other.At toChars tables terms (i + 1 + k) := by
      intro k other found
      have served := serve (k + 1) other found
      rwa [Nat.add_comm k 1, ← Nat.add_assoc] at served
    have one := planJoin_joined inScope firstServes (serve 0 input rfl) isJoined here
    have all := ih later one planned
    rwa [List.length_cons, Nat.add_comm rest.length 1, ← Nat.add_assoc]

end Joins

section PlanFrom

variable {toChars : Double → Text} {tables : List FromTable} {terms : List Term}
  {find : Text → Option Table} {pick : Nat → List Candidate → Option Nat}
  {algorithm : JoinAlgorithm} {cheapest : Nat → List JoinOption → Nat} {s : SelectStmt}

/-- Each result is that of the item in its place. -/
theorem mapM_getElem? {α β ε : Type} {f : α → Except ε β} {items : List α} {results : List β}
    (ran : items.mapM f = .ok results) : results.length = items.length ∧
      ∀ (k : Nat) result, results[k]? = some result → ∃ item, items[k]? = some item ∧
        f item = .ok result := by
  induction items generalizing results with
  | nil =>
    cases ran
    exact ⟨rfl, nofun⟩
  | cons item items ih =>
    rw [List.mapM_cons] at ran
    obtain ⟨first, atFirst, ran⟩ := ok_of_bind ran
    obtain ⟨rest, atRest, ran⟩ := ok_of_bind ran
    cases ran
    obtain ⟨length, each⟩ := ih atRest
    refine ⟨congrArg (· + 1) length, fun k result found => ?_⟩
    cases k with
    | zero =>
      cases found
      exact ⟨item, rfl, atFirst⟩
    | succ k => exact each k result found

/-- The terms of a query, each bound in the scope that it was written in. -/
theorem scopedTerms_mem (made : scopedTerms toChars tables s = .ok terms) :
    ∀ term ∈ terms, term.Scoped toChars tables ∧ ∃ entry ∈ written s, entry.2 = term.c := by
  intro term member
  obtain ⟨⟨count, c⟩, written, made⟩ := mem_mapM made member
  obtain ⟨bound, isBound, made⟩ := ok_of_bind made
  cases made
  exact ⟨⟨count, isBound⟩, ⟨count, c⟩, written, rfl⟩

theorem planInput_at (inScope : ∀ term ∈ terms, term.Scoped toChars tables)
    (ops : ∀ term ∈ terms, term.c.op.IsOp = true) {from_ : FromTable} {i : Nat}
    (at_ : tables[i]? = some from_) {input : Input}
    (planned : planInput toChars pick tables terms from_ i = .ok input) :
    input.At toChars tables terms i := by
  obtain ⟨access, planAccess_ok, made⟩ := ok_of_bind planned
  cases made
  have isOps : ∀ c ∈ localTerms tables terms i, c.op.IsOp = true := by
    intro c isLocal
    obtain ⟨term, member, rfl⟩ := List.mem_map.mp isLocal
    exact ops term (List.mem_filter.mp member).1
  obtain ⟨schema, bound, rows, bound_eq, delivers, perm, -⟩ :=
    planAccess_delivers isOps planAccess_ok
  have same := bind_localTerms inScope at_
  cases bound_eq.symm.trans same
  exact ⟨at_, schema, bound_eq, rows, delivers, perm⟩

/-- Every term is checked: as its one table is read, or at a join that has all of its tables. -/
theorem term_placed (inScope : ∀ term ∈ terms, term.Scoped toChars tables) {term : Term}
    (member : term ∈ terms) :
    (∃ i from_, tables[i]? = some from_ ∧ term.c ∈ localTerms tables terms i ∧
      ∃ b, bind toChars from_.schema term.c = .ok b ∧
        b.shift (scope tables i).length = term.bound) ∨
    ∃ i, 1 ≤ i ∧ i < tables.length ∧ term ∈ joinTerms tables terms i ∧
      bind toChars (scope tables (i + 1)) term.c = .ok term.bound := by
  have subset := (inScope term member).subset_all
  by_cases one : (term.tables tables).card = 1
  · obtain ⟨i, only⟩ := Finset.card_eq_one.mp one
    rw [only, Finset.singleton_subset_iff, Finset.mem_range] at subset
    have at_ := List.getElem?_eq_getElem subset
    obtain ⟨bound, shifted⟩ := bind_local (inScope term member) only at_
    refine .inl ⟨i, _, at_, ?_, _, bound, shifted⟩
    exact List.mem_map_of_mem (List.mem_filter.mpr ⟨member, decide_eq_true only⟩)
  · let i := (term.tables tables).max' tables_nonempty
    have isMember := Finset.max'_mem (term.tables tables) tables_nonempty
    have cross : term ∈ crossTerms tables terms :=
      List.mem_filter.mpr ⟨member, decide_eq_true one⟩
    have have_ : term.tables tables ⊆ Finset.range (i + 1) := fun other here =>
      Finset.mem_range.mpr (Nat.lt_succ_of_le (Finset.le_max' _ other here))
    have before : ¬ term.tables tables ⊆ Finset.range i := fun subset =>
      Finset.notMem_range_self (subset isMember)
    have positive : 1 ≤ i := by
      refine Nat.one_le_iff_ne_zero.mpr fun zero => not_subset_one cross ?_
      rwa [zero] at have_
    refine .inr ⟨i, positive, Finset.mem_range.mp (subset isMember), ?_,
      bind_join (inScope term member) have_ before⟩
    exact List.mem_filter.mpr ⟨cross, decide_eq_true ⟨have_, before⟩⟩

/-- However the access paths and the join algorithms are picked, the plan for a query with
joins hands out the rows of the cross product of its tables that satisfy every comparison of
its ONs and its WHERE, each read in the scope it was written in; and each comparison means
the same columns where it is bound again to be checked. -/
theorem plan_from_keeps_rows {source : Source} (joins : s.joins ≠ [])
    (ops : ∀ entry ∈ written s, entry.2.op.IsOp = true)
    (planned : planSource toChars find pick algorithm cheapest s = .ok source) :
    ∃ first rest terms rows, openTables find s = .ok (first, rest) ∧
      scopedTerms toChars (first :: rest) s = .ok terms ∧
      source.root.schema = (first :: rest).flatMap FromTable.schema ∧
      source.root.Delivers rows ∧
      rows.Perm ((crossRows (first :: rest)).filter fun row => terms.all (eval ·.bound row)) ∧
      ∀ term ∈ terms,
        (∃ i from_, (first :: rest)[i]? = some from_ ∧
          term.c ∈ localTerms (first :: rest) terms i ∧
          ∃ b, bind toChars from_.schema term.c = .ok b ∧
            b.shift (scope (first :: rest) i).length = term.bound) ∨
        ∃ i, 1 ≤ i ∧ i < (first :: rest).length ∧ term ∈ joinTerms (first :: rest) terms i ∧
          bind toChars (scope (first :: rest) (i + 1)) term.c = .ok term.bound := by
  obtain ⟨⟨first, rest⟩, opened, planned⟩ := ok_of_bind planned
  dsimp only at planned
  unfold planFrom at planned
  rw [if_neg joins] at planned
  obtain ⟨terms, made, planned⟩ := ok_of_bind planned
  obtain ⟨input, firstPlanned, planned⟩ := ok_of_bind planned
  obtain ⟨inputs, inputsPlanned, planned⟩ := ok_of_bind planned
  obtain ⟨root, joinsPlanned, planned⟩ := ok_of_bind planned
  cases planned
  have inScope : ∀ term ∈ terms, term.Scoped toChars (first :: rest) := fun term member =>
    (scopedTerms_mem made term member).1
  have isOps : ∀ term ∈ terms, term.c.op.IsOp = true := by
    intro term member
    obtain ⟨entry, here, same⟩ := (scopedTerms_mem made term member).2
    exact same ▸ ops entry here
  have firstAt := planInput_at inScope isOps rfl firstPlanned
  obtain ⟨length, each⟩ := mapM_getElem? inputsPlanned
  rw [List.length_zipIdx] at length
  have serve : ∀ k (input : Input), inputs[k]? = some input →
      input.At toChars (first :: rest) terms (1 + k) := by
    intro k input found
    obtain ⟨⟨from_, i⟩, at_, planned⟩ := each k input found
    rw [List.getElem?_zipIdx, Option.map_eq_some_iff] at at_
    obtain ⟨from', at_, same⟩ := at_
    cases same
    refine planInput_at inScope isOps ?_ planned
    rwa [Nat.add_comm, List.getElem?_cons_succ]
  have start : Joined (first :: rest) terms 1 input.access.op := by
    obtain ⟨at_, serves⟩ := firstAt
    cases at_
    refine ⟨serves.schema.trans ?_, ?_⟩
    · simp [scope]
    · rw [first_rows inScope rfl]
      exact serves.rows
  rw [← waitingTerms_one] at joinsPlanned
  obtain ⟨schema, rows, delivers, perm⟩ := planJoins_joined inScope firstAt serve start joinsPlanned
  have all : 1 + inputs.length = (first :: rest).length := by
    rw [length, List.length_cons, Nat.add_comm]
  rw [all, scope, List.take_length] at schema
  rw [all, List.take_length] at perm
  refine ⟨first, rest, terms, rows, opened, made, schema, delivers, perm.trans (.of_eq ?_),
    fun term member => term_placed inScope member⟩
  refine List.filter_congr fun row _ => ?_
  have every : (terms.filter fun term => term.tables (first :: rest) ⊆
      Finset.range (first :: rest).length) = terms :=
    List.filter_eq_self.mpr fun term member => decide_eq_true (inScope term member).subset_all
  rw [keeps, every]

end PlanFrom

/-- `FROM people a JOIN people b ON b.id = a.id WHERE a.name = 'Ada'`, the rows of `a` found
through its index on ids for each row of `b`. -/
theorem plan_from_keeps_rows_self :
    let column := fun table name => (⟨bytes table, bytes name⟩ : ColumnRef)
    let find := fun name => if name = bytes "people" then some people else none
    let s : SelectStmt :=
      { star := true
        from_ := { name := bytes "people", alias_ := bytes "a" }
        joins := [⟨{ name := bytes "people", alias_ := bytes "b" },
          [{ left := { toColumnRef := column "b" "id" }, right := some (column "a" "id") }]⟩]
        where_ := [{
          left := { toColumnRef := column "a" "name" }
          literal := .ofText (bytes "Ada") }] }
    let row := [Field.ofInt64 (-4), .ofText (bytes "Ada")]
    ∃ source, planSource (fun _ => []) find (fun _ _ => none) .kAuto (fun _ _ => 4) s = .ok source ∧
      source.root.Delivers [joinRows row row] := by
  intro column find s row
  have plans : (planSource (fun _ => []) find (fun _ _ => none) .kAuto (fun _ _ => 4) s).isOk =
      true := by decide +kernel
  cases planned : planSource (fun _ => []) find (fun _ _ => none) .kAuto (fun _ _ => 4) s with
  | error failure =>
    rw [planned] at plans
    cases plans
  | ok source =>
    obtain ⟨first, rest, terms, rows, opened, made, -, delivers, perm, -⟩ :=
      plan_from_keeps_rows (by decide) (by decide) planned
    have kept : ((openTables find s).toOption.bind fun tables =>
        (scopedTerms (fun _ => []) (tables.1 :: tables.2) s).toOption.map fun terms =>
          (crossRows (tables.1 :: tables.2)).filter fun row => terms.all (eval ·.bound row)) =
        some [joinRows row row] := by decide +kernel
    rw [opened] at kept
    simp only [Except.toOption, Option.bind_some, made, Option.map_some] at kept
    rw [Option.some.inj kept, List.perm_singleton] at perm
    exact ⟨source, rfl, perm ▸ delivers⟩

end Labdb.Query
