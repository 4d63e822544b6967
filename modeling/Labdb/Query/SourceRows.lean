import Labdb.Query.Meaning

/-! Where a SELECT reads from: however it is planned it is refused only for what a comparison
says, and its rows are those of the FROM that every comparison keeps. -/

namespace Labdb.Query

open Labdb.Sql

theorem error_of_bind {α β ε : Type} {first : Except ε α} {rest : α → Except ε β} {failure : ε}
    (ran : (first >>= rest) = .error failure) :
    first = .error failure ∨ ∃ value, first = .ok value ∧ rest value = .error failure := by
  cases first with
  | error other =>
    cases ran
    exact .inl rfl
  | ok value => exact .inr ⟨value, rfl, ran⟩

/-- Results that are each put together with their item. -/
theorem mapM_zipWith {α β γ ε : Type} (f : α → Except ε β) (g : α → β → γ) (items : List α) :
    (items.mapM fun item => do
      let result ← f item
      pure (g item result)) = (items.mapM f).map (List.zipWith g items) := by
  induction items with
  | nil => rfl
  | cons item rest ih =>
    rw [List.mapM_cons, List.mapM_cons, ih]
    cases f item with
    | error failure => rfl
    | ok result =>
      cases rest.mapM f with
      | error failure => rfl
      | ok results => rfl

private theorem zipWith_right {α β : Type} {items : List α} {results : List β}
    (length : results.length = items.length) :
    List.zipWith (fun _ result => result) items results = results := by
  apply List.ext_getElem
  · rw [List.length_zipWith, length, Nat.min_self]
  · intro k inside inside'
    rw [List.getElem_zipWith]

/-- The executor was told nothing about joins, and what it takes is one of the options. -/
structure Choices.Fair (choices : Choices) : Prop where
  auto : choices.algorithm = .kAuto
  inside : ∀ i options, options ≠ [] → choices.cheapest i options < options.length

/-- A source of the rows of a query. -/
structure Source.Serves (tables : List FromTable) (terms : List Term) (s : SelectStmt)
    (source : Source) : Prop where
  schema : source.root.schema = tables.flatMap FromTable.schema
  rows : ∃ rows, source.root.Delivers rows ∧ BaseRows tables terms rows ∧
    (source.keyOrder = true → KeyOrder rows)
  alone : source.keyOrder = true ∨ source.bare = true → s.joins = []
  bare : source.bare = true → terms = []

section Alone

variable {toChars : Double → Text} {first : FromTable} {s : SelectStmt}

/-- Of one table, the comparisons are those of the WHERE, in its own columns. -/
theorem scopedTerms_alone (alone : s.joins = []) : scopedTerms toChars [first] s =
    (s.where_.mapM (bind toChars first.schema)).map (List.zipWith Term.mk s.where_) := by
  have scope_one : scope [first] 1 = first.schema := by simp [scope]
  have written_eq : written s = s.where_.map fun c => (1, c) := by simp [written, alone]
  rw [← mapM_zipWith, scopedTerms, written_eq, List.mapM_map]
  congr 1
  funext c
  rw [← scope_one]
  rfl

theorem openTables_alone {find : Text → Option Table} {rest : List FromTable}
    (opened : openTables find s = .ok (first, rest)) (alone : s.joins = []) : rest = [] := by
  obtain ⟨table, -, opened⟩ := ok_of_bind opened
  obtain ⟨others, none_, opened⟩ := ok_of_bind opened
  rw [alone] at none_
  cases none_
  split at opened
  · cases opened
  · cases opened
    rfl

theorem crossRows_alone : crossRows [first] = first.table.rows := by
  simp [crossRows, joinRows]

variable {pick : List Candidate → Option Nat} {access : Access}

/-- An access path that reports the whole table checks nothing. -/
theorem planAccess_bare {terms : List Comparison} {bound : List BoundComparison}
    (bound_eq : terms.mapM (bind toChars first.schema) = .ok bound)
    (planned : planAccess toChars pick first.table first.schema terms = .ok access)
    (bare : access.bare = true) : bound = [] := by
  unfold planAccess at planned
  rw [bound_eq] at planned
  cases planned
  dsimp only at bare
  rw [Bool.and_eq_true, Option.isNone_iff_eq_none, decide_eq_true_iff] at bare
  obtain ⟨none_, left⟩ := bare
  rw [none_] at left
  simpa [consumed] using left

end Alone

section PlanFrom

variable {toChars : Double → Text} {tables : List FromTable} {terms : List Term}
  {first : FromTable} {rest : List FromTable} {s : SelectStmt}
  {pick : Nat → List Candidate → Option Nat} {algorithm : JoinAlgorithm}
  {cheapest : Nat → List JoinOption → Nat} {source : Source}

private theorem terms_ops (ops : ∀ entry ∈ written s, entry.2.op.IsOp = true)
    (made : scopedTerms toChars tables s = .ok terms) :
    ∀ term ∈ terms, term.c.op.IsOp = true := by
  intro term member
  obtain ⟨entry, here, same⟩ := (scopedTerms_mem made term member).2
  exact same ▸ ops entry here

/-- The inputs planned, one a table. -/
theorem inputs_at (inScope : ∀ term ∈ terms, term.Scoped toChars (first :: rest))
    (ops : ∀ term ∈ terms, term.c.op.IsOp = true) {inputs : List Input}
    (planned : ((rest.zipIdx 1).mapM fun (from_, i) =>
      planInput toChars pick (first :: rest) terms from_ i) = .ok inputs) :
    inputs.length = rest.length ∧ ∀ k (input : Input), inputs[k]? = some input →
      input.At toChars (first :: rest) terms (1 + k) := by
  obtain ⟨length, each⟩ := mapM_getElem? planned
  rw [List.length_zipIdx] at length
  refine ⟨length, ?_⟩
  intro k input found
  obtain ⟨⟨from_, i⟩, at_, planned⟩ := each k input found
  rw [List.getElem?_zipIdx, Option.map_eq_some_iff] at at_
  obtain ⟨from', at_, same⟩ := at_
  cases same
  apply planInput_at inScope ops _ planned
  rwa [Nat.add_comm, List.getElem?_cons_succ]

/-- The first table alone, before any join. -/
theorem joined_first (inScope : ∀ term ∈ terms, term.Scoped toChars (first :: rest)) {input : Input}
    (isFirst : input.At toChars (first :: rest) terms 0) :
    Joined (first :: rest) terms 1 input.access.op := by
  obtain ⟨at_, serves⟩ := isFirst
  cases at_
  constructor
  · rw [serves.schema]
    simp [scope]
  · rw [first_rows inScope rfl]
    exact serves.rows

private theorem baseRows_joined (inScope : ∀ term ∈ terms, term.Scoped toChars tables) {root : Plan}
    (joined : Joined tables terms tables.length root) :
    root.schema = tables.flatMap FromTable.schema ∧
      ∃ rows, root.Delivers rows ∧ BaseRows tables terms rows := by
  obtain ⟨schema, rows, delivers, perm⟩ := joined
  rw [scope, List.take_length] at schema
  rw [List.take_length] at perm
  refine ⟨schema, rows, delivers, perm.trans (.of_eq ?_)⟩
  have every : (terms.filter fun term => term.tables tables ⊆ Finset.range tables.length) = terms :=
    List.filter_eq_self.mpr fun term member => decide_eq_true (inScope term member).subset_all
  apply List.filter_congr
  intro row _
  rw [keeps, every]

/-- A source that was planned: each comparison could be bound, and the rows are the right ones. -/
theorem planFrom_serves (ops : ∀ entry ∈ written s, entry.2.op.IsOp = true)
    (single : s.joins = [] → rest = [])
    (planned : planFrom toChars pick algorithm cheapest first rest s = .ok source) :
    ∃ terms, scopedTerms toChars (first :: rest) s = .ok terms ∧
      source.Serves (first :: rest) terms s := by
  unfold planFrom at planned
  by_cases joins : s.joins = []
  · rw [if_pos joins] at planned
    obtain ⟨access, planAccess_ok, planned⟩ := ok_of_bind planned
    cases planned
    obtain rfl := single joins
    have isOps : ∀ c ∈ s.where_, c.op.IsOp = true := fun c member =>
      ops (s.joins.length + 1, c) (List.mem_append_right _ (List.mem_map_of_mem member))
    obtain ⟨schema, bound, rows, bound_eq, delivers, perm, inOrder⟩ :=
      planAccess_delivers isOps planAccess_ok
    have scoped_eq : scopedTerms toChars [first] s =
        (s.where_.mapM (bind toChars first.schema)).map (List.zipWith Term.mk s.where_) :=
      scopedTerms_alone joins
    rw [FromTable.schema, bound_eq] at scoped_eq
    have length : bound.length = s.where_.length := (mapM_getElem? bound_eq).1
    refine ⟨_, scoped_eq, ?_, ⟨rows, delivers, ?_, inOrder⟩, fun _ => joins, ?_⟩
    · rw [List.flatMap_cons, List.flatMap_nil, List.append_nil]
      exact schema
    · apply perm.trans
      apply List.Perm.of_eq
      rw [crossRows_alone]
      apply List.filter_congr
      intro row _
      have bounds : (List.zipWith Term.mk s.where_ bound).map Term.bound = bound := by
        rw [List.map_zipWith]
        exact zipWith_right length
      have same := List.all_map (f := Term.bound) (p := (eval · row))
        (l := List.zipWith Term.mk s.where_ bound)
      rw [bounds] at same
      exact same
    · intro bare
      rw [planAccess_bare bound_eq planAccess_ok bare, List.zipWith_nil_right]
  · rw [if_neg joins] at planned
    obtain ⟨terms, made, planned⟩ := ok_of_bind planned
    obtain ⟨input, firstPlanned, planned⟩ := ok_of_bind planned
    obtain ⟨inputs, inputsPlanned, planned⟩ := ok_of_bind planned
    obtain ⟨root, joinsPlanned, planned⟩ := ok_of_bind planned
    cases planned
    have inScope := fun term member => (scopedTerms_mem made term member).1
    have firstAt := planInput_at inScope (terms_ops ops made) rfl firstPlanned
    obtain ⟨length, serve⟩ := inputs_at inScope (terms_ops ops made) inputsPlanned
    rw [← waitingTerms_one] at joinsPlanned
    have joined := planJoins_joined inScope firstAt serve (joined_first inScope firstAt) joinsPlanned
    have all : 1 + inputs.length = (first :: rest).length := by
      rw [length, List.length_cons, Nat.add_comm]
    rw [all] at joined
    obtain ⟨schema, rows, delivers, base⟩ := baseRows_joined inScope joined
    refine ⟨terms, made, schema, ⟨rows, delivers, base, nofun⟩, ?_, nofun⟩
    simp

section Complete

variable {firstInput input : Input} {root : Plan} {here : List Comparison}
  {firstBound inputBound bound : List BoundComparison} {i : Nat}

theorem joinOptions_nonempty (keys : List (Nat × Nat)) (indexedRight indexedFirst : Nat → Bool)
    (i : Nat) : joinOptions keys indexedRight indexedFirst i ≠ [] := by
  simp [joinOptions]

private theorem buildJoin_succeeds (firstServes : firstInput.Serves toChars firstBound)
    (inputServes : input.Serves toChars inputBound) (option : JoinOption) :
    ∃ joined, buildJoin toChars firstInput root input bound option = .ok joined := by
  unfold buildJoin
  cases option.algo with
  | kNestedLoop => exact ⟨_, rfl⟩
  | kHashRight => exact ⟨_, rfl⟩
  | kHashLeft => exact ⟨_, rfl⟩
  | kIndexRight =>
    rw [inputServes.terms]
    exact ⟨_, rfl⟩
  | kIndexLeft =>
    rw [firstServes.terms]
    exact ⟨_, rfl⟩

/-- A join is never refused where the cheapest option is taken. -/
theorem planJoin_succeeds (firstServes : firstInput.Serves toChars firstBound)
    (inputServes : input.Serves toChars inputBound)
    (inside : ∀ options, options ≠ [] → cheapest i options < options.length)
    (bound_eq : here.mapM (bind toChars (concat root.schema input.from_.schema)) = .ok bound) :
    ∃ joined, planJoin toChars .kAuto cheapest firstInput i root input here = .ok joined := by
  have picked : ∃ option, pickOption .kAuto (cheapest i) (joinOptions
      (keyPairs root.schema.length bound) input.from_.table.indexed
      firstInput.from_.table.indexed i) = some option :=
    ⟨_, List.getElem?_eq_getElem (inside _ (joinOptions_nonempty _ _ _ i))⟩
  obtain ⟨option, picked⟩ := picked
  obtain ⟨joined, built⟩ : ∃ joined, buildJoin toChars firstInput root input bound option = .ok joined :=
    buildJoin_succeeds firstServes inputServes option
  refine ⟨joined, ?_⟩
  unfold planJoin
  rw [bound_eq]
  dsimp only [Bind.bind, Except.bind]
  rw [picked]
  exact built

private theorem planJoins_succeeds {inputs : List Input}
    (inScope : ∀ term ∈ terms, term.Scoped toChars tables)
    (firstAt : firstInput.At toChars tables terms 0)
    (serve : ∀ k (input : Input), inputs[k]? = some input → input.At toChars tables terms (i + k))
    (isJoined : Joined tables terms i root)
    (inside : ∀ i options, options ≠ [] → cheapest i options < options.length) :
    ∃ joined, planJoins toChars .kAuto cheapest tables firstInput inputs i root
      (waitingTerms tables terms i) = .ok joined := by
  induction inputs generalizing i root with
  | nil => exact ⟨root, rfl⟩
  | cons input rest ih =>
    have inputAt : input.At toChars tables terms i := serve 0 input rfl
    have bound_eq : ((joinTerms tables terms i).map Term.c).mapM
        (bind toChars (concat root.schema input.from_.schema)) =
          .ok ((joinTerms tables terms i).map Term.bound) := by
      rw [isJoined.schema, concat, ← scope_succ inputAt.1]
      exact bind_joinTerms inScope
    obtain ⟨next, planned⟩ := planJoin_succeeds firstAt.2 inputAt.2 (inside i) bound_eq
    have later : ∀ k (other : Input), rest[k]? = some other →
        other.At toChars tables terms (i + 1 + k) := by
      intro k other found
      have served := serve (k + 1) other found
      rwa [Nat.add_comm k 1, ← Nat.add_assoc] at served
    obtain ⟨joined, more⟩ := ih later (planJoin_joined inScope firstAt inputAt isJoined planned)
    refine ⟨joined, ?_⟩
    unfold planJoins
    dsimp only
    rw [joinTerms_eq, waitingTerms_succ, planned]
    exact more

private theorem planInput_succeeds (inScope : ∀ term ∈ terms, term.Scoped toChars tables)
    {from_ : FromTable} (at_ : tables[i]? = some from_) :
    ∃ input, planInput toChars pick tables terms from_ i = .ok input := by
  unfold planInput planAccess
  dsimp only
  rw [bind_localTerms inScope at_]
  exact ⟨_, rfl⟩

private theorem mapM_succeeds {α β ε : Type} {f : α → Except ε β} {items : List α}
    (each : ∀ item ∈ items, ∃ result, f item = .ok result) :
    ∃ results, items.mapM f = .ok results := by
  induction items with
  | nil => exact ⟨[], rfl⟩
  | cons item rest ih =>
    obtain ⟨result, first⟩ := each item List.mem_cons_self
    obtain ⟨results, more⟩ := ih fun other member => each other (List.mem_cons_of_mem _ member)
    refine ⟨result :: results, ?_⟩
    rw [List.mapM_cons, first, more]
    rfl

/-- A source that is refused: some comparison cannot be bound in the scope it was written in. -/
theorem planFrom_refused (ops : ∀ entry ∈ written s, entry.2.op.IsOp = true)
    (single : s.joins = [] → rest = [])
    (inside : ∀ i options, options ≠ [] → cheapest i options < options.length) {error : ExecError}
    (planned : planFrom toChars pick .kAuto cheapest first rest s = .error error) :
    scopedTerms toChars (first :: rest) s = .error error := by
  unfold planFrom at planned
  by_cases joins : s.joins = []
  · rw [if_pos joins] at planned
    obtain rfl := single joins
    rw [scopedTerms_alone joins]
    obtain refused | ⟨access, -, planned⟩ := error_of_bind planned
    · obtain refused | ⟨bound, -, planned⟩ := error_of_bind refused
      · rw [refused]
        rfl
      · cases planned
    · cases planned
  · rw [if_neg joins] at planned
    obtain refused | ⟨terms, made, planned⟩ := error_of_bind planned
    · exact refused
    · have inScope := fun term member => (scopedTerms_mem made term member).1
      have isOps := terms_ops ops made
      obtain ⟨input, firstPlanned⟩ : ∃ input,
          planInput toChars pick (first :: rest) terms first 0 = .ok input :=
        planInput_succeeds inScope rfl
      have each : ∀ item ∈ rest.zipIdx 1, ∃ input,
          planInput toChars pick (first :: rest) terms item.1 item.2 = .ok input := by
        intro item member
        obtain ⟨beyond, at_⟩ := List.mk_mem_zipIdx_iff_le_and_getElem?_sub.mp member
        apply planInput_succeeds inScope
        obtain ⟨k, later⟩ := Nat.exists_eq_add_of_le' beyond
        rw [later, Nat.add_sub_cancel] at at_
        rwa [later, List.getElem?_cons_succ]
      obtain ⟨inputs, inputsPlanned⟩ := mapM_succeeds each
      have firstAt := planInput_at inScope isOps rfl firstPlanned
      obtain ⟨length, serve⟩ := inputs_at inScope isOps inputsPlanned
      obtain ⟨root, joinsPlanned⟩ := planJoins_succeeds inScope firstAt serve
        (joined_first inScope firstAt) inside
      rw [waitingTerms_one] at joinsPlanned
      obtain refused | ⟨_, same, planned⟩ := error_of_bind planned
      · cases firstPlanned.symm.trans refused
      cases firstPlanned.symm.trans same
      obtain refused | ⟨_, same, planned⟩ := error_of_bind planned
      · cases inputsPlanned.symm.trans refused
      cases inputsPlanned.symm.trans same
      obtain refused | ⟨_, same, planned⟩ := error_of_bind planned
      · cases joinsPlanned.symm.trans refused
      cases planned

end Complete

end PlanFrom

end Labdb.Query
