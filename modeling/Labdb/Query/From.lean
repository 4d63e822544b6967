import Labdb.Query.Access
import Mathlib.Data.Finset.Range
import Mathlib.Data.Finset.Max

/-! FROM, JOIN and WHERE as a tree of operators: each comparison bound in the scope it was
written in, checked by the access path of its one table or else at the first join that has
all of its tables. -/

namespace Labdb.Query

open Labdb.Sql

/-- A table of a query, as the catalog has it. -/
structure FromTable where
  ref : TableRef
  table : Table

def FromTable.schema (from_ : FromTable) : OutSchema := tableSchema from_.table.schema from_.ref

/-- The next table of a query must exist, and its label must be a new one. -/
def openTable (find : Text → Option Table) (opened : List FromTable) (ref : TableRef) :
    Except ExecError FromTable :=
  match find ref.name with
  | none => throw ⟨bytes "no such table: " ++ ref.name⟩
  | some table =>
    if opened.any (·.ref.label = ref.label) then
      throw ⟨bytes "the name " ++ ref.label ++ bytes " refers to two tables; give one an alias"⟩
    else pure { ref, table }

/-- The tables of a query, of which there may be as many as a mask has bits. -/
def openTables (find : Text → Option Table) (s : SelectStmt) :
    Except ExecError (FromTable × List FromTable) := do
  let first ← openTable find [] s.from_
  let rest ← (s.joins.map JoinClause.table).foldlM
    (fun rest ref => do
      let table ← openTable find (first :: rest) ref
      pure (rest ++ [table]))
    []
  if 64 < (first :: rest).length then throw ⟨bytes "a query may join at most 64 tables"⟩
  else pure (first, rest)

/-- The columns of a query's first tables, in the order written. -/
def scope (tables : List FromTable) (count : Nat) : OutSchema :=
  (tables.take count).flatMap FromTable.schema

/-- The number of the table that a column of the whole scope belongs to. -/
def owner : List FromTable → Nat → Nat
  | [], _ => 0
  | table :: rest, pos =>
    if pos < table.schema.length then 0 else owner rest (pos - table.schema.length) + 1

/-- A comparison of an ON or of the WHERE, and what it is in the scope it was written in. -/
structure Term where
  c : Comparison
  bound : BoundComparison

/-- The tables that a term names: the bits of the mask. -/
def Term.tables (tables : List FromTable) (term : Term) : Finset Nat :=
  if term.bound.rightIsColumn then {owner tables term.bound.left, owner tables term.bound.right}
  else {owner tables term.bound.left}

/-- The comparisons of a query, and how many tables each one sees: an ON sees those joined
so far. -/
def written (s : SelectStmt) : List (Nat × Comparison) :=
  (s.joins.zipIdx.flatMap fun (join, j) => join.on.map fun c => (j + 2, c)) ++
    s.where_.map fun c => (s.joins.length + 1, c)

section Plan

variable (toChars : Double → Text)

def scopedTerms (tables : List FromTable) (s : SelectStmt) : Except ExecError (List Term) :=
  (written s).mapM fun (count, c) => do
    let bound ← bind toChars (scope tables count) c
    pure { c, bound }

/-- The terms that name one table only. -/
def localTerms (tables : List FromTable) (terms : List Term) (i : Nat) : List Comparison :=
  (terms.filter fun term => term.tables tables = {i}).map Term.c

def crossTerms (tables : List FromTable) (terms : List Term) : List Term :=
  terms.filter fun term => (term.tables tables).card ≠ 1

/-- A table of a query with the terms that are its own and the access path planned for them. -/
structure Input where
  from_ : FromTable
  terms : List Comparison
  access : Access

/-- `pick` stands for the costs of a table's access paths. -/
def planInput (pick : Nat → List Candidate → Option Nat) (tables : List FromTable)
    (terms : List Term) (from_ : FromTable) (i : Nat) : Except ExecError Input := do
  let terms := localTerms tables terms i
  let access ← planAccess toChars (pick i) from_.table from_.schema terms
  pure { from_, terms, access }

def Input.tableTerms (input : Input) : Except ExecError (List BoundComparison) :=
  input.terms.mapM (bind toChars input.from_.schema)

inductive Algo where
  | kNestedLoop
  | kHashRight
  | kHashLeft
  | kIndexRight
  | kIndexLeft
  deriving DecidableEq, Repr

/-- An algorithm for a join, and for an index join the number of its key. -/
structure JoinOption where
  algo : Algo
  key : Nat := 0
  deriving DecidableEq, Repr

/-- What the planner was told to use. -/
inductive JoinAlgorithm where
  | kAuto
  | kNestedLoop
  | kHash
  | kHashLeft
  | kIndexNestedLoop
  deriving DecidableEq, Repr

/-- An equality between a column of each side. -/
def isKeyTerm (nleft : Nat) (b : BoundComparison) : Bool :=
  b.op = .kEq && b.rightIsColumn && decide (b.left < nleft) != decide (b.right < nleft)

def keyPair (nleft : Nat) (b : BoundComparison) : Nat × Nat :=
  (min b.left b.right, max b.left b.right - nleft)

/-- The numbers of the terms that are keys. -/
def keyTerms (nleft : Nat) (bound : List BoundComparison) : List Nat :=
  (List.range bound.length).filter fun k => (bound[k]?).any (isKeyTerm nleft)

def keyPairs (nleft : Nat) (bound : List BoundComparison) : List (Nat × Nat) :=
  (bound.filter (isKeyTerm nleft)).map (keyPair nleft)

/-- The ways of joining table `i`; at the first join table 0 can be the one searched. -/
def joinOptions (keys : List (Nat × Nat)) (indexedRight indexedFirst : Nat → Bool) (i : Nat) :
    List JoinOption :=
  [{ algo := .kNestedLoop }] ++
    (if keys = [] then [] else [{ algo := .kHashRight }, { algo := .kHashLeft }]) ++
    keys.zipIdx.flatMap fun ((l, r), k) =>
      (if indexedRight r then [{ algo := .kIndexRight, key := k }] else []) ++
        (if i = 1 ∧ indexedFirst l then [{ algo := .kIndexLeft, key := k }] else [])

def firstOf (options : List JoinOption) (want : List Algo) : Option JoinOption :=
  want.findSome? fun algo => options.find? (·.algo = algo)

/-- `cheapest` stands for the costs: the number of the option of least cost. -/
def pickOption (algorithm : JoinAlgorithm) (cheapest : List JoinOption → Nat)
    (options : List JoinOption) : Option JoinOption :=
  match algorithm with
  | .kNestedLoop => firstOf options [.kNestedLoop]
  | .kHash => firstOf options [.kHashRight]
  | .kHashLeft => firstOf options [.kHashLeft]
  | .kIndexNestedLoop => firstOf options [.kIndexRight, .kIndexLeft]
  | .kAuto => options[cheapest options]?

def joinText (here : List Comparison) : Text :=
  if here = [] then bytes "TRUE" else conditionSql toChars here

def noOption (keys : List (Nat × Nat)) (here : List Comparison) : ExecError :=
  if keys = [] then
    ⟨bytes "a hash join needs an ON equality between a column of each table: " ++
      joinText toChars here⟩
  else ⟨bytes "no index to search for an index nested-loop join: " ++ joinText toChars here⟩

/-- Every term at a join that is not the key of the index search. -/
def residualWithout (nleft : Nat) (bound : List BoundComparison) (key : Nat) :
    List BoundComparison :=
  match (keyTerms nleft bound)[key]? with
  | some k => bound.eraseIdx k
  | none => bound

/-- The operator that joins the tables so far with the next one. -/
def buildJoin (first : Input) (root : Plan) (input : Input) (bound : List BoundComparison)
    (option : JoinOption) : Except ExecError Plan :=
  let nleft := root.schema.length
  let keys := keyPairs nleft bound
  let (l, r) := keys.getD option.key (0, 0)
  match option.algo with
  | .kNestedLoop => pure (.nestedLoopJoin root input.access.op bound)
  | .kHashRight =>
    pure (.hashJoin root input.access.op keys (bound.filter (!isKeyTerm nleft ·)) false)
  | .kHashLeft =>
    pure (.hashJoin root input.access.op keys (bound.filter (!isKeyTerm nleft ·)) true)
  | .kIndexRight => do
    let filter ← input.tableTerms toChars
    pure (.indexNestedLoopJoin root input.from_.table input.from_.schema l r filter
      (residualWithout nleft bound option.key) false)
  | .kIndexLeft => do
    let filter ← first.tableTerms toChars
    pure (.indexNestedLoopJoin input.access.op first.from_.table first.from_.schema r l filter
      (residualWithout nleft bound option.key) true)

/-- The join of table `i`, its terms `here` bound where they are checked. -/
def planJoin (algorithm : JoinAlgorithm) (cheapest : Nat → List JoinOption → Nat)
    (first : Input) (i : Nat) (root : Plan) (input : Input) (here : List Comparison) :
    Except ExecError Plan := do
  let bound ← here.mapM (bind toChars (concat root.schema input.from_.schema))
  let keys := keyPairs root.schema.length bound
  let options := joinOptions keys input.from_.table.indexed first.from_.table.indexed i
  match pickOption algorithm (cheapest i) options with
  | none => throw (noOption toChars keys here)
  | some option => buildJoin toChars first root input bound option

/-- The joins from table `i` on, left-deep; `waiting` are the terms not placed yet. -/
def planJoins (algorithm : JoinAlgorithm) (cheapest : Nat → List JoinOption → Nat)
    (tables : List FromTable) (first : Input) :
    List Input → Nat → Plan → List Term → Except ExecError Plan
  | [], _, root, _ => pure root
  | input :: rest, i, root, waiting => do
    let checkable := fun term : Term => decide (term.tables tables ⊆ Finset.range (i + 1))
    let here := (waiting.filter checkable).map Term.c
    let root ← planJoin toChars algorithm cheapest first i root input here
    planJoins algorithm cheapest tables first rest (i + 1) root (waiting.filter (!checkable ·))

/-- The rows of a query before they are grouped or put in order. -/
structure Source where
  root : Plan
  keyOrder : Bool := false
  bare : Bool := false

def planFrom (pick : Nat → List Candidate → Option Nat) (algorithm : JoinAlgorithm)
    (cheapest : Nat → List JoinOption → Nat) (first : FromTable) (rest : List FromTable)
    (s : SelectStmt) : Except ExecError Source :=
  if s.joins = [] then do
    let access ← planAccess toChars (pick 0) first.table first.schema s.where_
    pure { root := access.op, keyOrder := access.keyOrder, bare := access.bare }
  else do
    let tables := first :: rest
    let terms ← scopedTerms toChars tables s
    let input ← planInput toChars pick tables terms first 0
    let inputs ← (rest.zipIdx 1).mapM fun (from_, i) =>
      planInput toChars pick tables terms from_ i
    let root ← planJoins toChars algorithm cheapest tables input inputs 1 input.access.op
      (crossTerms tables terms)
    pure { root }

/-- The tables opened, and a plan made for them. -/
def planSource (find : Text → Option Table) (pick : Nat → List Candidate → Option Nat)
    (algorithm : JoinAlgorithm) (cheapest : Nat → List JoinOption → Nat) (s : SelectStmt) :
    Except ExecError Source := do
  let (first, rest) ← openTables find s
  planFrom toChars pick algorithm cheapest first rest s

end Plan

end Labdb.Query
