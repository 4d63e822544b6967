import Labdb.Engine.Sessions
import Labdb.Engine.Statements
import Labdb.Query.SelectAnswers

/-! The sessions on the disk are those on the database: whatever the statements, they end alike, and
the disk stays that of the database, the uncommitted one and the committed one. -/

namespace Labdb.Engine.Session

open Labdb.BTree Labdb.Data Labdb.Program Labdb.Query Labdb.Sql

/-- A statement as the parser makes them. -/
def Plain : Statement → Prop
  | .kCreate s => ∀ c ∈ s.schema.columns, 0 ∉ c.name
  | .kInsert s => ∀ value ∈ s.values, Literal value
  | .kSelect s => Asked s
  | _ => True

/-- The session on the disk is that on the database. -/
structure Depicts (home : PageNo) (s : Session Disk) (t : Session (List Relation)) : Prop where
  state : Represents home s.state t.state
  committed : Represents home s.committed t.committed
  inTxn : s.inTxn = t.inTxn

variable {home : PageNo} {d d' : Disk} {db : List Relation} {alloc : Allocator} {scratch : Memory}
  {selects : Disk → SelectStmt → Outcome → Prop}
  {means : List Relation → SelectStmt → Outcome → Prop} {stmt : Statement} {outcome : Outcome}
  {s s' : Session Disk} {t : Session (List Relation)}

theorem Depicts.start (represents : Represents home d db) :
    Depicts home (Session.start d) (Session.start db) := ⟨represents, represents, rfl⟩

section Refines

variable (answers : ∀ d db s outcome, Represents home d db → Asked s → selects d s outcome →
  means db s outcome)

include answers

theorem Executes.refines (represents : Represents home d db) (plain : Plain stmt)
    (executes : Executes (diskCalls alloc scratch) selects d stmt outcome d') (small : d'.Small) :
    ∃ db', Executes databaseCalls means db stmt outcome db' ∧ Represents home d' db' := by
  cases executes with
  | create s =>
    have alike := runCreate_refines s represents plain small
    rw [alike.same]
    exact ⟨_, .create s db, alike.leaves⟩
  | createIndex s =>
    have alike := runCreateIndex_refines s represents small
    rw [alike.same]
    exact ⟨_, .createIndex s db, alike.leaves⟩
  | insert s =>
    have alike := runInsert_refines s represents plain small
    rw [alike.same]
    exact ⟨_, .insert s db, alike.leaves⟩
  | select s _ outcome selected =>
    exact ⟨db, .select s db outcome (answers d db s outcome represents plain selected), represents⟩

theorem Step.refines (depicts : Depicts home s t) (plain : Plain stmt)
    (step : Step (diskCalls alloc scratch) selects Disk.Small s stmt outcome s') :
    ∃ t', Step databaseCalls means (fun _ => True) t stmt outcome t' ∧ Depicts home s' t' := by
  have same := depicts.inTxn
  cases step with
  | begin_ outside =>
    exact ⟨_, .begin_ t (same ▸ outside), depicts.state, depicts.committed, rfl⟩
  | beginAgain inside => exact ⟨t, .beginAgain t (same ▸ inside), depicts⟩
  | commit inside => exact ⟨_, .commit t (same ▸ inside), .start depicts.state⟩
  | commitNothing outside => exact ⟨t, .commitNothing t (same ▸ outside), depicts⟩
  | rollback inside => exact ⟨_, .rollback t (same ▸ inside), .start depicts.committed⟩
  | rollbackNothing outside => exact ⟨t, .rollbackNothing t (same ▸ outside), depicts⟩
  | done _ result after executes fits =>
    obtain ⟨db', executes', represents⟩ := Executes.refines answers depicts.state plain executes fits
    refine ⟨_, .done t stmt result db' executes' trivial, ?_⟩
    unfold settle
    cases inside : t.inTxn with
    | true =>
      rw [if_pos rfl, if_pos (same.trans inside)]
      exact ⟨represents, depicts.committed, same.trans inside ▸ rfl⟩
    | false =>
      rw [same, inside, if_neg Bool.false_ne_true, if_neg Bool.false_ne_true]
      exact .start represents
  | failed _ raised after executes fits =>
    obtain ⟨db', executes', -⟩ := Executes.refines answers depicts.state plain executes fits
    exact ⟨_, .failed t stmt raised db' executes' trivial, .start depicts.committed⟩

theorem Runs.refines {trace : List (Statement × Outcome)} (depicts : Depicts home s t)
    (plain : ∀ e ∈ trace, Plain e.1)
    (runs : Runs (diskCalls alloc scratch) selects Disk.Small s trace s') :
    ∃ t', Runs databaseCalls means (fun _ => True) t trace t' ∧ Depicts home s' t' := by
  induction runs with
  | nil => exact ⟨t, .nil t, depicts⟩
  | snoc runs step ih =>
    obtain ⟨early, late⟩ := List.forall_mem_append.mp plain
    obtain ⟨t', runs', depicts'⟩ := ih early
    obtain ⟨t'', step', depicts''⟩ :=
      Step.refines answers depicts' (late _ (List.mem_singleton.mpr rfl)) step
    exact ⟨t'', .snoc runs' step', depicts''⟩

end Refines

end Labdb.Engine.Session
