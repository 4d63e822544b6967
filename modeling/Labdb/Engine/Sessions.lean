import Labdb.Engine.Executor

/-! A session: statements one after another, alone or in transactions. What a transaction did counts
once it is committed, and nothing else ever counts. -/

namespace Labdb.Engine

open Labdb.Program Labdb.Sql

abbrev Outcome := Except Raised ResultSet

/-- The memory as it stands, and as the last commit left it. -/
structure Session (σ : Type) where
  state : σ
  committed : σ
  inTxn : Bool := false

namespace Session

variable {σ : Type}

/-- Nothing is open, and nothing is uncommitted. -/
def start (memory : σ) : Session σ := { state := memory, committed := memory }

/-- After a statement that succeeded. -/
def settle (s : Session σ) (after : σ) : Session σ :=
  if s.inTxn then { s with state := after } else start after

/-- The executor goes, and an open transaction is rolled back. -/
def close (s : Session σ) : Session σ := start (if s.inTxn then s.committed else s.state)

section Steps

variable (calls : Calls σ) (selects : σ → SelectStmt → Outcome → Prop) (room : σ → Prop)

/-- `run_statement`: how a statement may end, and what it leaves. A SELECT only reads; its plan is
chosen by estimates, so that there may be several answers. -/
inductive Executes : σ → Statement → Outcome → σ → Prop where
  | create (s : CreateTableStmt) (memory : σ) :
      Executes memory (.kCreate s) ((runCreate calls s).runOn memory).1
        ((runCreate calls s).leaves memory)
  | createIndex (s : CreateIndexStmt) (memory : σ) :
      Executes memory (.kCreateIndex s) ((runCreateIndex calls s).runOn memory).1
        ((runCreateIndex calls s).leaves memory)
  | insert (s : InsertStmt) (memory : σ) :
      Executes memory (.kInsert s) ((runInsert calls s).runOn memory).1
        ((runInsert calls s).leaves memory)
  | select (s : SelectStmt) (memory : σ) (outcome : Outcome) (answers : selects memory s outcome) :
      Executes memory (.kSelect s) outcome memory

/-- `run`, as long as there is room for what a statement leaves. -/
inductive Step : Session σ → Statement → Outcome → Session σ → Prop where
  | begin_ (s : Session σ) (outside : s.inTxn = false) :
      Step s .kBegin (.ok {}) { s with inTxn := true }
  | beginAgain (s : Session σ) (inside : s.inTxn = true) :
      Step s .kBegin (.error (.exec ⟨Query.bytes "BEGIN inside a transaction"⟩)) s
  | commit (s : Session σ) (inside : s.inTxn = true) : Step s .kCommit (.ok {}) (start s.state)
  | commitNothing (s : Session σ) (outside : s.inTxn = false) :
      Step s .kCommit (.error (.exec ⟨Query.bytes "COMMIT without BEGIN"⟩)) s
  | rollback (s : Session σ) (inside : s.inTxn = true) :
      Step s .kRollback (.ok {}) (start s.committed)
  | rollbackNothing (s : Session σ) (outside : s.inTxn = false) :
      Step s .kRollback (.error (.exec ⟨Query.bytes "ROLLBACK without BEGIN"⟩)) s
  | done (s : Session σ) (stmt : Statement) (result : ResultSet) (after : σ)
      (executes : Executes calls selects s.state stmt (.ok result) after) (fits : room after) :
      Step s stmt (.ok result) (s.settle after)
  | failed (s : Session σ) (stmt : Statement) (raised : Raised) (after : σ)
      (executes : Executes calls selects s.state stmt (.error raised) after) (fits : room after) :
      Step s stmt (.error raised) (start s.committed)

/-- The statements of a run, and how each one ended. -/
inductive Runs : Session σ → List (Statement × Outcome) → Session σ → Prop where
  | nil (s : Session σ) : Runs s [] s
  | snoc {s s' s'' : Session σ} {trace : List (Statement × Outcome)} {stmt : Statement}
      {outcome : Outcome} (runs : Runs s trace s') (step : Step calls selects room s' stmt outcome s'') :
      Runs s (trace ++ [(stmt, outcome)]) s''

/-- The statements one after another, each of them with that result. -/
inductive Replays : σ → List (Statement × ResultSet) → σ → Prop where
  | nil (memory : σ) : Replays memory [] memory
  | snoc {memory memory' after : σ} {script : List (Statement × ResultSet)} {stmt : Statement}
      {result : ResultSet} (replays : Replays memory script memory')
      (executes : Executes calls selects memory' stmt (.ok result) after) :
      Replays memory (script ++ [(stmt, result)]) after

end Steps

end Session

/-- What counts of a run: the statements of the transactions that were committed, and those of the
one that is open. -/
structure Effects where
  kept : List (Statement × ResultSet) := []
  pending : List (Statement × ResultSet) := []
  inTxn : Bool := false

namespace Effects

/-- After a statement that is not one of `BEGIN`, `COMMIT` and `ROLLBACK`. -/
def afterOther (e : Effects) (stmt : Statement) : Outcome → Effects
  | .ok result =>
    if e.inTxn then { e with pending := e.pending ++ [(stmt, result)] }
    else { e with kept := e.kept ++ [(stmt, result)] }
  | .error _ => { kept := e.kept }

def after (e : Effects) (stmt : Statement) (outcome : Outcome) : Effects :=
  match stmt with
  | .kBegin => { e with inTxn := true }
  | .kCommit => if e.inTxn then { kept := e.kept ++ e.pending } else e
  | .kRollback => if e.inTxn then { kept := e.kept } else e
  | stmt => e.afterOther stmt outcome

/-- The effects of a run from outside any transaction. -/
def of (trace : List (Statement × Outcome)) : Effects :=
  trace.foldl (fun e (stmt, outcome) => e.after stmt outcome) {}

end Effects

namespace Session

section Effects

variable {σ : Type} {calls : Calls σ} {selects : σ → SelectStmt → Outcome → Prop} {room : σ → Prop}
  {memory memory' memory'' : σ}

theorem Replays.append {script later : List (Statement × ResultSet)}
    (first : Replays calls selects memory script memory')
    (second : Replays calls selects memory' later memory'') :
    Replays calls selects memory (script ++ later) memory'' := by
  induction second with
  | nil => rwa [List.append_nil]
  | snoc _ executes ih =>
    rw [← List.append_assoc]
    exact .snoc ih executes

private theorem Executes.afterOther {stmt : Statement} {outcome : Outcome} (e : Effects)
    (executes : Executes calls selects memory stmt outcome memory') :
    e.after stmt outcome = e.afterOther stmt outcome := by
  cases executes with
  | create s => rfl
  | createIndex s => rfl
  | insert s => rfl
  | select s memory outcome => rfl

/-- The effects of a run, and where they lead. -/
structure Follows (calls : Calls σ) (selects : σ → SelectStmt → Outcome → Prop) (memory : σ)
    (s : Session σ) (e : Effects) : Prop where
  kept : Replays calls selects memory e.kept s.committed
  pending : Replays calls selects s.committed e.pending s.state
  inTxn : e.inTxn = s.inTxn
  outside : s.inTxn = false → e.pending = [] ∧ s.state = s.committed

theorem Follows.start {e : Effects} (kept : Replays calls selects memory e.kept memory')
    (nothing : e.pending = []) (outside : e.inTxn = false) :
    Follows calls selects memory (Session.start memory') e := by
  refine ⟨kept, ?_, outside, fun _ => ⟨nothing, rfl⟩⟩
  rw [nothing]
  exact .nil memory'

theorem Follows.step {s s' : Session σ} {e : Effects} {stmt : Statement} {outcome : Outcome}
    (follows : Follows calls selects memory s e) (step : Step calls selects room s stmt outcome s') :
    Follows calls selects memory s' (e.after stmt outcome) := by
  cases step with
  | begin_ outside =>
    refine ⟨follows.kept, follows.pending, rfl, fun inside => by cases inside⟩
  | beginAgain inside =>
    refine ⟨follows.kept, follows.pending, ?_, follows.outside⟩
    exact inside.symm
  | commit inside =>
    have isTxn : e.inTxn = true := follows.inTxn.trans inside
    have after : e.after .kCommit (.ok {}) = { kept := e.kept ++ e.pending } := if_pos isTxn
    rw [after]
    exact .start (follows.kept.append follows.pending) rfl rfl
  | commitNothing outside =>
    have nothing : e.inTxn ≠ true := fun inside => by simp [← follows.inTxn, inside] at outside
    have after : ∀ outcome, e.after .kCommit outcome = e := fun _ => if_neg nothing
    rw [after]
    exact follows
  | rollback inside =>
    have isTxn : e.inTxn = true := follows.inTxn.trans inside
    have after : e.after .kRollback (.ok {}) = { kept := e.kept } := if_pos isTxn
    rw [after]
    exact .start follows.kept rfl rfl
  | rollbackNothing outside =>
    have nothing : e.inTxn ≠ true := fun inside => by simp [← follows.inTxn, inside] at outside
    have after : ∀ outcome, e.after .kRollback outcome = e := fun _ => if_neg nothing
    rw [after]
    exact follows
  | done _ result after executes fits =>
    rw [executes.afterOther]
    unfold Effects.afterOther settle
    cases inside : s.inTxn with
    | true =>
      simp only [follows.inTxn.trans inside, if_true]
      exact ⟨follows.kept, follows.pending.snoc executes, rfl, fun outside => by simp at outside⟩
    | false =>
      simp only [follows.inTxn.trans inside, Bool.false_eq_true, if_false]
      obtain ⟨nothing, same⟩ := follows.outside inside
      exact .start ((same ▸ follows.kept).snoc executes) nothing rfl
  | failed _ raised after executes fits =>
    rw [executes.afterOther]
    exact .start follows.kept rfl rfl

/-- What the last commit left is what the statements that count lead to, one after another and with
the same results; with those of the open transaction after them they lead to what there is. -/
theorem Runs.follows {trace : List (Statement × Outcome)} {s : Session σ}
    (runs : Runs calls selects room (Session.start memory) trace s) :
    Follows calls selects memory s (Engine.Effects.of trace) := by
  induction runs with
  | nil => exact .start (.nil memory) rfl rfl
  | snoc runs step ih =>
    have effects := ih.step step
    rw [Engine.Effects.of, List.foldl_append]
    exact effects

end Effects

end Session

end Labdb.Engine
