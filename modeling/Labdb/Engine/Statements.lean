import Labdb.Engine.Executor

/-! The statements do to the disk of a database what they do to the database, and report the same. -/

namespace Labdb.Engine

open Labdb.BTree Labdb.Catalog Labdb.Data Labdb.Heap Labdb.Program Labdb.Query Labdb.Record Labdb.Sql

variable {d : Disk} {home : PageNo} {db : List Relation} {alloc : Allocator} {scratch : Memory}

section Called

variable {σ τ α β : Type} {after raised : σ → τ → Prop} {memory : σ} {model : τ}

private theorem runOn_called_ok {call : Stateful Fault σ α} {value : α} {memory' : σ}
    (ran : call.runOn memory = (.ok value, memory')) :
    (called call).runOn memory = (.ok value, memory') := by
  have step : (called call).runOn memory =
      ((call.runOn memory).1.mapError Raised.check, (call.runOn memory).2) := rfl
  rw [step, ran]
  rfl

private theorem alike_called {call : Stateful Fault σ α} {spec : Stateful Fault τ α}
    (alike : Stateful.Alike after raised (call.runOn memory) (spec.runOn model)) :
    Stateful.Alike after raised ((called call).runOn memory) ((called spec).runOn model) := by
  have step : (called call).runOn memory =
      ((call.runOn memory).1.mapError Raised.check, (call.runOn memory).2) := rfl
  have stepSpec : (called spec).runOn model =
      ((spec.runOn model).1.mapError Raised.check, (spec.runOn model).2) := rfl
  rw [step, stepSpec]
  generalize call.runOn memory = ending at alike
  generalize spec.runOn model = endingSpec at alike
  cases alike with
  | ok value related => exact .ok value related
  | error fault related => exact .error (Raised.check fault) related

private theorem alike_pure (value : α) (related : after memory model) :
    Stateful.Alike after raised ((pure value : Stateful Raised σ α).runOn memory)
      ((pure value : Stateful Raised τ α).runOn model) := .ok value related

private theorem alike_refused (message : Text) (related : raised memory model) :
    Stateful.Alike after raised ((refused message : Stateful Raised σ α).runOn memory)
      ((refused message : Stateful Raised τ α).runOn model) := .error _ related

end Called

section Looked

/-- How a table is looked up, on the disk and in the database. -/
inductive Looked (d : Disk) (db : List Relation) (name : Text) : Prop where
  | found (t : Relation) (isTable : db.find? (·.name = name) = some t)
      (only : ∀ other ∈ db, other.name = name → other = t)
      (there : (tableExists name).runOn d = (.ok true, d))
      (schema : (schemaOf name).runOn d = (.ok t.schema, d))
      (info : (findTable name).runOn d = (.ok (some t.info), d))
  | missing (isNone : db.find? (·.name = name) = none)
      (there : (tableExists name).runOn d = (.ok false, d))
      (info : (findTable name).runOn d = (.ok none, d))

theorem Represents.looked (represents : Represents home d db) (name : Text) : Looked d db name := by
  obtain ⟨stores, consistent, rfl⟩ := represents
  have loaded : loadCatalogPage.runOn d = (.ok d.catalog, d) := rfl
  rcases listing_or_none stores name with ⟨slot, desc, h, here, rfl⟩ | absent
  · have listed := consistent.listed here
    have isTable : (stores.map depicted)[slot]? = some (depicted (desc, h)) := by
      rw [List.getElem?_map, here]
      rfl
    have found := find?_named consistent.names isTable
    have held := consistent.held _ (List.mem_of_getElem? here)
    have read : (checked (readDesc d.catalog slot) : DiskM RawDesc).runOn d = (.ok desc, d) := by
      rw [listed.lists.readDesc listed.here]
      rfl
    refine .found (depicted (desc, h)) found ?_ ?_ ?_ ?_
    · intro other member same
      obtain ⟨j, there⟩ := List.getElem?_of_mem member
      rw [same_place consistent.names isTable there same, isTable] at there
      exact (Option.some.inj there).symm
    · unfold tableExists
      rw [Stateful.runOn_bind_ok loaded, listed.found]
      rfl
    · unfold schemaOf
      rw [Stateful.runOn_bind_ok (listed.runOn_slotOf _)]
      rfl
    · unfold findTable
      rw [Stateful.runOn_bind_ok loaded, listed.found]
      dsimp only
      rw [Stateful.runOn_bind_ok read, held.counted]
      have rows : (depicted (desc, h)).rows.length = h.rows.length := List.length_map _
      rw [Relation.info, rows]
      rfl
  · have missing : findSlot d.catalog name = none := by
      cases found : findSlot d.catalog name with
      | none => rfl
      | some slot =>
        obtain ⟨desc, there, named⟩ := consistent.lists.findSlot_iff.mp found
        exact absurd named (absent desc (List.mem_of_getElem? there))
    refine .missing ?_ ?_ ?_
    · refine List.find?_eq_none.mpr fun t member hit => ?_
      obtain ⟨store, isStore, rfl⟩ := List.mem_map.mp member
      exact absent store.1 (List.mem_map_of_mem isStore) (of_decide_eq_true hit)
    · unfold tableExists
      rw [Stateful.runOn_bind_ok loaded, missing]
      rfl
    · unfold findTable
      rw [Stateful.runOn_bind_ok loaded, missing]
      rfl

/-- The same in the database. -/
theorem runOn_describedOf {name : Text} {t : Relation} (isTable : db.find? (·.name = name) = some t) :
    (databaseCalls.tableExists name).runOn db = (.ok true, db) ∧
      (databaseCalls.schemaOf name).runOn db = (.ok t.schema, db) ∧
      (databaseCalls.findTable name).runOn db = (.ok (some t.info), db) := by
  have described : (DatabaseM.described name (bytes "no such table")).runOn db = (.ok t, db) := by
    unfold DatabaseM.described
    rw [Stateful.runOn_get_bind, isTable]
    rfl
  refine ⟨?_, ?_, ?_⟩
  · exact congrArg (fun found => (Except.ok (Option.isSome found), db)) isTable
  · exact Stateful.runOn_bind_ok described
  · exact congrArg (fun found => (Except.ok (Option.map Relation.info found), db)) isTable

private theorem runOn_missing {name : Text} (isNone : db.find? (·.name = name) = none) :
    (databaseCalls.tableExists name).runOn db = (.ok false, db) ∧
      (databaseCalls.findTable name).runOn db = (.ok none, db) :=
  ⟨congrArg (fun found => (Except.ok (Option.isSome found), db)) isNone,
    congrArg (fun found => (Except.ok (Option.map Relation.info found), db)) isNone⟩

end Looked

section Coerced

/-- A value as the parser makes them: TRUE is 1 and FALSE is 0. -/
def Literal (value : Field) : Prop :=
  value.isNull = false → value.type = .kBool → value.i64 = 0 ∨ value.i64 = 1

private theorem coerce_matches {literal field : Field} {col : Column} (written : Literal literal)
    (coerced : coerce literal col = .ok field) : Matches col field := by
  unfold coerce at coerced
  cases isNull : literal.isNull with
  | true =>
    rw [isNull, if_pos rfl] at coerced
    split at coerced
    · cases coerced
      have known : (Field.null col.type).isNull ≠ false := Bool.noConfusion
      exact ⟨rfl, fun isNot => absurd isNot known, fun isNot => absurd isNot known⟩
    · cases coerced
  | false =>
    rw [isNull, if_neg Bool.false_ne_true] at coerced
    cases type : col.type with
    | kInt64 =>
      rw [type] at coerced
      dsimp only at coerced
      split at coerced
      · cases coerced
      · rename_i same
        cases coerced
        exact ⟨(Decidable.not_not.mp same).trans type.symm, fun _ other => by simp [type] at other,
          fun _ other => by simp [type] at other⟩
    | kInt32 =>
      rw [type] at coerced
      dsimp only at coerced
      split at coerced
      · cases coerced
      · split at coerced
        · cases coerced
        · cases coerced
          refine ⟨type.symm, fun _ _ => ?_, fun _ other => by simp [type] at other⟩
          rw [Field.ofInt32, Int32.toInt_toInt64]
          exact ⟨Int32.le_toInt _, Int32.toInt_lt _⟩
    | kBool =>
      rw [type] at coerced
      dsimp only at coerced
      split at coerced
      · cases coerced
      · rename_i same
        cases coerced
        exact ⟨(Decidable.not_not.mp same).trans type.symm, fun _ other => by simp [type] at other,
          fun known _ => written known (Decidable.not_not.mp same)⟩
    | kText =>
      rw [type] at coerced
      dsimp only at coerced
      split at coerced
      · cases coerced
      · rename_i same
        cases coerced
        exact ⟨(Decidable.not_not.mp same).trans type.symm, fun _ other => by simp [type] at other,
          fun _ other => by simp [type] at other⟩
    | kDouble =>
      rw [type] at coerced
      dsimp only at coerced
      split at coerced
      · cases coerced
      · cases coerced
        exact ⟨type.symm, fun _ other => by simp [type] at other,
          fun _ other => by simp [type] at other⟩

private theorem coerceRow_matches {values row : Row} {cols : List Column}
    (written : ∀ value ∈ values, Literal value) (length : values.length = cols.length)
    (coerced : coerceRow values cols = .ok row) : List.Forall₂ Matches cols row := by
  induction cols generalizing values row with
  | nil =>
    rw [List.length_nil, List.length_eq_zero_iff] at length
    subst length
    cases coerced
    exact .nil
  | cons col cols ih =>
    cases values with
    | nil => cases length
    | cons value values =>
      obtain ⟨field, first, coerced⟩ := ok_of_bind coerced
      obtain ⟨rest, others, coerced⟩ := ok_of_bind coerced
      cases coerced
      obtain ⟨isValue, later⟩ := List.forall_mem_cons.mp written
      exact .cons (coerce_matches isValue first) (ih later (Nat.succ.inj length) others)

private theorem mapError_ok {ε ε' α : Type} {f : ε → ε'} {result : Except ε α} {value : α}
    (ok : result.mapError f = .ok value) : result = .ok value := by
  cases result with
  | ok same =>
    cases ok
    rfl
  | error _ => cases ok

private theorem insertedRow_matches {s : InsertStmt} {schema : Schema} {row : Row}
    (written : ∀ value ∈ s.values, Literal value) (made : insertedRow s schema = .ok row) :
    RowMatches schema row := by
  unfold insertedRow at made
  split at made
  · cases made
  · rename_i length
    obtain ⟨row', coerced, made⟩ := ok_of_bind made
    split at made
    · split at made
      · cases made
      · cases made
        exact coerceRow_matches written (Decidable.not_not.mp length) (mapError_ok coerced)
    · cases made

end Coerced

section Statements

/-- A CREATE TABLE, whose column names hold no zero byte. -/
theorem runCreate_refines (s : CreateTableStmt) (represents : Represents home d db)
    (plain : ∀ c ∈ s.schema.columns, 0 ∉ c.name)
    (fits : ((runCreate (diskCalls alloc scratch) s).leaves d).Small) :
    Stateful.Alike (Represents home) (Represents home)
      ((runCreate (diskCalls alloc scratch) s).runOn d) ((runCreate databaseCalls s).runOn db) := by
  unfold runCreate at fits ⊢
  cases represents.looked s.table with
  | found t isTable only there schema info =>
    obtain ⟨there', -, -⟩ := runOn_describedOf isTable
    have here : (called ((diskCalls alloc scratch).tableExists s.table)).runOn d = (.ok true, d) :=
      runOn_called_ok there
    rw [Stateful.runOn_bind_ok here, Stateful.runOn_bind_ok (runOn_called_ok there')]
    exact alike_refused _ represents
  | missing isNone there info =>
    obtain ⟨there', -⟩ := runOn_missing isNone
    have here : (called ((diskCalls alloc scratch).tableExists s.table)).runOn d = (.ok false, d) :=
      runOn_called_ok there
    rw [Stateful.leaves_bind_ok here] at fits
    rw [Stateful.runOn_bind_ok here, Stateful.runOn_bind_ok (runOn_called_ok there')]
    simp only [Bool.false_eq_true, if_false] at fits ⊢
    have small : ((createTable alloc s.table s.schema).leaves d).Small := by
      rw [Stateful.leaves_bind_still fun _ _ => rfl] at fits
      exact fits
    exact (alike_called (createTable_refines represents plain small)).bind
      fun _ _ _ related => alike_pure _ related

theorem runCreateIndex_refines (s : CreateIndexStmt) (represents : Represents home d db)
    (fits : ((runCreateIndex (diskCalls alloc scratch) s).leaves d).Small) :
    Stateful.Alike (Represents home) (Represents home)
      ((runCreateIndex (diskCalls alloc scratch) s).runOn d)
      ((runCreateIndex databaseCalls s).runOn db) := by
  unfold runCreateIndex at fits ⊢
  cases represents.looked s.table with
  | found t isTable only there schema info =>
    obtain ⟨-, -, info'⟩ := runOn_describedOf isTable
    have here : (called ((diskCalls alloc scratch).findTable s.table)).runOn d =
      (.ok (some t.info), d) := runOn_called_ok info
    rw [Stateful.leaves_bind_ok here] at fits
    rw [Stateful.runOn_bind_ok here, Stateful.runOn_bind_ok (runOn_called_ok info')]
    dsimp only at fits ⊢
    unfold indexColumn at fits ⊢
    split
    · exact alike_refused _ represents
    · rename_i col isColumn
      rw [isColumn] at fits
      dsimp only at fits
      by_cases first : col = 0
      · rw [if_pos first, if_pos first]
        exact alike_refused _ represents
      · rw [if_neg first] at fits
        rw [if_neg first, if_neg first]
        by_cases taken : t.info.indexed.getD col false = true
        · rw [if_pos taken, if_pos taken]
          exact alike_refused _ represents
        · rw [if_neg taken] at fits
          rw [if_neg taken, if_neg taken]
          have small : ((createIndex alloc s.table col).leaves d).Small := by
            rw [Stateful.leaves_bind_still fun _ _ => rfl] at fits
            exact fits
          exact (alike_called (createIndex_refines represents small)).bind
            fun _ _ _ related => alike_pure _ related
  | missing isNone there info =>
    obtain ⟨-, info'⟩ := runOn_missing isNone
    have here : (called ((diskCalls alloc scratch).findTable s.table)).runOn d =
      (.ok none, d) := runOn_called_ok info
    rw [Stateful.runOn_bind_ok here, Stateful.runOn_bind_ok (runOn_called_ok info')]
    exact alike_refused _ represents

/-- An INSERT, its literals as the parser makes them. -/
theorem runInsert_refines (s : InsertStmt) (represents : Represents home d db)
    (written : ∀ value ∈ s.values, Literal value)
    (fits : ((runInsert (diskCalls alloc scratch) s).leaves d).Small) :
    Stateful.Alike (Represents home) (Represents home)
      ((runInsert (diskCalls alloc scratch) s).runOn d) ((runInsert databaseCalls s).runOn db) := by
  unfold runInsert at fits ⊢
  cases represents.looked s.table with
  | found t isTable only there schema info =>
    obtain ⟨there', schema', -⟩ := runOn_describedOf isTable
    have here : (called ((diskCalls alloc scratch).tableExists s.table)).runOn d = (.ok true, d) :=
      runOn_called_ok there
    have read : (called ((diskCalls alloc scratch).schemaOf s.table)).runOn d = (.ok t.schema, d) :=
      runOn_called_ok schema
    rw [Stateful.leaves_bind_ok here] at fits
    rw [Stateful.runOn_bind_ok here, Stateful.runOn_bind_ok (runOn_called_ok there')]
    simp only [if_true] at fits ⊢
    rw [Stateful.leaves_bind_ok read] at fits
    rw [Stateful.runOn_bind_ok read, Stateful.runOn_bind_ok (runOn_called_ok schema')]
    cases made : insertedRow s t.schema with
    | error raised => exact .error raised represents
    | ok row =>
      rw [made] at fits
      have typed : ∀ other ∈ db, other.name = s.table → RowMatches other.schema row := by
        intro other member named
        rw [only other member named]
        exact insertedRow_matches written made
      have small : ((insertRow alloc scratch s.table row).leaves d).Small := by
        have made : (reported (.ok row) : Stateful Raised Disk Row).runOn d = (.ok row, d) := rfl
        rw [Stateful.leaves_bind_ok made, Stateful.leaves_bind_still fun isNew _ => by
          cases isNew <;> rfl] at fits
        have mapped : ((Option.isSome <$> insertRow alloc scratch s.table row).leaves d).Small := fits
        rw [map_eq_pure_bind, Stateful.leaves_bind_still fun _ _ => rfl] at mapped
        exact mapped
      refine (alike_called (insertRow_refines represents typed small)).bind ?_
      intro isNew d' db' related
      cases isNew with
      | true => exact alike_pure _ related
      | false => exact alike_refused _ related
  | missing isNone there info =>
    obtain ⟨there', -⟩ := runOn_missing isNone
    have here : (called ((diskCalls alloc scratch).tableExists s.table)).runOn d = (.ok false, d) :=
      runOn_called_ok there
    rw [Stateful.runOn_bind_ok here, Stateful.runOn_bind_ok (runOn_called_ok there')]
    exact alike_refused _ represents

end Statements

end Labdb.Engine
