import Labdb.Engine.SessionRuns
import Labdb.Engine.Shown

/-! A SELECT over the tables as the disk shows them is one over the tables of the database. With it
whole sessions on the disk mean what they mean on the database. -/

namespace Labdb.Engine

open Labdb.BTree Labdb.Catalog Labdb.Data Labdb.Heap Labdb.Program Labdb.Query Labdb.Record Labdb.Sql

variable {d : Disk} {home : PageNo} {db : List Relation} {toChars : Double → Text} {s : SelectStmt}
  {outcome : Outcome} {name : Text} {table : Table} {find : Text → Option Table} {t : Relation}

/-- The tables that a SELECT names. -/
def named (s : SelectStmt) : List Text := s.from_.name :: s.joins.map fun join => join.table.name

/-- How a SELECT ends. -/
def outcomeOf : Except ExecError (List Text × List Row) → Outcome
  | .ok (columns, rows) => .ok { columns, rows }
  | .error error => .error (.exec error)

/-- The tables of the disk, as far as a SELECT asks for them. -/
structure Finds (d : Disk) (names : List Text) (find : Text → Option Table) : Prop where
  there : ∀ name ∈ names, ∀ table, find name = some table → Shows d name table
  missing : ∀ name ∈ names, find name = none → (findTable name).runOn d = (.ok none, d)

/-- `run_select` on the disk, with whatever plan fair estimates choose. -/
inductive Selects (toChars : Double → Text) (d : Disk) (s : SelectStmt) : Outcome → Prop where
  | ran {find : Text → Option Table} {choices : Choices}
      {result : Except ExecError (List Text × List Row)} (finds : Finds d (named s) find)
      (fair : choices.Fair)
      (ran : runSelect toChars find s choices = some result) :
      Selects toChars d s (outcomeOf result)

/-- The planner's shortcuts would not show in a SELECT, as the tables of the disk are. -/
def Regularly (d : Disk) (s : SelectStmt) : Prop :=
  s.joins = [] → ∀ table, Shows d s.from_.name table → Regular true s table.schema table.rows

/-- The tables of the database, their rows by their keys. -/
structure Models (db : List Relation) (names : List Text) (find : Text → Option Table) : Prop where
  there : ∀ name ∈ names, ∀ table, find name = some table → ∃ t ∈ db, t.name = name ∧
    table.schema = t.schema ∧ table.rows.Perm (t.rows.map plainRow)
  missing : ∀ name ∈ names, find name = none → ∀ t ∈ db, t.name ≠ name

/-- What a SELECT may come to over the database. -/
inductive Meant (toChars : Double → Text) (db : List Relation) (s : SelectStmt) : Outcome → Prop where
  | means {find : Text → Option Table} {result : Except ExecError (List Text × List Row)}
      (models : Models db (named s) find) (means : Means toChars find s result) :
      Meant toChars db s (outcomeOf result)

section Tables

/-- Whatever its rows are, a scan hands out those of the table. -/
theorem Represents.scanned (represents : Represents home d db) (member : t ∈ db) (copy : Bool) :
    ∃ got, (readAll (openCursor copy t.name)).runOn d = (.ok got, d) ∧
      (got.map plainRow).Perm (t.rows.map plainRow) := by
  obtain ⟨stores, slot, desc, h, consistent, here, rfl⟩ := represents.stored member
  have held := consistent.held _ (List.mem_of_getElem? here)
  obtain ⟨sorted, same, shelved⟩ := held.parts.shelved
  obtain ⟨got, ran, rows⟩ := shelved.scan (consistent.listed here)
    (fun e member => held.parts.filed (same.mem_iff.mp member) 0) copy
  refine ⟨got, ran, ?_⟩
  rw [rows, plain_depicted]
  exact same.map _

/-- Small tables are shown. -/
theorem Represents.shows (represents : Represents home d db) (member : t ∈ db)
    (noDouble : ∀ column ∈ t.schema.columns, column.type ≠ .kDouble)
    (few : t.rows.length ≤ kTieFreeEntries) :
    ∃ table, Shows d t.name table ∧ table.schema = t.schema ∧
      table.rows.Perm (t.rows.map plainRow) ∧
      ∀ column, table.indexed column = (flags t.schema t.indexed).getD column false := by
  obtain ⟨stores, slot, desc, h, consistent, here, rfl⟩ := represents.stored member
  rw [length_depicted] at few
  rw [plain_depicted]
  exact consistent.shows here noDouble few

/-- What is shown is a table of the database. -/
theorem Shows.depicts (shows_ : Shows d name table) (represents : Represents home d db) :
    ∃ t ∈ db, t.name = name ∧ table.schema = t.schema ∧ table.rows.Perm (t.rows.map plainRow) := by
  obtain ⟨rows, flags, info, -⟩ := shows_.info
  cases represents.looked name with
  | missing isNone there none_ => cases info.symm.trans none_
  | found t isTable only there schema info' =>
    have member := List.mem_of_find?_eq_some isTable
    have hits := List.find?_some isTable
    obtain rfl : t.name = name := of_decide_eq_true hits
    have same := info.symm.trans info'
    obtain ⟨got, ran, isRows⟩ := shows_.scans true
    obtain ⟨got', ran', perm⟩ := represents.scanned member true
    cases ran.symm.trans ran'
    have sameInfo := Option.some.inj (Except.ok.inj (Prod.mk.inj same).1)
    exact ⟨t, member, rfl, congrArg TableInfo.schema sameInfo, isRows ▸ perm⟩

private theorem Finds.models {names : List Text} (finds : Finds d names find)
    (represents : Represents home d db) : Models db names find where
  there name isName table found := (finds.there name isName table found).depicts represents
  missing name isName none_ t member same := by
    have missing := finds.missing name isName none_
    cases represents.looked name with
    | missing isNone there info =>
      have differ := List.find?_eq_none.mp isNone t member
      exact differ (decide_eq_true same)
    | found t isTable only there schema info => cases missing.symm.trans info

end Tables

section Answers

/-- A table is as its rows are, whatever their order and whatever else is in their fields. -/
theorem regular_plain {ends : Bool} {schema : Schema} {rows rows' : List Row}
    (regular : Regular ends s schema rows) (same : rows'.Perm (rows.map plainRow)) :
    Regular ends s schema rows' := by
  refine ⟨fun areEnds grouped row isRow field isField => ?_, regular.named⟩
  obtain ⟨old, isOld, rfl⟩ := List.mem_map.mp (same.mem_iff.mp isRow)
  obtain ⟨from_, isFrom, rfl⟩ := List.mem_map.mp isField
  have noZero := regular.noZeros areEnds grouped old isOld from_ isFrom
  unfold Field.plain
  dsimp only
  split
  · exact List.not_mem_nil
  · exact noZero

/-- A SELECT on the disk comes to what it may come to over the database. -/
theorem Selects.meant (selected : Selects toChars d s outcome) (regularly : Regularly d s)
    (represents : Represents home d db) (asked : Asked s) : Meant toChars db s outcome := by
  obtain ⟨finds, fair, ran⟩ := selected
  refine .means (finds.models represents) ?_
  obtain ⟨result, ended, means⟩ := @runSelect_means toChars _ _ _
    (fun alone table found => (regularly alone table
      (finds.there _ List.mem_cons_self table found)).forbid _) fair asked
  cases ran.symm.trans ended
  exact means

/-- The small tables that a SELECT names are found. -/
theorem Represents.finds (represents : Represents home d db) (names : List Text)
    (noDouble : ∀ t ∈ db, t.name ∈ names → ∀ column ∈ t.schema.columns, column.type ≠ .kDouble)
    (few : ∀ t ∈ db, t.name ∈ names → t.rows.length ≤ kTieFreeEntries) :
    ∃ find, Finds d names find ∧ ∀ name table, find name = some table → Shows d name table := by
  have each : ∀ name, ∃ found : Option Table, (∀ table, found = some table → Shows d name table) ∧
      (name ∈ names → found = none → (findTable name).runOn d = (.ok none, d)) := by
    intro name
    cases represents.looked name with
    | missing isNone there info => exact ⟨none, (fun table none_ => by cases none_), fun _ _ => info⟩
    | found t isTable only there schema info =>
      have member := List.mem_of_find?_eq_some isTable
      have hits := List.find?_some isTable
      obtain rfl : t.name = name := of_decide_eq_true hits
      by_cases isNamed : t.name ∈ names
      · obtain ⟨table, shows_, -⟩ :=
          represents.shows member (noDouble t member isNamed) (few t member isNamed)
        exact ⟨some table, fun other same => Option.some.inj same ▸ shows_,
          fun _ none_ => by cases none_⟩
      · exact ⟨none, (fun table none_ => by cases none_), fun is => absurd is isNamed⟩
  choose find there missing using each
  exact ⟨find, ⟨fun name _ => there name, missing⟩, there⟩

end Answers

section Sessions

/-- `SELECT name FROM members WHERE name < 'F' ORDER BY id, name LIMIT 2`. -/
def firstNames : SelectStmt where
  columns := [{ column := bytes "name" }]
  from_ := { name := bytes "members" }
  where_ := [{ left := { column := bytes "name" }, op := .kLt, literal := .ofText (bytes "F") }]
  orderBy := [{ value := { column := bytes "id" } }, { value := { column := bytes "name" } }]
  limit := some 2

private theorem asked_firstNames : Asked firstNames :=
  ⟨by decide, by decide, by decide, by decide⟩

private theorem noDouble_founded : ∀ t ∈ founded databaseCalls [],
    ∀ column ∈ t.schema.columns, column.type ≠ .kDouble := by decide +kernel

private theorem few_founded : ∀ t ∈ founded databaseCalls [], t.rows.length ≤ kTieFreeEntries := by
  decide +kernel

private theorem regular_founded : ∀ t ∈ founded databaseCalls [],
    Regular true firstNames t.schema t.rows := by
  have only : founded databaseCalls [] = [members] := by decide +kernel
  intro t member
  rw [only, List.mem_singleton] at member
  subst member
  exact ⟨fun _ _ => by decide, fun _ => by decide +kernel⟩

/-- A SELECT of the members, by a plan that the planner may choose. -/
private theorem selected_founded : ∃ outcome,
    Selects (fun _ => []) (founded callsAbove (fresh 1)) firstNames outcome ∧
      Regularly (founded callsAbove (fresh 1)) firstNames := by
  let choices : Choices := { ends := true, pick := fun _ _ => none, cheapest := fun _ _ => 0 }
  have fair : choices.Fair := ⟨rfl, fun _ _ some_ => List.length_pos_iff.mpr some_⟩
  have regularly : Regularly (founded callsAbove (fresh 1)) firstNames := by
    intro _ table shows_
    obtain ⟨t, member, -, schema, rows⟩ := shows_.depicts represents_founded
    rw [schema]
    exact regular_plain (regular_founded t member) rows
  obtain ⟨find, finds, -⟩ := represents_founded.finds (named firstNames)
    (fun t member _ => noDouble_founded t member) fun t member _ => few_founded t member
  obtain ⟨result, ran, -⟩ := @runSelect_means (fun _ => []) find firstNames choices
    (fun alone table found => regularly alone table (finds.there _ List.mem_cons_self table found))
    fair asked_firstNames
  exact ⟨outcomeOf result, .ran finds fair ran, regularly⟩

section Statements

variable {σ : Type} {calls : Calls σ} {selects : σ → SelectStmt → Outcome → Prop} {room : σ → Prop}
  {memory committed : σ} {i : InsertStmt}

/-- A SELECT outside a transaction changes nothing, however it ends. -/
private theorem selects_alone (answers : selects memory s outcome) (fits : room memory) :
    Session.Step calls selects room (.start memory) (.kSelect s) outcome (.start memory) := by
  cases outcome with
  | ok result => exact .done _ _ result memory (.select s memory _ answers) fits
  | error raised => exact .failed _ _ raised memory (.select s memory _ answers) fits

private theorem inserts_alone {result : ResultSet}
    (ran : ((runInsert calls i).runOn memory).1 = .ok result)
    (fits : room ((runInsert calls i).leaves memory)) :
    Session.Step calls selects room (.start memory) (.kInsert i) (.ok result)
      (.start ((runInsert calls i).leaves memory)) :=
  .done _ _ result _ (ran ▸ .insert i memory) fits

private theorem inserts_inside {result : ResultSet}
    (ran : ((runInsert calls i).runOn memory).1 = .ok result)
    (fits : room ((runInsert calls i).leaves memory)) :
    Session.Step calls selects room ⟨memory, committed, true⟩ (.kInsert i) (.ok result)
      ⟨(runInsert calls i).leaves memory, committed, true⟩ :=
  .done ⟨memory, committed, true⟩ _ result _ (ran ▸ .insert i memory) fits

private theorem insert_fails {raised : Raised}
    (ran : ((runInsert calls i).runOn memory).1 = .error raised)
    (fits : room ((runInsert calls i).leaves memory)) :
    Session.Step calls selects room ⟨memory, committed, true⟩ (.kInsert i) (.error raised)
      (.start committed) :=
  .failed ⟨memory, committed, true⟩ _ raised _ (ran ▸ .insert i memory) fits

end Statements

end Sessions

end Labdb.Engine
