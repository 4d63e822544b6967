import Labdb.Exec.Limit
import Labdb.Exec.Scans

/-! Filters and lists of columns over a scan: a limit above them reads no further in batches
than it does by rows. -/

namespace Labdb.Exec

open Labdb.Catalog Labdb.Query Labdb.Record

/-- A plan of filters and lists of columns over a scan. -/
inductive Chain where
  | scan
  | filter (preds : List BoundComparison) (child : Chain)
  | project (cols : List Nat) (child : Chain)

namespace Chain

def op (scan : Operator) : Chain → Operator
  | .scan => scan
  | .filter preds child => Exec.filter (child.op scan) preds
  | .project cols child => Exec.project (child.op scan) cols

/-- The types of its rows. -/
def types (scanTypes : List ColType) : Chain → List ColType
  | .scan => scanTypes
  | .filter _ child => child.types scanTypes
  | .project cols child => listedTypes (child.types scanTypes) cols

/-- Its terms compare sides of one class, and its columns exist. -/
def Fits (scanTypes : List ColType) : Chain → Prop
  | .scan => True
  | .filter preds child =>
    child.Fits scanTypes ∧ ∀ pred ∈ preds, Typed (child.types scanTypes) pred
  | .project cols child =>
    child.Fits scanTypes ∧ ∀ col ∈ cols, col < (child.types scanTypes).length

/-- What is made of a row of the scan, if it passes every filter. -/
def make : Chain → Row → Option Row
  | .scan => some
  | .filter preds child => filterMake child.make preds
  | .project cols child => projectMake child.make cols

/-- The plan over a scan that was opened. -/
def opened {scan : Operator} (running : Running scan) : (chain : Chain) → Running (chain.op scan)
  | .scan => running
  | .filter _ child => { state := child.opened running }
  | .project _ child => { state := { input := child.opened running } }

/-- The scan below a plan. -/
def scanned {scan : Operator} : (chain : Chain) → Running (chain.op scan) → Running scan
  | .scan, running => running
  | .filter _ child, running => child.scanned running.state
  | .project _ child, running => child.scanned running.state.input

/-- The rows that the scan below a plan has left. -/
def left {scan : Operator} (scanTypes : List ColType)
    (scanLeft : Running scan → List Row → Nat → Prop) :
    (chain : Chain) → Running (chain.op scan) → List Row → Nat → Prop
  | .scan => scanLeft
  | .filter _ child => fun running => child.left scanTypes scanLeft running.state
  | .project _ child => fun running =>
    ProjectLeft (child.types scanTypes) (child.left scanTypes scanLeft) running.state

section Reads

variable {scan : Operator} {scanTypes : List ColType}
  {scanLeft : Running scan → List Row → Nat → Prop}

theorem reads (scanReads : Reads scanTypes some scan scanLeft) (chain : Chain)
    (fits : chain.Fits scanTypes) :
    Reads (chain.types scanTypes) chain.make (chain.op scan) (chain.left scanTypes scanLeft) := by
  induction chain with
  | scan => exact scanReads
  | filter preds child ih => exact filter_reads (ih fits.1) fits.2
  | project cols child ih => exact project_reads (ih fits.1) fits.2

private theorem left_opened {running : Running scan} {rows : List Row} {read : Nat}
    (has : scanLeft running rows read) (chain : Chain) :
    chain.left scanTypes scanLeft (chain.opened running) rows read := by
  induction chain with
  | scan => exact has
  | filter preds child ih => exact ih
  | project cols child ih => exact ⟨ih, backs_empty _⟩

private theorem left_scanned (chain : Chain) {running : Running (chain.op scan)} {rows : List Row}
    {read : Nat} (has : chain.left scanTypes scanLeft running rows read) :
    scanLeft (chain.scanned running) rows read := by
  induction chain generalizing rows read with
  | scan => exact has
  | filter preds child ih => exact ih has
  | project cols child ih => exact ih has.1

end Reads

end Chain

/-- A row of values that are no NaNs. -/
def Numbers (row : Row) : Prop := ∀ field ∈ row, field.Ordered

private theorem ordered_plain {field : Field} (ordered : field.Ordered) : field.plain.Ordered := by
  intro double
  change field.type = .kDouble at double
  have number := ordered double
  unfold Field.plain Field.f64
  cases null : field.isNull with
  | true =>
    dsimp only
    rw [Bool.true_or, if_pos rfl]
    decide
  | false =>
    dsimp only
    rw [double]
    exact number

private theorem typedRow_plain {schema : Schema} {row : Row} (fits : RowMatches schema row)
    (numbers : Numbers row) : TypedRow (columnTypes schema) (row.map Field.plain) := by
  refine ⟨?_, fun field member => ?_⟩
  · rw [List.map_map]
    have same : schema.columns.map Column.type = row.map Field.type := by
      rw [← List.forall₂_eq_eq_eq, List.forall₂_map_left_iff, List.forall₂_map_right_iff]
      exact fits.imp fun column field matches_ => matches_.type.symm
    exact same.symm
  · obtain ⟨before, here, rfl⟩ := List.mem_map.mp member
    exact ordered_plain (numbers before here)

/-- Run by row and in batches, a limit over a plan hands out the same rows, and the scan below
has read the same number of them: up to the `n`-th that passes. -/
def ReadAlike (chain : Chain) (n : Nat) {scan : Operator} (types : List ColType)
    (start : scan.State) (rows : List Row) : Prop :=
  let plan : Running (limit (chain.op scan) n) :=
    { state := { input := chain.opened { state := start } } }
  ∀ (out : Row) (calls : Nat), rows.length < calls →
  ∀ (batch : Batch) (budgets : List Nat), Backs (chain.types types) batch →
    (∀ max ∈ budgets, 0 < max) → rows.length < budgets.length →
  ∃ byRow byBatch afterRows afterBatches read,
    (limit (chain.op scan) n).drain calls plan out = .ok (byRow, afterRows) ∧
    (limit (chain.op scan) n).drainBatches budgets plan batch = .ok (byBatch, afterBatches) ∧
    byRow.map (List.map Field.plain) = byBatch ∧
    byBatch = ((rows.map (List.map Field.plain)).filterMap chain.make).take n ∧
    (chain.scanned afterRows.state.input).rowsOut = read ∧
    (chain.scanned afterBatches.state.input).rowsOut = read ∧
    StopsAt (passes chain.make) n (rows.map (List.map Field.plain)) read

private theorem Scans.readAlike {op : Operator} {types : List ColType} {batchRows : Nat}
    {raws : op.State → List Row → Prop} (scans : Scans types batchRows op raws)
    (positive : 0 < batchRows) {chain : Chain} (fits : chain.Fits types) (n : Nat)
    {start : op.State} {rows : List Row} (has : raws start rows)
    (typed : ∀ row ∈ rows, TypedRow types (row.map Field.plain)) :
    ReadAlike chain n types start rows := by
  intro out calls enough batch budgets backs each enoughBatches
  rw [← List.length_map (List.map Field.plain)] at enough enoughBatches
  have typedRows : ∀ row ∈ rows.map (List.map Field.plain), TypedRow types row := by
    intro row member
    obtain ⟨before, here, rfl⟩ := List.mem_map.mp member
    exact typed before here
  have opened : chain.left types (ScanLeft types raws) (chain.opened { state := start })
      (rows.map (List.map Field.plain)) 0 :=
    chain.left_opened ⟨rfl, rows, has, rfl, typedRows⟩
  have reads := chain.reads (scans.reads positive) fits
  have limited : LimitLeft chain.make (chain.left types (ScanLeft types raws)) _
      { input := chain.opened { state := start } } (rows.map (List.map Field.plain)) 0 :=
    ⟨opened, rfl⟩
  obtain ⟨byRow, afterRows, restRows, ranRows, sameRows, leftRows⟩ :=
    @limit_drain _ _ _ _ _ 0 n { state := { input := chain.opened { state := start } } } reads _
      calls limited enough out
  obtain ⟨byBatch, afterBatches, restBatches, ranBatches, sameBatches, leftBatches⟩ :=
    @limit_drainBatches _ _ _ _ _ 0 n { state := { input := chain.opened { state := start } } }
      reads _ budgets each limited enoughBatches batch backs
  obtain ⟨readRows, -⟩ := chain.left_scanned leftRows
  obtain ⟨readBatches, -⟩ := chain.left_scanned leftBatches
  rw [Nat.zero_add] at readRows readBatches
  exact ⟨byRow, byBatch, afterRows, afterBatches, _, ranRows, ranBatches,
    sameRows.trans sameBatches.symm, sameBatches, readRows, readBatches, readTo_stops _ _ _⟩

/-- The operators that a chain stands for, over one that reads a table. -/
def Chain.plan (source : Plan) : Chain → Plan
  | .scan => source
  | .filter preds child => .filter (child.plan source) preds
  | .project cols child => .project (child.plan source) cols

/-- What is planned for the comparisons of a table is a chain whose terms fit. -/
theorem planned_fits {toChars : Double → Text} {pick : List Candidate → Option Nat} {table : Table}
    {ref : Sql.TableRef} {terms : List Sql.Comparison} {access : Access}
    (literals : ∀ c ∈ terms, c.literal.Ordered)
    (planned : planAccess toChars pick table (tableSchema table.schema ref) terms = .ok access) :
    ∃ (chain : Chain) (picked : Option Candidate),
      access.op = chain.plan (accessSource table (tableSchema table.schema ref) picked) ∧
        chain.Fits (columnTypes table.schema) := by
  obtain ⟨bound, bound_eq, planned⟩ := ok_of_bind planned
  dsimp only at planned
  generalize (pick (candidates table (tableSchema table.schema ref) bound)).bind
    ((candidates table (tableSchema table.schema ref) bound)[·]?) = picked at planned
  cases planned
  have types : (tableSchema table.schema ref).map (fun column => column.column.type) =
      columnTypes table.schema := by
    rw [tableSchema, List.map_map]
    rfl
  let preds := bound.filter fun b => !consumed (tableSchema table.schema ref) picked b
  by_cases nothing : preds = []
  · exact ⟨.scan, picked, if_pos nothing, trivial⟩
  · refine ⟨.filter preds .scan, picked, if_neg nothing, trivial, fun pred member => ?_⟩
    obtain ⟨c, isTerm, isBound⟩ := mem_mapM bound_eq (List.mem_filter.mp member).1
    exact types ▸ bind_typed isBound (literals c isTerm)

/-- A limit over filters and lists of columns above the scan of a table, or of an index between
two keys: in batches of any size it reads as far as it does by rows. -/
theorem limit_reads_alike (chain : Chain) (n batchRows : Nat) (positive : 0 < batchRows) :
    (∀ (cursor : TableCursor) (rows : List Row),
      List.Forall₂ (Stored cursor.schema cursor.pages) cursor.entries rows →
      (∀ row ∈ rows, Numbers row) → chain.Fits (columnTypes cursor.schema) →
      @ReadAlike chain n (seqScan (columnTypes cursor.schema) batchRows)
        (columnTypes cursor.schema) cursor rows) ∧
    ∀ (cursor : IndexCursor) (lo hi : Key) (rows : List Row),
      List.Forall₂ (Stored cursor.schema cursor.pages)
        (if hi < lo then []
          else IndexCursor.inRange (cursor.tree.dropWhile fun entry => entry.1 < lo) hi) rows →
      (∀ row ∈ rows, Numbers row) → chain.Fits (columnTypes cursor.schema) →
      @ReadAlike chain n (indexScan (columnTypes cursor.schema) batchRows)
        (columnTypes cursor.schema) (openIndexScan cursor lo hi) rows := by
  have typed : ∀ {schema pages} {entries : List UInt64} {rows : List Row},
      List.Forall₂ (Stored schema pages) entries rows → (∀ row ∈ rows, Numbers row) →
      ∀ row ∈ rows, TypedRow (columnTypes schema) (row.map Field.plain) := by
    intro schema pages entries rows stored numbers row member
    have matches_ : RowMatches schema row := by
      clear numbers
      induction stored with
      | nil => cases member
      | cons first _ ih =>
        rcases List.mem_cons.mp member with rfl | later
        · exact first.1
        · exact ih later
    exact typedRow_plain matches_ (numbers row member)
  refine ⟨fun cursor rows stored numbers fits => ?_, fun cursor lo hi rows stored numbers fits => ?_⟩
  · exact (seqScan_scans cursor.schema batchRows positive).readAlike positive fits n
      ⟨rfl, stored⟩ (typed stored numbers)
  · refine (indexScan_scans cursor.schema batchRows positive).readAlike positive fits n ?_
      (typed stored numbers)
    unfold openIndexScan
    by_cases empty : hi < lo
    · rw [if_pos empty] at stored ⊢
      exact List.forall₂_nil_left_iff.mp stored
    · rw [if_neg empty] at stored ⊢
      exact ⟨rfl, _, rfl, stored⟩

/-- One row past a filter, a column of it twice, of a table whose rows lie on two pages. -/
theorem limit_reads_alike_one :
    let schema : Schema := ⟨[⟨bytes "id", .kInt64, false⟩]⟩
    let pages : Pages := fun page slot =>
      if page = 7 then some [0, slot.toUInt8 + 1, 0, 0, 0, 0, 0, 0, 0]
      else some [0, 9, 0, 0, 0, 0, 0, 0, 0]
    let values := [ridEncode ⟨7, 0⟩, ridEncode ⟨8, 0⟩, ridEncode ⟨7, 1⟩]
    let rows : List Row := [[.ofInt64 1], [.ofInt64 9], [.ofInt64 2]]
    let cursor : TableCursor := { schema, pages, copy := false, entries := values }
    let index : IndexCursor := { schema, pages, copy := false, tree := [1, 3, 5].zip values }
    let chain : Chain :=
      .project [0, 0] (.filter [{ op := .kGt, literal := .ofInt64 1 }] .scan)
    @ReadAlike chain 1 (seqScan (columnTypes schema) 2) (columnTypes schema) cursor rows ∧
      @ReadAlike chain 1 (indexScan (columnTypes schema) 2) (columnTypes schema)
        (openIndexScan index 2 9) (rows.drop 1) := by
  intro schema pages values rows cursor index chain
  have stored : List.Forall₂ (Stored schema pages) values rows := by
    refine .cons ⟨.cons ⟨rfl, ?_, ?_⟩ .nil, [0, 1, 0, 0, 0, 0, 0, 0, 0], ?_, ?_, ?_⟩
      (.cons ⟨.cons ⟨rfl, ?_, ?_⟩ .nil, [0, 9, 0, 0, 0, 0, 0, 0, 0], ?_, ?_, ?_⟩
        (.cons ⟨.cons ⟨rfl, ?_, ?_⟩ .nil, [0, 2, 0, 0, 0, 0, 0, 0, 0], ?_, ?_, ?_⟩ .nil)) <;>
      decide
  have numbers : ∀ row ∈ rows, Numbers row := by
    unfold Numbers Field.Ordered
    decide
  have fits : chain.Fits (columnTypes schema) := by
    refine ⟨⟨trivial, fun pred member => ?_⟩, by decide⟩
    rw [List.mem_singleton.mp member]
    refine ⟨?_, nofun, ?_, ?_, ?_, nofun⟩ <;> decide
  obtain ⟨table, indexed⟩ := limit_reads_alike chain 1 2 (by decide)
  exact ⟨table cursor rows stored numbers fits, indexed index 2 9 (rows.drop 1)
    (List.forall₂_drop 1 stored) (fun row member => numbers row (List.mem_of_mem_drop member)) fits⟩

end Labdb.Exec
