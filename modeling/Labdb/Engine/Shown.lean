import Labdb.Engine.Reads
import Labdb.Engine.Statements
import Labdb.Query.AccessRows
import Labdb.Query.Columns
import Mathlib.Data.List.Find

/-! A table on the disk is one that the operators of a query can read: what its cursors and its
search come to, on the disk of any database. -/

namespace Labdb.Engine

open Labdb.BTree Labdb.Catalog Labdb.Data Labdb.Heap Labdb.Program Labdb.Query Labdb.Record

variable {d : Disk} {home : PageNo} {db : List Relation} {desc : RawDesc} {h : Holding} {g : Estate}
  {column slot : Nat} {rows sorted : List (RID × Row)} {stores : List Listing} {row : Row}

private theorem at_plainRow (row : Row) (column : Nat) :
    Row.at (plainRow row) column = (Row.at row column).plain := by
  unfold Row.at plainRow
  rw [List.getD_eq_getElem?_getD, List.getD_eq_getElem?_getD, List.getElem?_map]
  cases row[column]? <;> rfl

section Shelves

/-- The entry of a row in the index of a column. -/
def columnEntry (column : Nat) (e : RID × Row) : Key × Value :=
  (orderKey (Row.at e.2 column), ridEncode e.1)

/-- The rows that have their place in the index of a column. -/
def known (column : Nat) (rows : List (RID × Row)) : List (RID × Row) :=
  rows.filter fun e => (Row.at e.2 column).isNull = false

theorem Fileable.key {schema : Schema} (fileable : Fileable schema row) :
    (Row.at row 0).isNull = false ∧ (Row.at row 0).type = .kInt64 := by
  have isKeyed := fileable.keyed
  cases row with
  | nil => cases isKeyed
  | cons key rest =>
    obtain ⟨type, known⟩ := of_decide_eq_true isKeyed
    exact ⟨known, type⟩

theorem Fileable.keyEntry {schema : Schema} {e : RID × Row} (fileable : Fileable schema e.2) :
    Engine.keyEntry e = columnEntry 0 e := by
  unfold Engine.keyEntry columnEntry orderKey
  rw [fileable.key.2]
  rfl

private theorem known_key {schema : Schema} (fileable : ∀ e ∈ rows, Fileable schema e.2) :
    known 0 rows = rows :=
  List.filter_eq_self.mpr fun e member => decide_eq_true (fileable e member).key.1

/-- The rows of a table in the order of its own tree. -/
theorem Parts.shelved {inIndex : Nat → List (RID × Row)} (parts : Parts d desc g rows rows inIndex) :
    ∃ sorted, sorted.Perm rows ∧
      Shelved d true desc.btreeRoot.toNat (columnEntry 0) sorted := by
  obtain ⟨h, t, tenant, -, perm⟩ := parts.tree
  obtain ⟨sorted, same, entries⟩ := perm_of_map perm
  refine ⟨sorted, same, h, t, tenant, entries.trans (List.map_congr_left fun e member => ?_)⟩
  exact (parts.fileable e (same.mem_iff.mp member)).keyEntry

/-- The rows of a table in the order of an index. -/
theorem Parts.shelvedIn {inIndex : Nat → List (RID × Row)}
    (parts : Parts d desc g rows rows inIndex) {root : PageId}
    (isRoot : desc.indexRoots[column]? = some root) (real : root ≠ kNullPage)
    (few : (inIndex column).length ≤ kTieFreeEntries) :
    ∃ sorted, sorted.Perm (known column (inIndex column)) ∧
      Shelved d false root.toNat (columnEntry column) sorted := by
  obtain ⟨ids, -, h, t, leaves, -, -, perm, sparse⟩ := parts.index column root isRoot real
  have length : (columnEntries column (inIndex column)).length ≤ (inIndex column).length := by
    unfold columnEntries
    rw [List.length_map]
    exact List.length_filter_le _ _
  obtain ⟨tenant, rfl⟩ := sparse (length.trans few)
  rw [← t.entries_leaves tenant.sound] at perm
  have perm : (entriesOf t.items).Perm ((known column (inIndex column)).map (columnEntry column)) := perm
  obtain ⟨sorted, same, entries⟩ := perm_of_map perm
  exact ⟨sorted, same, h, t, tenant, entries⟩

theorem Parts.filed {inIndex : Nat → List (RID × Row)} (parts : Parts d desc g rows rows inIndex)
    {e : RID × Row} (member : e ∈ rows) (column : Nat) :
    Filed d desc.schema (columnEntry column e) e.2 := by
  have isRecord : (e.1, recordOf desc.schema e.2) ∈
      rows.map fun e => (e.1, recordOf desc.schema e.2) := List.mem_map_of_mem member
  refine ⟨parts.fileable e member, ?_⟩
  change (d.records (ridDecode (ridEncode e.1)).page.toNat).read _ = _
  rw [columnEntry, ridDecode_ridEncode]
  exact parts.heap.read isRecord

theorem Shelved.strict {root : PageNo} {entry : RID × Row → Key × Value}
    (shelved : Shelved d true root entry sorted) :
    sorted.Pairwise fun a b => (entry a).1 < (entry b).1 := by
  obtain ⟨h, t, tenant, entries⟩ := shelved
  have inOrder := tenant.inOrder.entries
  rw [entries, List.pairwise_map] at inOrder
  exact inOrder

/-- The tree in which the rows are filed by a column: the table's own by its key. -/
theorem Held.shelf (held : Held d desc h) (few : h.rows.length ≤ kTieFreeEntries)
    (isIndexed : (flags desc.schema (indexed desc.indexRoots)).getD column false = true) :
    ∃ sorted, indexRoot column desc ≠ kNullPage ∧ sorted.Perm (known column h.rows) ∧
      Shelved d (decide (column = 0)) (indexRoot column desc).toNat (columnEntry column) sorted := by
  by_cases isKey : column = 0
  · subst isKey
    obtain ⟨sorted, same, shelved⟩ := held.parts.shelved
    refine ⟨sorted, fun null => ?_, ?_, shelved⟩
    · have tree := held.parts.tree
      apply tree.owns.real _ tree.root_mem
      change (indexRoot 0 desc).toNat = 0
      rw [null]
      rfl
    · rw [known_key held.parts.fileable]
      exact same
  · unfold flags at isIndexed
    rw [List.getD_eq_getElem?_getD, List.getElem?_map] at isIndexed
    cases inside : (List.range desc.schema.columns.length)[column]? with
    | none =>
      rw [inside] at isIndexed
      cases isIndexed
    | some other =>
      obtain ⟨_, isIt⟩ := List.getElem?_eq_some_iff.mp inside
      rw [List.getElem_range] at isIt
      subst isIt
      rw [inside] at isIndexed
      simp only [Option.map_some, Option.getD_some, isKey, decide_false, Bool.false_or, indexed,
        List.getD_eq_getElem?_getD, List.getElem?_map] at isIndexed
      cases isRoot : desc.indexRoots[column]? with
      | none =>
        rw [isRoot] at isIndexed
        cases isIndexed
      | some root =>
        rw [isRoot] at isIndexed
        have real : root ≠ kNullPage := of_decide_eq_true isIndexed
        have same : indexRoot column desc = root := by
          unfold indexRoot
          rw [if_neg isKey, List.getD_eq_getElem?_getD, isRoot]
          rfl
        obtain ⟨sorted, perm, shelved⟩ := held.parts.shelvedIn isRoot real few
        rw [same, decide_eq_false isKey]
        exact ⟨sorted, real, perm, shelved⟩

end Shelves

section Programs

variable {tables : List RawDesc} {lo hi : Key} {copy : Bool}

private theorem Listed.runOn_descOf (listed : Listed d.catalog tables slot desc) :
    (descOf desc.name).runOn d = (.ok desc, d) := by
  unfold descOf
  rw [Stateful.runOn_bind_ok (listed.runOn_slotOf _)]
  rfl

theorem Listed.runOn_indexOf (listed : Listed d.catalog tables slot desc)
    (real : indexRoot column desc ≠ kNullPage) :
    (indexOf desc.name column).runOn d = (.ok (desc, (indexRoot column desc).toNat), d) := by
  have check := checkThat_true (decide_eq_true real) (bytes "no index on this column")
  unfold indexOf
  rw [Stateful.runOn_bind_ok listed.runOn_descOf]
  dsimp only
  rw [Stateful.runOn_bind_ok (runOn_checked_ok check d)]
  rfl

theorem readAll_opened {opened : DiskM RowCursor} {c : RowCursor} (ran : opened.runOn d = (.ok c, d)) :
    (readAll opened).runOn d = (readAll (pure c)).runOn d := by
  unfold readAll
  rw [Stateful.runOn_bind_ok ran]
  rfl

/-- A scan hands out the rows of the table in the order of its tree. -/
theorem Shelved.scan (shelved : Shelved d true desc.btreeRoot.toNat (columnEntry 0) sorted)
    (listed : Listed d.catalog tables slot desc)
    (filed : ∀ e ∈ sorted, Filed d desc.schema (columnEntry 0 e) e.2) (copy : Bool) :
    ∃ got, (readAll (openCursor copy desc.name)).runOn d = (.ok got, d) ∧
      got.map plainRow = sorted.map fun e => plainRow e.2 := by
  obtain ⟨cur, sought, facing⟩ := shelved.seek 0 filed
  let c : RowCursor :=
    { schema := desc.schema
      root := desc.btreeRoot.toNat
      unique := true
      copy
      message := scanMessage
      cur := some cur }
  have opened : (openCursor copy desc.name).runOn d = (.ok c, d) := by
    unfold openCursor
    rw [Stateful.runOn_bind_ok listed.runOn_descOf, Stateful.runOn_bind_ok sought]
    rfl
  obtain ⟨got, ran, rows⟩ := shelved.handsOut (facing c rfl rfl rfl)
  have every : (sorted.filter fun e =>
      decide ((0 : Key) ≤ (columnEntry 0 e).1) && c.within (columnEntry 0 e).1) = sorted :=
    List.filter_eq_self.mpr fun e _ =>
      (congrArg (· && true) (decide_eq_true UInt64.zero_le)).trans rfl
  rw [every] at rows
  exact ⟨got, (readAll_opened opened).trans ran, rows⟩

/-- A walk through an index hands out the rows in its range, by their keys. -/
theorem Shelved.range
    (shelved : Shelved d (decide (column = 0)) (indexRoot column desc).toNat (columnEntry column) sorted)
    (listed : Listed d.catalog tables slot desc) (real : indexRoot column desc ≠ kNullPage)
    (filed : ∀ e ∈ sorted, Filed d desc.schema (columnEntry column e) e.2) (copy : Bool) (lo hi : Key) :
    ∃ got, (readAll (openRange copy desc.name column lo hi)).runOn d = (.ok got, d) ∧
      got.map plainRow = (sorted.filter fun e => decide (lo ≤ (columnEntry column e).1) &&
        decide ((columnEntry column e).1 ≤ hi)).map fun e => plainRow e.2 := by
  obtain ⟨cur, sought, facing⟩ := shelved.seek lo filed
  let before : RowCursor :=
    { schema := desc.schema
      root := (indexRoot column desc).toNat
      unique := decide (column = 0)
      copy
      message := indexMessage }
  let c : RowCursor := { before with cur := some cur, hi := some hi }
  have index : (openIndex copy desc.name column).runOn d = (.ok before, d) := by
    unfold openIndex
    rw [Stateful.runOn_bind_ok (listed.runOn_indexOf real)]
    rfl
  have opened : (openRange copy desc.name column lo hi).runOn d = (.ok c, d) := by
    unfold openRange
    rw [Stateful.runOn_bind_ok index]
    exact Stateful.runOn_bind_ok sought
  have within : c.within = fun key => decide (key ≤ hi) := by
    funext key
    exact decide_not.symm.trans (decide_eq_decide.mpr UInt64.not_lt)
  obtain ⟨got, ran, rows⟩ := shelved.handsOut (facing c rfl rfl rfl)
  rw [within] at rows
  exact ⟨got, (readAll_opened opened).trans ran, rows⟩

private theorem plainRow_plainRow (row : Row) : plainRow (plainRow row) = plainRow row := by
  unfold plainRow
  rw [List.map_map]
  exact List.map_congr_left fun field _ => field.plain_plain

/-- A search by key finds the row with that key. -/
theorem Shelved.search (shelved : Shelved d true desc.btreeRoot.toNat (columnEntry 0) sorted)
    (listed : Listed d.catalog tables slot desc)
    (filed : ∀ e ∈ sorted, Filed d desc.schema (columnEntry 0 e) e.2) (copy : Bool) (key : Key) :
    ∃ got, (getByKey copy desc.name key).runOn d = (.ok got, d) ∧ got.map plainRow =
      (sorted.find? fun e => (columnEntry 0 e).1 = tableKey key.toInt64).map fun e => plainRow e.2 := by
  obtain ⟨h, t, tenant, entries⟩ := shelved
  obtain ⟨found, searched, isFound⟩ := tenant.search (tableKey key.toInt64)
  have read := @runOn_onTree_read d _ _ nobody _ _ searched
  unfold getByKey
  rw [Stateful.runOn_bind_ok listed.runOn_descOf, Stateful.runOn_bind_ok read]
  rw [entries] at isFound
  cases hit : sorted.find? fun e => (columnEntry 0 e).1 = tableKey key.toInt64 with
  | none =>
    have nothing : found = none := by
      cases found with
      | none => rfl
      | some value =>
        obtain ⟨e, member, same⟩ := List.mem_map.mp ((isFound value).mp rfl)
        have misses := List.find?_eq_none.mp hit e member
        exact absurd (decide_eq_true (congrArg Prod.fst same)) misses
    rw [nothing]
    exact ⟨none, rfl, rfl⟩
  | some e =>
    have member := List.mem_of_find?_eq_some hit
    have hits := List.find?_some hit
    have isKey : (columnEntry 0 e).1 = tableKey key.toInt64 := of_decide_eq_true hits
    have isEntry : found = some (columnEntry 0 e).2 := by
      apply (isFound _).mpr
      rw [← isKey]
      exact List.mem_map_of_mem member
    obtain ⟨fits, -, encodes, -, short⟩ := (filed e member).1
    have decoded := (encoded_of_encode fits encodes).decode_eq short fits
    rw [isEntry]
    dsimp only
    rw [Stateful.runOn_bind_ok ((filed e member).recordAt copy _),
      Stateful.runOn_bind_ok (runOn_checked_ok decoded d)]
    exact ⟨_, rfl, congrArg some (plainRow_plainRow e.2)⟩

end Programs

/-- What the reads of a table come to on the disk is what the operators of a query are handed. -/
structure Shows (d : Disk) (name : Text) (table : Table) : Prop where
  info : ∃ rows flags, (findTable name).runOn d = (.ok (some ⟨table.schema, rows, flags⟩), d) ∧
    ∀ column, table.indexed column = flags.getD column false
  scans : ∀ copy, ∃ got, (readAll (openCursor copy name)).runOn d = (.ok got, d) ∧
    got.map plainRow = table.rows
  searches : ∀ copy key, ∃ got, (getByKey copy name key).runOn d = (.ok got, d) ∧
    got.map plainRow = table.byKey key
  walks : ∀ copy column, table.indexed column = true → ∀ lo hi,
    ∃ got, (readAll (openRange copy name column lo hi)).runOn d = (.ok got, d) ∧
      got.map plainRow = (table.index column).rows lo hi

section Shown

theorem typed_plainRow {schema : Schema} (fits : RowMatches schema row) (ref : Sql.TableRef) :
    TypedRow (tableSchema schema ref) (plainRow row) := by
  have length := fits.length_eq
  have size : (plainRow row).length = (tableSchema schema ref).length := by
    unfold plainRow tableSchema
    rw [List.length_map, List.length_map]
    exact length.symm
  refine ⟨size, fun position inside => ?_⟩
  rw [at_plainRow]
  have within : position < row.length := by
    rw [← size, plainRow, List.length_map] at inside
    exact inside
  have isField : row[position]? = some (Row.at row position) := by
    rw [Row.at, List.getD_eq_getElem?_getD, List.getElem?_eq_getElem within]
    rfl
  obtain ⟨column, isColumn, matches_⟩ := fits.column isField
  unfold typeAt tableSchema
  rw [List.getElem?_map, isColumn]
  exact matches_.type

theorem between_plain {e : RID × Row} {lo hi : Key} (known : (Row.at e.2 column).isNull = false) :
    IndexWalk.between column lo hi (plainRow e.2) = (decide (lo ≤ (columnEntry column e).1) &&
      decide ((columnEntry column e).1 ≤ hi)) := by
  unfold IndexWalk.between columnEntry
  rw [at_plainRow, plain_isNull, known, orderKey_plain known]
  rfl

private theorem filter_between {lo hi : Key} (rows : List (RID × Row)) :
    (rows.filter fun e => IndexWalk.between column lo hi (plainRow e.2)) =
      (known column rows).filter fun e => decide (lo ≤ (columnEntry column e).1) &&
        decide ((columnEntry column e).1 ≤ hi) := by
  unfold known
  rw [List.filter_filter]
  refine List.filter_congr fun e _ => ?_
  cases isNull : (Row.at e.2 column).isNull with
  | true =>
    have none_ : IndexWalk.between column lo hi (plainRow e.2) = false := by
      unfold IndexWalk.between
      rw [at_plainRow, plain_isNull, isNull]
      rfl
    rw [none_]
    exact (Bool.and_false _).symm
  | false =>
    rw [between_plain isNull]
    exact (Bool.and_true _).symm

theorem Fileable.plain_key {schema : Schema} {e : RID × Row} (fileable : Fileable schema e.2) :
    (Row.at (plainRow e.2) 0).i64 = (Row.at e.2 0).i64 := by
  obtain ⟨known, type⟩ := fileable.key
  rw [at_plainRow]
  unfold Field.plain
  rw [known, type]
  rfl

theorem Fileable.entry_key {schema : Schema} {e : RID × Row} (fileable : Fileable schema e.2) :
    (columnEntry 0 e).1 = tableKey (Row.at (plainRow e.2) 0).i64 := by
  rw [fileable.plain_key, ← fileable.keyEntry]
  rfl

theorem find_key {schema : Schema} (fileable : ∀ e ∈ sorted, Fileable schema e.2) (key : Int64) :
    ((sorted.find? fun e => (columnEntry 0 e).1 = tableKey key).map fun e => plainRow e.2) =
      (sorted.map fun e => plainRow e.2).find? fun row =>
        tableKey (Row.at row 0).i64 = tableKey key := by
  rw [List.find?_map]
  apply congrArg (Option.map fun e : RID × Row => plainRow e.2)
  refine List.find?_congr fun e member => ?_
  rw [(fileable e member).entry_key]
  rfl

/-- A row is found by its key, which no other has. -/
theorem find_ascending {rows : List Row}
    (ascends : rows.Pairwise fun a b => (Row.at a 0).i64 < (Row.at b 0).i64) (key : Int64) (row : Row) :
    rows.find? (fun row => tableKey (Row.at row 0).i64 = tableKey key) = some row ↔
      row ∈ rows ∧ (Row.at row 0).i64 = key := by
  constructor
  · intro found
    have hits := List.find?_some found
    exact ⟨List.mem_of_find?_eq_some found, tableKey_inj.mp (of_decide_eq_true hits)⟩
  · rintro ⟨member, rfl⟩
    obtain ⟨i, here⟩ := List.getElem?_of_mem member
    have once : (rows.map fun row => tableKey (Row.at row 0).i64).Nodup := by
      refine List.pairwise_map.mpr (ascends.imp fun less same => ?_)
      exact Int64.lt_irrefl (tableKey_inj.mp same ▸ less)
    exact find?_named once here

/-- Filed in the order of the table's own tree, rows have ascending keys. -/
theorem Shelved.ascends {root : PageNo} (shelved : Shelved d true root (columnEntry 0) sorted)
    {schema : Schema} (fileable : ∀ e ∈ sorted, Fileable schema e.2) :
    (sorted.map fun e => plainRow e.2).Pairwise fun a b => (Row.at a 0).i64 < (Row.at b 0).i64 := by
  rw [List.pairwise_map]
  refine shelved.strict.imp_of_mem fun {a b} isA isB before => ?_
  rw [(fileable a isA).entry_key, (fileable b isB).entry_key] at before
  exact tableKey_lt.mp before

/-- Filed in an index, rows have their keys in order. -/
theorem Shelved.inOrder {unique : Bool} {root : PageNo} {lo hi : Key}
    (shelved : Shelved d unique root (columnEntry column) sorted)
    (known : ∀ e ∈ sorted, (Row.at e.2 column).isNull = false) :
    ((sorted.filter fun e => decide (lo ≤ (columnEntry column e).1) &&
      decide ((columnEntry column e).1 ≤ hi)).map fun e => plainRow e.2).Pairwise fun a b =>
        orderKey (Row.at a column) ≤ orderKey (Row.at b column) := by
  rw [List.pairwise_map]
  refine (shelved.ascending.filter _).imp_of_mem fun {a b} isA isB before => ?_
  have knownA := known a (List.mem_filter.mp isA).1
  have knownB := known b (List.mem_filter.mp isB).1
  rw [at_plainRow, at_plainRow, orderKey_plain knownA, orderKey_plain knownB]
  exact before

/-- The rows that an index has in a range. -/
theorem perm_between {lo hi : Key} {order : List (RID × Row)}
    (perm : order.Perm (known column rows)) :
    ((order.filter fun e => decide (lo ≤ (columnEntry column e).1) &&
      decide ((columnEntry column e).1 ≤ hi)).map fun e => plainRow e.2).Perm
        ((rows.map fun e => plainRow e.2).filter (IndexWalk.between column lo hi)) := by
  have places := @filter_between column lo hi rows
  rw [List.filter_map]
  exact ((perm.filter _).trans (List.Perm.of_eq places.symm)).map _

/-- A table of the catalog is shown, as long as it has too few rows for its indexes to lose their
order. -/
theorem Consistent.shows (consistent : Consistent d home stores)
    (here : stores[slot]? = some (desc, h))
    (noDouble : ∀ column ∈ desc.schema.columns, column.type ≠ .kDouble)
    (few : h.rows.length ≤ kTieFreeEntries) :
    ∃ table, Shows d desc.name table ∧ table.schema = desc.schema ∧
      table.rows.Perm (h.rows.map fun e => plainRow e.2) ∧
      ∀ column, table.indexed column = (flags desc.schema (indexed desc.indexRoots)).getD column false := by
  have listed := consistent.listed here
  have held := consistent.held _ (List.mem_of_getElem? here)
  obtain ⟨sorted, same, shelved⟩ := held.parts.shelved
  have fileable : ∀ e ∈ sorted, Fileable desc.schema e.2 := fun e member =>
    held.parts.fileable e (same.mem_iff.mp member)
  have filed : ∀ e ∈ sorted, ∀ column, Filed d desc.schema (columnEntry column e) e.2 :=
    fun e member => held.parts.filed (same.mem_iff.mp member)
  have each : ∀ column, ∃ order : List (RID × Row),
      (flags desc.schema (indexed desc.indexRoots)).getD column false = true →
        indexRoot column desc ≠ kNullPage ∧ order.Perm (known column h.rows) ∧
          Shelved d (decide (column = 0)) (indexRoot column desc).toNat (columnEntry column) order := by
    intro column
    by_cases isIndexed : (flags desc.schema (indexed desc.indexRoots)).getD column false = true
    · obtain ⟨order, isOrder⟩ := held.shelf few isIndexed
      exact ⟨order, fun _ => isOrder⟩
    · exact ⟨[], fun is => absurd is isIndexed⟩
  choose order isOrder using each
  have inOrder : ∀ column, (flags desc.schema (indexed desc.indexRoots)).getD column false = true →
      ∀ e ∈ order column, e ∈ h.rows ∧ (Row.at e.2 column).isNull = false := by
    intro column isIndexed e member
    obtain ⟨isRow, isKnown⟩ := List.mem_filter.mp ((isOrder column isIndexed).2.1.mem_iff.mp member)
    exact ⟨isRow, of_decide_eq_true isKnown⟩
  let table : Table :=
    { schema := desc.schema
      indexed := fun column => (flags desc.schema (indexed desc.indexRoots)).getD column false
      rows := sorted.map fun e => plainRow e.2
      byKey := fun key => (sorted.map fun e => plainRow e.2).find? fun row =>
        tableKey (Row.at row 0).i64 = tableKey key.toInt64
      index := fun column =>
        { rows := fun lo hi => ((order column).filter fun e =>
            decide (lo ≤ (columnEntry column e).1) && decide ((columnEntry column e).1 ≤ hi)).map
              fun e => plainRow e.2
          entries := (order column).length
          within := by
            intro lo hi
            rw [List.length_map]
            exact List.length_filter_le _ _ }
      typed := by
        intro ref row member
        obtain ⟨e, isRow, rfl⟩ := List.mem_map.mp member
        exact typed_plainRow (fileable e isRow).fits ref
      noDouble := noDouble
      keyed := by
        intro row member
        obtain ⟨e, isRow, rfl⟩ := List.mem_map.mp member
        rw [at_plainRow]
        exact (fileable e isRow).key
      ascending := shelved.ascends fileable
      searched := fun _ => rfl
      walked := by
        intro column isIndexed
        obtain ⟨-, perm, walk⟩ := isOrder column isIndexed
        have places : (order column).Perm (known column sorted) := perm.trans (same.filter _).symm
        refine ⟨fun lo hi => perm_between places, fun lo hi => walk.inOrder fun e member => ?_⟩
        exact (inOrder column isIndexed e member).2 }
  refine ⟨table, ⟨?_, ?_, ?_, ?_⟩, rfl, same.map _, fun _ => rfl⟩
  · refine ⟨desc.rows, flags desc.schema (indexed desc.indexRoots), ?_, fun _ => rfl⟩
    have loaded : loadCatalogPage.runOn d = (.ok d.catalog, d) := rfl
    have read := @runOn_checked_ok Disk _ _ _ (listed.lists.readDesc listed.here) d
    unfold findTable
    rw [Stateful.runOn_bind_ok loaded, listed.found]
    dsimp only
    rw [Stateful.runOn_bind_ok read]
    rfl
  · exact fun copy => shelved.scan listed (fun e member => filed e member 0) copy
  · intro copy key
    obtain ⟨got, ran, found⟩ := shelved.search listed (fun e member => filed e member 0) copy key
    refine ⟨got, ran, found.trans ?_⟩
    exact find_key fileable key.toInt64
  · intro copy column isIndexed lo hi
    obtain ⟨real, perm, walk⟩ := isOrder column isIndexed
    exact walk.range listed real (fun e member =>
      held.parts.filed (inOrder column isIndexed e member).1 column) copy lo hi

/-- A table of the database has its place in the catalog. -/
theorem Represents.stored {t : Relation} (represents : Represents home d db) (member : t ∈ db) :
    ∃ (stores : List Listing) (slot : Nat) (desc : RawDesc) (h : Holding),
      Consistent d home stores ∧ stores[slot]? = some (desc, h) ∧ depicted (desc, h) = t := by
  obtain ⟨stores, consistent, rfl⟩ := represents
  obtain ⟨⟨desc, h⟩, isStore, rfl⟩ := List.mem_map.mp member
  obtain ⟨slot, here⟩ := List.getElem?_of_mem isStore
  exact ⟨stores, slot, desc, h, consistent, here, rfl⟩

theorem length_depicted (desc : RawDesc) (h : Holding) :
    (depicted (desc, h)).rows.length = h.rows.length := List.length_map _

theorem plain_depicted (desc : RawDesc) (h : Holding) :
    (depicted (desc, h)).rows.map plainRow = h.rows.map fun e => plainRow e.2 := by
  change (h.rows.map Prod.snd).map plainRow = _
  rw [List.map_map]
  rfl

/-- Whatever the sessions before, a table is read as it was filed: in whole by its keys, by one key,
and by a range of an index as long as it has too few rows to lose its order. -/
theorem tables_read_back {t : Relation} (represents : Represents home d db) (member : t ∈ db) (copy : Bool) :
    (∃ got, (readAll (openCursor copy t.name)).runOn d = (.ok got, d) ∧
      (got.map plainRow).Perm (t.rows.map plainRow) ∧
      (got.map plainRow).Pairwise fun a b => (Row.at a 0).i64 < (Row.at b 0).i64) ∧
    (∀ key, ∃ got, (getByKey copy t.name key).runOn d = (.ok got, d) ∧
      ∀ row, got.map plainRow = some row ↔
        row ∈ t.rows.map plainRow ∧ (Row.at row 0).i64 = key.toInt64) ∧
    (t.rows.length ≤ kTieFreeEntries →
      ∀ column, (flags t.schema t.indexed).getD column false = true → ∀ lo hi,
        ∃ got, (readAll (openRange copy t.name column lo hi)).runOn d = (.ok got, d) ∧
          (got.map plainRow).Perm
            ((t.rows.map plainRow).filter (IndexWalk.between column lo hi)) ∧
          (got.map plainRow).Pairwise fun a b =>
            orderKey (Row.at a column) ≤ orderKey (Row.at b column)) := by
  obtain ⟨stores, slot, desc, h, consistent, here, rfl⟩ := represents.stored member
  have listed := consistent.listed here
  have held := consistent.held _ (List.mem_of_getElem? here)
  have rows := plain_depicted desc h
  obtain ⟨sorted, same, shelved⟩ := held.parts.shelved
  have fileable : ∀ e ∈ sorted, Fileable desc.schema e.2 := fun e member =>
    held.parts.fileable e (same.mem_iff.mp member)
  have filed : ∀ e ∈ sorted, Filed d desc.schema (columnEntry 0 e) e.2 := fun e member =>
    held.parts.filed (same.mem_iff.mp member) 0
  have ascends := shelved.ascends fileable
  refine ⟨?_, fun key => ?_, fun few column isIndexed lo hi => ?_⟩
  · obtain ⟨got, ran, scanned⟩ := shelved.scan listed filed copy
    rw [rows]
    exact ⟨got, ran, scanned ▸ same.map _, scanned ▸ ascends⟩
  · obtain ⟨got, ran, found⟩ := shelved.search listed filed copy key
    refine ⟨got, ran, fun row => ?_⟩
    rw [found, find_key fileable, rows, find_ascending ascends, (same.map _).mem_iff]
  · rw [length_depicted] at few
    obtain ⟨order, real, perm, walk⟩ := held.shelf few isIndexed
    have isKnown : ∀ e ∈ order, e ∈ h.rows ∧ (Row.at e.2 column).isNull = false := fun e member => by
      obtain ⟨isRow, isKnown⟩ := List.mem_filter.mp (perm.mem_iff.mp member)
      exact ⟨isRow, of_decide_eq_true isKnown⟩
    obtain ⟨got, ran, walked⟩ := walk.range listed real
      (fun e member => held.parts.filed (isKnown e member).1 column) copy lo hi
    rw [rows]
    exact ⟨got, ran, walked ▸ perm_between perm,
      walked ▸ walk.inOrder fun e member => (isKnown e member).2⟩

section Members

def createMembers : Sql.CreateTableStmt where
  table := bytes "members"
  schema := ⟨[⟨bytes "id", .kInt64, false⟩, ⟨bytes "name", .kText, true⟩]⟩

def indexNames : Sql.CreateIndexStmt := { table := bytes "members", column := bytes "name" }

def memberRow (id : Int64) (name : Field) : Row := [.ofInt64 id, name]

def insertMember (id : Int64) (name : Field) : Sql.InsertStmt :=
  { table := bytes "members", values := memberRow id name }

/-- Two members of one name, one of none. -/
def memberRows : List Row :=
  [memberRow 7 (.ofText (bytes "Eve")), memberRow 3 (.ofText (bytes "Ada")),
    memberRow 5 (.null .kText), memberRow 9 (.ofText (bytes "Ada")),
    memberRow 4 (.ofText (bytes "Zoe"))]

def insertAll {σ : Type} (calls : Calls σ) (rows : List Row) (memory : σ) : σ :=
  rows.foldl (fun memory row =>
    (runInsert calls { table := bytes "members", values := row }).leaves memory) memory

/-- The table, its index and its rows, over a catalog. -/
def founded {σ : Type} (calls : Calls σ) (memory : σ) : σ :=
  insertAll calls memberRows
    ((runCreateIndex calls indexNames).leaves ((runCreate calls createMembers).leaves memory))

def callsAbove : Calls Disk := diskCalls .above fun _ => 0

theorem literal_member (id : Int64) {name : Field} (isText : name.type = .kText) :
    ∀ value ∈ memberRow id name, Literal value := by
  intro value member known isBool
  obtain rfl | rfl := List.mem_pair.mp member
  · cases isBool
  · cases isText.symm.trans isBool

/-- Rows filed one after another, as long as there is room. -/
theorem Represents.insertAll {rows : List Row} (represents : Represents home d db)
    (literal : ∀ row ∈ rows, ∀ value ∈ row, Literal value)
    (small : ∀ count ≤ rows.length, (Engine.insertAll callsAbove (rows.take count) d).Small) :
    Represents home (Engine.insertAll callsAbove rows d) (Engine.insertAll databaseCalls rows db) := by
  induction rows generalizing d db with
  | nil => exact represents
  | cons row rest ih =>
    have first := runInsert_refines { table := bytes "members", values := row } represents
      (literal row List.mem_cons_self) (small 1 (Nat.succ_le_succ (Nat.zero_le _)))
    exact ih first.leaves (fun other member => literal other (List.mem_cons_of_mem _ member))
      fun count inside => small (count + 1) (Nat.succ_le_succ inside)

theorem represents_founded : Represents 1 (founded callsAbove (fresh 1)) (founded databaseCalls []) := by
  have real : (1 : PageNo) ≠ Storage.kNullPage := by decide
  have small₁ : ((runCreate callsAbove createMembers).leaves (fresh 1)).Small := by
    change ∀ id ∈ _, _
    decide +kernel
  have created : Represents 1 ((runCreate callsAbove createMembers).leaves (fresh 1))
      ((runCreate databaseCalls createMembers).leaves []) :=
    (runCreate_refines createMembers (represents_fresh real (by decide)) (by decide) small₁).leaves
  have small₂ : ((runCreateIndex callsAbove indexNames).leaves
      ((runCreate callsAbove createMembers).leaves (fresh 1))).Small := by
    change ∀ id ∈ _, _
    decide +kernel
  have indexed := (runCreateIndex_refines indexNames created small₂).leaves
  have literal : ∀ row ∈ memberRows, ∀ value ∈ row, Literal value := by
    simp only [memberRows, List.forall_mem_cons, List.not_mem_nil, false_implies, implies_true,
      and_true]
    exact ⟨literal_member 7 rfl, literal_member 3 rfl, literal_member 5 rfl, literal_member 9 rfl,
      literal_member 4 rfl⟩
  refine indexed.insertAll literal ?_
  change ∀ count ≤ 5, ∀ id ∈ _, _
  decide +kernel

/-- The table of members. -/
def members : Relation where
  name := bytes "members"
  schema := createMembers.schema
  indexed := [false, true]
  rows := memberRows

theorem mem_founded : members ∈ founded databaseCalls [] := by decide +kernel

/-- Through the index on names, from A to F: both rows of one name, and neither the one above the
range nor the one without a name. -/
theorem tables_read_back_members :
    let d := founded callsAbove (fresh 1)
    let lo := orderKey (.ofText (bytes "A"))
    let hi := orderKey (.ofText (bytes "F"))
    ∃ got, (readAll (openRange false (bytes "members") 1 lo hi)).runOn d = (.ok got, d) ∧
      (got.map plainRow).Perm
        [memberRow 7 (.ofText (bytes "Eve")), memberRow 3 (.ofText (bytes "Ada")),
          memberRow 9 (.ofText (bytes "Ada"))] := by
  intro d lo hi
  obtain ⟨-, -, walks⟩ := tables_read_back represents_founded mem_founded false
  obtain ⟨got, ran, rows, -⟩ := walks (by decide) 1 (by decide) lo hi
  have inRange : (members.rows.map plainRow).filter (IndexWalk.between 1 lo hi) =
      [memberRow 7 (.ofText (bytes "Eve")), memberRow 3 (.ofText (bytes "Ada")),
        memberRow 9 (.ofText (bytes "Ada"))] := by decide
  exact ⟨got, ran, inRange ▸ rows⟩

end Members

end Shown

end Labdb.Engine
