import Labdb.BTree.Cursors
import Labdb.Engine.Creation

/-! What `create_index` makes of the disk of a database: the rows there are go into the new index, as
a cursor of the table's tree meets them. -/

namespace Labdb.Engine

open Labdb.BTree Labdb.Catalog Labdb.Data Labdb.Heap Labdb.Program Labdb.Query Labdb.Record

variable {d d' d₀ : Disk} {home root : PageNo} {stores : List Listing} {slot column : Nat}
  {desc first : RawDesc} {g g₀ : Estate} {h : Holding} {tables : List RawDesc} {alloc : Allocator}
  {rows done todo : List (RID × Row)} {rid : RID} {row : Row} {c : Cursor}

theorem plain_isNull (field : Field) : field.plain.isNull = field.isNull := rfl

/-- What an index keeps of a value is there in what is read from a record. -/
theorem orderKey_plain {field : Field} (known : field.isNull = false) :
    orderKey field.plain = orderKey field := by
  unfold orderKey Field.plain Field.f64
  rw [known]
  cases field.type <;> rfl

private theorem fileInIndex_plain {table : Text} {value : Value} {field : Field}
    (known : field.isNull = false) :
    fileInIndex alloc table column root field.plain value =
      fileInIndex alloc table column root field value := by
  unfold fileInIndex
  rw [orderKey_plain known]

/-- The field of a column is read from the record of a row. -/
theorem Fileable.projected {schema : Schema} (fileable : Fileable schema row)
    (inside : column < schema.columns.length) :
    project schema (recordOf schema row) column = .ok (Row.at row column).plain := by
  have encoded := encoded_of_encode fileable.fits fileable.encodes
  have isField : row[column]? = some (Row.at row column) := by
    have within := encoded.count ▸ inside
    rw [Row.at, List.getD_eq_getElem?_getD, List.getElem?_eq_getElem within]
    rfl
  exact encoded.project_eq fileable.short fileable.fits isField

/-- A cursor of the table's tree that has those rows ahead of it. -/
def Ahead (d : Disk) (desc : RawDesc) (g : Estate) (c : Cursor) (todo : List (RID × Row)) : Prop :=
  ∃ h : Nat, ∃ t : BTree.Tree h, Tenant true (d.view desc.btreeRoot.toNat) t ∧ t.ids = g.tree ∧
    Walking (d.view desc.btreeRoot.toNat) t.leaves c (todo.map keyEntry)

/-- Pages of other trees were written since. -/
theorem Ahead.congr {g' : Estate} (ahead : Ahead d desc g c todo) (tree : g'.tree = g.tree)
    (same : ∀ id ∈ g.tree, d'.nodes id = d.nodes id ∧ id ∈ d'.used) : Ahead d' desc g' c todo := by
  obtain ⟨h, t, tenant, ids, walking⟩ := ahead
  have tenant' : Tenant true (d'.view desc.btreeRoot.toNat) t := Tenant.congr tenant
    (fun id member => (same id (ids ▸ member)).1) (fun id member => (same id (ids ▸ member)).2) rfl
  exact ⟨h, t, tenant', ids.trans tree.symm, walking.congr tenant'.chain⟩

theorem Ahead.next {e : RID × Row} (ahead : Ahead d desc g c (e :: todo)) :
    ∃ c', (onTree desc.btreeRoot.toNat nobody c.next).runOn d = (.ok c', d) ∧
      Ahead d desc g c' todo := by
  obtain ⟨h, t, tenant, ids, walking⟩ := ahead
  obtain ⟨c', moved, walking'⟩ := walking.next
  exact ⟨c', runOn_onTree_read moved, h, t, tenant, ids, walking'⟩

theorem Ahead.current (ahead : Ahead d desc g c todo) : c.current = (todo.map keyEntry).head? := by
  obtain ⟨h, t, tenant, ids, walking⟩ := ahead
  exact walking.reads.current

/-- The loop of `create_index` files the rows ahead. Induction on these; the index holds those
before. -/
theorem fileRows_spec {filed rounds : Nat}
    (working : Working d₀ tables slot g₀ d desc g)
    (parts : Parts d desc g rows rows (Function.update (fun _ => rows) column done))
    (ahead : Ahead d desc g c todo) (within : ∀ e ∈ todo, e ∈ rows) (enough : todo.length < rounds)
    (schema : first.schema = desc.schema) (tree : first.btreeRoot = desc.btreeRoot)
    {index : PageId} (isRoot : desc.indexRoots[column]? = some index) (real : index ≠ kNullPage)
    (fits : ((fileRows alloc desc.name first column rounds c index.toNat filed).leaves d).Small) :
    ∃ d' index' g', (fileRows alloc desc.name first column rounds c index.toNat filed).runOn d =
        (.ok (filed + todo.countP fun e => (Row.at e.2 column).isNull = false), d') ∧
      index' ≠ kNullPage ∧
      Working d₀ tables slot g₀ d' { desc with indexRoots := desc.indexRoots.set column index' } g' ∧
      Parts d' { desc with indexRoots := desc.indexRoots.set column index' } g' rows rows
        (Function.update (fun _ => rows) column (done ++ todo)) := by
  induction todo generalizing d desc g done c rounds filed index with
  | nil =>
    obtain ⟨rounds, rfl⟩ := Nat.exists_eq_succ_of_ne_zero (Nat.ne_of_gt enough)
    have current : c.current = none := ahead.current
    have same : desc.indexRoots.set column index = desc.indexRoots := by
      obtain ⟨_, rfl⟩ := List.getElem?_eq_some_iff.mp isRoot
      exact List.set_getElem_self _
    refine ⟨d, index, g, ?_, real, ?_, ?_⟩
    · unfold fileRows
      rw [current]
      rfl
    · rw [same]
      exact working
    · rw [same, List.append_nil]
      exact parts
  | cons e todo ih =>
    obtain ⟨rounds, rfl⟩ := Nat.exists_eq_succ_of_ne_zero
      (Nat.ne_of_gt (Nat.zero_lt_of_lt enough))
    have isRow := within e List.mem_cons_self
    have others : ∀ other ∈ todo, other ∈ rows := fun other member =>
      within other (List.mem_cons_of_mem _ member)
    have few := Nat.lt_of_succ_lt_succ enough
    have current : c.current = some (keyEntry e) := ahead.current
    have inside := (parts.root_inside isRoot real).2
    have fileable := parts.fileable e isRow
    have isRecord : (e.1, recordOf desc.schema e.2) ∈
        rows.map fun e => (e.1, recordOf desc.schema e.2) := List.mem_map_of_mem isRow
    have got : (heapGet (ridDecode (keyEntry e).2)).runOn d = (.ok (recordOf desc.schema e.2), d) := by
      rw [keyEntry, ridDecode_ridEncode]
      exact parts.heap.get isRecord
    have read := @runOn_checked_ok Disk _ _ _ (fileable.projected inside) d
    unfold fileRows at fits ⊢
    rw [current] at fits ⊢
    dsimp only at fits ⊢
    rw [schema, tree] at fits ⊢
    rw [Stateful.leaves_bind_ok got, Stateful.leaves_bind_ok read, plain_isNull] at fits
    rw [Stateful.runOn_bind_ok got, Stateful.runOn_bind_ok read, plain_isNull]
    cases null : (Row.at e.2 column).isNull with
    | true =>
      obtain ⟨c', moved, ahead'⟩ := ahead.next
      rw [null, if_pos rfl, Stateful.leaves_bind_ok moved] at fits
      rw [if_pos rfl, Stateful.runOn_bind_ok moved]
      have parts' : Parts d desc g rows rows (Function.update (fun _ => rows) column (done ++ [e])) := by
        refine parts.reindex fun other _ _ _ => ?_
        by_cases isIt : other = column
        · subst isIt
          rw [Function.update_self, Function.update_self]
          exact columnEntries_null null
        · rw [Function.update_of_ne isIt, Function.update_of_ne isIt]
      obtain ⟨d', index', g', ran, real', working', all⟩ :=
        ih working parts' ahead' others few schema tree isRoot real fits
      rw [List.append_assoc] at all
      refine ⟨d', index', g', ?_, real', working', all⟩
      rw [ran, List.countP_cons_of_neg]
      rw [null]
      decide
    | false =>
      rw [null, if_neg Bool.false_ne_true, fileInIndex_plain null] at fits
      rw [if_neg Bool.false_ne_true, fileInIndex_plain null]
      have first_ : ((fileInIndex alloc desc.name column index.toNat (Row.at e.2 column)
          (ridEncode e.1)).leaves d).Small := by
        refine Disk.Small.first (fun root => ?_) fits
        exact (grows_onTree grows_nobody (treeGrows_next c)).bind fun c =>
          grows_fileRows _ _ _ _ _ _ _
      have eight : column < 8 := Nat.lt_of_lt_of_le inside
        (working.listed.lists.holds slot desc working.listed.here).few
      obtain ⟨d₁, index₁, g₁, filed₁, real₁, isTree, kept, working₁, parts₁⟩ :=
        working.fileInIndex parts e.1 e.2 isRoot real eight null first_
      have filed₁ : (fileInIndex alloc desc.name column index.toNat (Row.at e.2 column)
          (keyEntry e).2).runOn d = (.ok index₁.toNat, d₁) := filed₁
      rw [Stateful.leaves_bind_ok filed₁] at fits
      rw [Stateful.runOn_bind_ok filed₁]
      obtain ⟨c', moved, ahead₁⟩ := (ahead.congr isTree kept).next
      rw [Stateful.leaves_bind_ok moved] at fits
      rw [Stateful.runOn_bind_ok moved]
      rw [Function.update_self, Function.update_idem] at parts₁
      have isRoot₁ : (desc.indexRoots.set column index₁)[column]? = some index₁ :=
        List.getElem?_set_self (List.getElem?_eq_some_iff.mp isRoot).1
      obtain ⟨d', index', g', ran, real', working', all⟩ :=
        ih working₁ parts₁ ahead₁ others few schema tree isRoot₁ real₁ fits
      rw [List.append_assoc, List.set_set] at all
      rw [List.set_set] at working'
      refine ⟨d', index', g', ?_, real', working', all⟩
      have ran : (fileRows alloc desc.name first column rounds c' index₁.toNat (filed + 1)).runOn d₁ =
        _ := ran
      rw [ran, List.countP_cons_of_pos, Nat.add_assoc, Nat.add_comm 1]
      rw [null]
      decide

/-- A cursor from the start of the table's tree has all rows ahead of it. -/
theorem Parts.ahead {inIndex : Nat → List (RID × Row)} (parts : Parts d desc g rows rows inIndex) :
    ∃ c todo, (onTree desc.btreeRoot.toNat nobody (seek true 0)).runOn d = (.ok c, d) ∧
      todo.Perm rows ∧ Ahead d desc g c todo ∧ todo.length ≤ d.used.length * kLeafMaxEntries := by
  obtain ⟨h, t, tenant, ids, perm⟩ := parts.tree
  obtain ⟨c, sought, walking⟩ := tenant.walking 0
  have all : (entriesOf t.items).filter (fun e => decide ((0 : Key) ≤ e.1)) = entriesOf t.items :=
    List.filter_eq_self.mpr fun e _ => decide_eq_true (UInt64.zero_le)
  obtain ⟨todo, same, entries⟩ := perm_of_map perm
  have few := tenant.few
  rw [all, entries] at walking
  rw [entries, List.length_map] at few
  exact ⟨c, todo, runOn_onTree_read sought, same, ⟨h, t, tenant, ids, walking⟩, few⟩

/-- An index is planted: its root is on the page of the catalog, and nothing is filed in it yet. -/
theorem Working.plantIndex (working : Working d₀ tables slot g₀ d desc g)
    (parts : Parts d desc g rows rows fun _ => rows) (fresh : desc.indexRoots[column]? = some kNullPage)
    (positive : 0 < column) (inside : column < desc.schema.columns.length) (few : column < 8)
    (holds : IndexHolds d' root [root] []) (takes : Takes d [] d' [root])
    (catalog : d'.catalog = d.catalog) (small : root < 2 ^ 32) :
    ∃ g', Working d₀ tables slot g₀
        { d' with catalog := d.catalog.store32 (rootAt slot column) root.toUInt32 }
        { desc with indexRoots := desc.indexRoots.set column root.toUInt32 } g' ∧
      Parts { d' with catalog := d.catalog.store32 (rootAt slot column) root.toUInt32 }
        { desc with indexRoots := desc.indexRoots.set column root.toUInt32 } g' rows rows
        (Function.update (fun _ => rows) column []) := by
  have spread : column < g.index.length := parts.spread.symm ▸ inside
  have here := List.getElem?_eq_getElem spread
  have rootInside := (List.getElem?_eq_some_iff.mp fresh).1
  have listed := working.listed.update (writes_indexRoot few root.toUInt32)
  rw [List.set_set] at listed
  have listed' : Listed d'.catalog (tables.set slot desc) slot desc := by
    rw [catalog]
    exact working.listed
  have moved : Working d₀ tables slot g₀ d' desc { g with index := g.index.set column [root] } :=
    working.step (takes.instead _) (Estate.pages_index here) (Estate.pages_setIndex spread [root])
      listed'
  have kept := parts.kept takes working.owns (List.disjoint_nil_right _)
  have isRoot : { desc with indexRoots := desc.indexRoots.set column root.toUInt32 }.indexRoots[column]? =
      some root.toUInt32 := List.getElem?_set_self rootInside
  refine ⟨{ g with index := g.index.set column [root] }, moved.withCatalog listed, ?_⟩
  have planted : Parts d' { desc with indexRoots := desc.indexRoots.set column root.toUInt32 }
      { g with index := g.index.set column [root] } rows rows
      (Function.update (fun _ => rows) column []) := by
    refine ⟨kept.heap, kept.tree, ?_, kept.pages, List.length_set.trans kept.spread, ?_, kept.fileable⟩
    · intro c other isOther real
      by_cases isIt : c = column
      · subst isIt
        rw [isRoot] at isOther
        obtain rfl := Option.some.inj isOther
        refine ⟨[root], List.getElem?_set_self spread, ?_⟩
        rw [Function.update_self, toNat_toUInt32 small]
        exact holds
      · have apart : column ≠ c := fun same => isIt same.symm
        have isOther : desc.indexRoots[c]? = some other := (List.getElem?_set_ne apart).symm.trans isOther
        obtain ⟨ids, place, others⟩ := kept.index c other isOther real
        refine ⟨ids, (List.getElem?_set_ne apart).trans place, ?_⟩
        rw [Function.update_of_ne isIt]
        exact others
    · have keyRoot := kept.keyRoot
      rw [List.getD_eq_getElem?_getD] at keyRoot ⊢
      rw [List.getElem?_set_ne (Nat.ne_of_gt positive)]
      exact keyRoot
  exact planted.withCatalog moved.owns _

/-- The rows there are go into an index that holds none. -/
theorem Working.backfill (working : Working d₀ tables slot g₀ d desc g)
    (parts : Parts d desc g rows rows (Function.update (fun _ => rows) column []))
    (schema : first.schema = desc.schema) (tree : first.btreeRoot = desc.btreeRoot)
    {index : PageId} (isRoot : desc.indexRoots[column]? = some index) (real : index ≠ kNullPage)
    (fits : ((do
      let c ← onTree first.btreeRoot.toNat nobody (seek true 0)
      let s ← get
      fileRows alloc desc.name first column (s.used.length * kLeafMaxEntries + 1) c index.toNat 0 :
        DiskM Nat).leaves d).Small) :
    ∃ d' index' g', (do
      let c ← onTree first.btreeRoot.toNat nobody (seek true 0)
      let s ← get
      fileRows alloc desc.name first column (s.used.length * kLeafMaxEntries + 1) c index.toNat 0 :
        DiskM Nat).runOn d = (.ok (rows.countP fun e => (Row.at e.2 column).isNull = false), d') ∧
      index' ≠ kNullPage ∧
      Working d₀ tables slot g₀ d' { desc with indexRoots := desc.indexRoots.set column index' } g' ∧
      Parts d' { desc with indexRoots := desc.indexRoots.set column index' } g' rows rows
        fun _ => rows := by
  obtain ⟨c, todo, sought, perm, ahead, enough⟩ := parts.ahead
  have got : (get : DiskM Disk).runOn d = (.ok d, d) := rfl
  rw [← tree] at sought
  rw [Stateful.leaves_bind_ok sought, Stateful.leaves_bind_ok got] at fits
  rw [Stateful.runOn_bind_ok sought, Stateful.runOn_bind_ok got]
  obtain ⟨d', index', g', ran, real', working', parts'⟩ := fileRows_spec working parts ahead
    (fun e member => perm.mem_iff.mp member) (Nat.lt_succ_of_le enough) schema tree isRoot real fits
  refine ⟨d', index', g', ?_, real', working', parts'.reorder fun other _ _ _ => ?_⟩
  · rw [ran, Nat.zero_add, perm.countP_eq]
  · by_cases isIt : other = column
    · subst isIt
      rw [Function.update_self]
      exact (perm.filter _).map _
    · rw [Function.update_of_ne isIt]

/-- A column that has no index gets one, in which the rows there are are filed. -/
theorem createIndex_files (consistent : Consistent d home stores)
    (here : stores[slot]? = some (desc, h)) (fresh : desc.indexRoots[column]? = some kNullPage)
    (positive : 0 < column) (inside : column < desc.schema.columns.length)
    (fits : ((createIndex alloc desc.name column).leaves d).Small) :
    ∃ d' index h', (createIndex alloc desc.name column).runOn d =
        (.ok (h.rows.countP fun e => (Row.at e.2 column).isNull = false), d') ∧
      index ≠ kNullPage ∧ h'.rows = h.rows ∧
      Consistent d' home
        (stores.set slot ({ desc with indexRoots := desc.indexRoots.set column index }, h')) := by
  have working := consistent.start here
  have held := consistent.held _ (List.mem_of_getElem? here)
  have looked := (consistent.listed here).runOn_slotOf (bytes "no such table (create index)")
  have inRange := @runOn_checked_ok Disk _ _ _
    (checkThat_true (decide_eq_true (⟨positive, inside⟩ : 0 < column ∧ column < _))
      (bytes "index column out of range")) d
  have noIndex := @runOn_checked_ok Disk _ _ _
    (checkThat_true (decide_eq_true fresh) (bytes "the column is already indexed")) d
  have few := Nat.lt_of_lt_of_le inside
    (working.listed.lists.holds slot desc working.listed.here).few
  obtain ⟨d₁, root, planted, -, holds, takes, -, catalog⟩ := plantTree_spec alloc d
  have saved : (saveCatalogPage (d.catalog.store32 (rootAt slot column) root.toUInt32)).runOn d₁ =
    (.ok (), { d₁ with catalog := d.catalog.store32 (rootAt slot column) root.toUInt32 }) := rfl
  unfold createIndex at fits ⊢
  rw [Stateful.leaves_bind_ok looked] at fits
  rw [Stateful.runOn_bind_ok looked]
  dsimp only at fits ⊢
  rw [Stateful.leaves_bind_ok inRange, Stateful.leaves_bind_ok noIndex,
    Stateful.leaves_bind_ok planted, Stateful.leaves_bind_ok saved] at fits
  rw [Stateful.runOn_bind_ok inRange, Stateful.runOn_bind_ok noIndex, Stateful.runOn_bind_ok planted,
    Stateful.runOn_bind_ok saved]
  have climbs : Grows (do
      let c ← onTree desc.btreeRoot.toNat nobody (seek true 0)
      let s ← get
      fileRows alloc desc.name desc column (s.used.length * kLeafMaxEntries + 1) c root 0) :=
    (grows_onTree grows_nobody (treeGrows_seek 0)).bind fun _ =>
      Grows.get.bind fun _ => grows_fileRows _ _ _ _ _ _ _
  have used := climbs { d₁ with catalog := d.catalog.store32 (rootAt slot column) root.toUInt32 }
  have small : d₁.Small := Disk.Small.of_subset fits used
  have rootSmall := small root (takes.owned root List.mem_cons_self)
  have same := toNat_toUInt32 rootSmall
  have real : root.toUInt32 ≠ kNullPage := by
    intro zero
    rw [zero] at same
    exact holds.owns.real root List.mem_cons_self same.symm
  obtain ⟨g₂, working₂, parts₂⟩ := working.plantIndex held.parts fresh positive inside few holds takes
    catalog rootSmall
  have rootThere : (desc.indexRoots.set column root.toUInt32)[column]? = some root.toUInt32 :=
    List.getElem?_set_self (List.getElem?_eq_some_iff.mp fresh).1
  have backfilled := @Working.backfill _ _ slot column _ desc _ _ _ alloc _ working₂ parts₂ rfl rfl
    root.toUInt32 rootThere real
  rw [same] at backfilled
  obtain ⟨d', index, g', ran, real', working', parts'⟩ := backfilled fits
  rw [List.set_set] at working' parts'
  rw [Stateful.leaves_eq ran] at fits
  exact ⟨d', index, ⟨g', h.rows⟩, ran, real', rfl,
    consistent.finish here working' ⟨parts', held.counted, held.unique⟩ fits⟩

private theorem indexed_at {roots : List PageId} :
    (indexed roots)[column]? = some false ↔ roots[column]? = some kNullPage := by
  rw [indexed, List.getElem?_map, Option.map_eq_some_iff]
  constructor
  · rintro ⟨root, here, flag⟩
    rw [here, Decidable.not_not.mp (of_decide_eq_false flag)]
  · exact fun here => ⟨_, here, by decide⟩

/-- `create_index` on the disk marks a column of the database as indexed, or refuses it. -/
theorem createIndex_refines {table : Text} {db : List Relation} (represents : Represents home d db)
    (fits : ((createIndex alloc table column).leaves d).Small) :
    Stateful.Alike (Represents home) (Represents home) ((createIndex alloc table column).runOn d)
      ((DatabaseM.createIndex table column).runOn db) := by
  obtain ⟨stores, consistent, rfl⟩ := represents
  have same : Represents home d (stores.map depicted) := ⟨stores, consistent, rfl⟩
  rcases listing_or_none stores table with ⟨slot, desc, h, here, rfl⟩ | absent
  · have looked := (consistent.listed here).runOn_slotOf (bytes "no such table (create index)")
    have described := consistent.described here (bytes "no such table (create index)")
    have isSchema : (depicted (desc, h)).schema = desc.schema := rfl
    have isIndexed : (depicted (desc, h)).indexed = indexed desc.indexRoots := rfl
    have rows : (depicted (desc, h)).rows = h.rows.map Prod.snd := rfl
    unfold DatabaseM.createIndex
    rw [Stateful.runOn_bind_ok described, isSchema, isIndexed, rows]
    by_cases inside : 0 < column ∧ column < desc.schema.columns.length
    · have check := checkThat_true (decide_eq_true inside) (bytes "index column out of range")
      rw [Stateful.runOn_bind_ok (runOn_checked_ok check _)]
      by_cases fresh : desc.indexRoots[column]? = some kNullPage
      · obtain ⟨d', index, h', ran, real, isRows, consistent'⟩ :=
          createIndex_files consistent here fresh inside.1 inside.2 fits
        have check := checkThat_true (decide_eq_true (indexed_at.mpr fresh))
          (bytes "the column is already indexed")
        rw [Stateful.runOn_bind_ok (runOn_checked_ok check _), ran, List.countP_map]
        refine .ok _ ⟨_, consistent', consistent.changing here ?_⟩
        simp only [depicted, isRows, indexed, List.map_set, decide_eq_true real]
      · have check := checkThat_false (decide_eq_false fresh) (bytes "the column is already indexed")
        have check' := checkThat_false (decide_eq_false (mt indexed_at.mp fresh))
          (bytes "the column is already indexed")
        have inRange := checkThat_true (decide_eq_true inside) (bytes "index column out of range")
        have ran : (createIndex alloc desc.name column).runOn d =
            (.error (.failed (bytes "the column is already indexed")), d) := by
          unfold createIndex
          rw [Stateful.runOn_bind_ok looked]
          dsimp only
          rw [Stateful.runOn_bind_ok (runOn_checked_ok inRange _)]
          exact Stateful.runOn_bind_error (runOn_checked_error check _)
        rw [ran, Stateful.runOn_bind_error (runOn_checked_error check' _)]
        exact .error _ same
    · have check := checkThat_false (decide_eq_false inside) (bytes "index column out of range")
      have ran : (createIndex alloc desc.name column).runOn d =
          (.error (.failed (bytes "index column out of range")), d) := by
        unfold createIndex
        rw [Stateful.runOn_bind_ok looked]
        exact Stateful.runOn_bind_error (runOn_checked_error check _)
      rw [ran, Stateful.runOn_bind_error (runOn_checked_error check _)]
      exact .error _ same
  · have missing := runOn_slotOf_none consistent.lists absent (bytes "no such table (create index)")
    have ran : (createIndex alloc table column).runOn d = (.error (.failed
        (bytes "no such table (create index)")), d) := Stateful.runOn_bind_error missing
    have described := described_none absent (bytes "no such table (create index)")
    unfold DatabaseM.createIndex
    rw [ran, Stateful.runOn_bind_error described]
    exact .error _ same

end Labdb.Engine
