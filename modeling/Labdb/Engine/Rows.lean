import Labdb.Engine.Database
import Labdb.Engine.Filing

/-! The disk of a database, table by table, and what `insert_row` makes of it. -/

namespace Labdb.Engine

open Labdb.BTree Labdb.Catalog Labdb.Data Labdb.Heap Labdb.Program Labdb.Query Labdb.Record

variable {d d' : Disk} {desc desc' : RawDesc} {slot : Nat} {home : PageNo}
  {mid new : List PageNo} {alloc : Allocator} {scratch : Memory} {row : Row} {rid : RID}

/-- What the disk holds of a table: its pages, and its rows by their addresses. -/
structure Holding where
  estate : Estate
  rows : List (RID × Row)

/-- A table whose rows are all filed, and counted; no two have one key. -/
structure Held (d : Disk) (desc : RawDesc) (h : Holding) : Prop where
  parts : Parts d desc h.estate h.rows h.rows fun _ => h.rows
  counted : desc.rows = UInt64.ofNat h.rows.length
  unique : (h.rows.map fun e => (Row.at e.2 0).i64).Nodup

/-- A table of the catalog, and what the disk holds of it. -/
abbrev Listing := RawDesc × Holding

/-- The disk of a database: the catalog lists the tables, each is held, and all pages are different,
that of the catalog among them. -/
structure Consistent (d : Disk) (home : PageNo) (stores : List Listing) : Prop where
  lists : Lists d.catalog (stores.map Prod.fst)
  held : ∀ store ∈ stores, Held d store.1 store.2
  owns : Owns d (home :: stores.flatMap fun store => store.2.estate.pages)
  small : d.Small

theorem Parts.kept {g : Estate} {inHeap inTree : List (RID × Row)} {inIndex : Nat → List (RID × Row)}
    (parts : Parts d desc g inHeap inTree inIndex) (takes : Takes d mid d' new)
    (owns : Owns d g.pages) (apart : g.pages.Disjoint mid) :
    Parts d' desc g inHeap inTree inIndex where
  heap := by
    have heapOwns : Owns d g.heap :=
      owns.sublist ((List.sublist_append_left _ _).trans (List.sublist_append_left _ _))
    exact parts.heap.kept takes heapOwns fun id inHeap =>
      apart (List.mem_append_left _ (List.mem_append_left _ inHeap))
  tree := parts.tree.kept takes fun id inTree =>
    apart (List.mem_append_left _ (List.mem_append_right _ inTree))
  index c root isRoot real := by
    obtain ⟨ids, here, holds⟩ := parts.index c root isRoot real
    refine ⟨ids, here, holds.kept takes fun id isPage => ?_⟩
    have inFlat := List.mem_flatten.mpr ⟨ids, List.mem_of_getElem? here, isPage⟩
    exact apart (List.mem_append_right _ inFlat)
  pages := parts.pages
  spread := parts.spread
  keyRoot := parts.keyRoot
  fileable := parts.fileable

/-- Only the page of the catalog was written since. -/
theorem Parts.withCatalog {g : Estate} {inHeap inTree : List (RID × Row)}
    {inIndex : Nat → List (RID × Row)} (parts : Parts d desc g inHeap inTree inIndex)
    (owns : Owns d g.pages) (p : Image) :
    Parts { d with catalog := p } desc g inHeap inTree inIndex := by
  have nothing : Owns d [] := owns.sublist (List.nil_sublist _)
  exact parts.kept ((Takes.refl nothing).withCatalog p) owns (List.disjoint_nil_right _)

section Frames

variable {stores : List Listing} {h h' : Holding}

/-- The pages of all tables, with those of one between the others. -/
theorem pages_split (here : stores[slot]? = some (desc, h)) :
    (home :: stores.flatMap fun store => store.2.estate.pages) =
      (home :: (stores.take slot).flatMap fun store => store.2.estate.pages) ++ h.estate.pages ++
        (stores.drop (slot + 1)).flatMap fun store => store.2.estate.pages := by
  have split := List.take_append_drop slot stores
  rw [List.drop_eq_getElem?_toList_append, here] at split
  have flat := congrArg (List.flatMap fun store : Listing => store.2.estate.pages) split
  rw [List.flatMap_append, List.flatMap_append, Option.toList_some, List.flatMap_singleton] at flat
  rw [← flat]
  simp only [List.cons_append, List.append_assoc]

theorem Consistent.listed (consistent : Consistent d home stores)
    (here : stores[slot]? = some (desc, h)) : Listed d.catalog (stores.map Prod.fst) slot desc := by
  refine ⟨consistent.lists, ?_⟩
  rw [List.getElem?_map, here]
  rfl

theorem Consistent.start (consistent : Consistent d home stores)
    (here : stores[slot]? = some (desc, h)) :
    Working d (stores.map Prod.fst) slot h.estate d desc h.estate := by
  have listed := consistent.listed here
  have same : (stores.map Prod.fst).set slot desc = stores.map Prod.fst := by
    obtain ⟨_, value⟩ := List.getElem?_eq_some_iff.mp listed.here
    rw [← value]
    exact List.set_getElem_self _
  have owns := consistent.owns
  rw [pages_split here] at owns
  have mine : Owns d h.estate.pages := owns.sublist
    ((List.sublist_append_right _ _).trans (List.sublist_append_left _ _))
  refine ⟨?_, Takes.refl mine, mine⟩
  rw [same]
  exact listed

/-- A table was worked on, and is held again. -/
theorem Consistent.finish (consistent : Consistent d home stores)
    (here : stores[slot]? = some (desc, h))
    (working : Working d (stores.map Prod.fst) slot h.estate d' desc' h'.estate)
    (held : Held d' desc' h') (small : d'.Small) :
    Consistent d' home (stores.set slot (desc', h')) where
  lists := by
    rw [List.map_set]
    exact working.listed.lists
  held store member := by
    have owns := consistent.owns
    rw [pages_split here] at owns
    obtain ⟨leftApart, rightApart⟩ := owns.apart
    obtain ⟨i, isStore⟩ := List.getElem?_of_mem member
    rw [List.getElem?_set] at isStore
    by_cases same : slot = i
    · rw [if_pos same] at isStore
      split at isStore
      · obtain rfl := Option.some.inj isStore
        exact held
      · cases isStore
    · rw [if_neg same] at isStore
      have before := consistent.held store (List.mem_of_getElem? isStore)
      have mine : Owns d store.2.estate.pages :=
        (consistent.start isStore).owns
      refine ⟨before.parts.kept working.takes mine fun id isPage inMid => ?_, before.counted,
        before.unique⟩
      rcases Nat.lt_or_gt_of_ne same with behind | front
      · refine rightApart (List.mem_flatMap.mpr ⟨store, ?_, isPage⟩) inMid
        refine List.mem_of_getElem? ((@List.getElem?_drop _ stores (slot + 1) (i - (slot + 1))).trans ?_)
        rw [Nat.add_sub_of_le behind]
        exact isStore
      · refine leftApart (List.mem_cons_of_mem _ (List.mem_flatMap.mpr ⟨store, ?_, isPage⟩)) inMid
        exact List.mem_of_getElem? ((List.getElem?_take_of_lt front).trans isStore)
  owns := by
    have owns := consistent.owns
    rw [pages_split here] at owns
    have inside := (List.getElem?_eq_some_iff.mp here).1
    have there : (stores.set slot (desc', h'))[slot]? = some (desc', h') := List.getElem?_set_self inside
    rw [pages_split there, List.take_set_of_le (Nat.le_refl slot),
      List.drop_set_of_lt (Nat.lt_succ_self slot)]
    exact (working.takes.between owns).owns owns
  small := small

end Frames

section Depicted

variable {stores : List Listing} {h h' : Holding} {name : Text}

/-- The table that a listing stands for. -/
def depicted (store : Listing) : Relation where
  name := store.1.name
  schema := store.1.schema
  indexed := indexed store.1.indexRoots
  rows := store.2.rows.map Prod.snd

/-- The disk is that of the database. -/
def Represents (home : PageNo) (d : Disk) (db : List Relation) : Prop :=
  ∃ stores, Consistent d home stores ∧ stores.map depicted = db

theorem Consistent.names (consistent : Consistent d home stores) :
    ((stores.map depicted).map Relation.name).Nodup := by
  have once := consistent.lists.names
  rw [List.map_map] at once ⊢
  exact once

/-- A table is looked for by its name. -/
theorem listing_or_none (stores : List Listing) (name : Text) :
    (∃ (slot : Nat) (desc : RawDesc) (h : Holding), stores[slot]? = some (desc, h) ∧
        desc.name = name) ∨
      (∀ desc ∈ stores.map Prod.fst, desc.name ≠ name) := by
  by_cases known : ∃ desc ∈ stores.map Prod.fst, desc.name = name
  · left
    obtain ⟨desc, isTable, named⟩ := known
    obtain ⟨slot, here⟩ := List.getElem?_of_mem isTable
    rw [List.getElem?_map] at here
    obtain ⟨⟨_, h⟩, there, rfl⟩ := Option.map_eq_some_iff.mp here
    exact ⟨slot, _, h, there, named⟩
  · right
    exact fun desc isTable named => known ⟨desc, isTable, named⟩

theorem Consistent.described (consistent : Consistent d home stores)
    (here : stores[slot]? = some (desc, h)) (message : Text) :
    (DatabaseM.described desc.name message).runOn (stores.map depicted) =
      (.ok (depicted (desc, h)), stores.map depicted) := by
  have isTable : (stores.map depicted)[slot]? = some (depicted (desc, h)) := by
    rw [List.getElem?_map, here]
    rfl
  have found := find?_named consistent.names isTable
  unfold DatabaseM.described
  rw [Stateful.runOn_get_bind]
  have same : (stores.map depicted).find? (fun t => t.name = desc.name) =
      some (depicted (desc, h)) := found
  rw [same]
  rfl

theorem described_none (absent : ∀ desc ∈ stores.map Prod.fst, desc.name ≠ name)
    (message : Text) :
    (DatabaseM.described name message).runOn (stores.map depicted) =
      (.error (.failed message), stores.map depicted) := by
  have missing : (stores.map depicted).find? (fun t => t.name = name) = none := by
    refine List.find?_eq_none.mpr fun t member hit => ?_
    obtain ⟨store, isStore, rfl⟩ := List.mem_map.mp member
    exact absent store.1 (List.mem_map_of_mem isStore) (of_decide_eq_true hit)
  unfold DatabaseM.described
  rw [Stateful.runOn_get_bind, missing]
  rfl

/-- What becomes of the database with a new listing for one of its tables. -/
theorem Consistent.changing (consistent : Consistent d home stores)
    (here : stores[slot]? = some (desc, h)) {change : Relation → Relation}
    (changed : depicted (desc', h') = change (depicted (desc, h))) :
    (stores.set slot (desc', h')).map depicted =
      changing desc.name change (stores.map depicted) := by
  have isTable : (stores.map depicted)[slot]? = some (depicted (desc, h)) := by
    rw [List.getElem?_map, here]
    rfl
  rw [List.map_set, changed]
  exact (map_named consistent.names isTable change).symm

end Depicted

section InsertRow

variable {stores : List Listing} {h : Holding} {rec : List UInt8}

private theorem heapInsert_refused {onNewHead : PageNo → DiskM Unit} (head : PageNo)
    (refused : ¬ (rec ≠ [] ∧ rec.length ≤ kMaxRecordSize)) :
    (heapInsert alloc scratch onNewHead head rec).runOn d = (.error (.failed
      (bytes "record does not fit in a single page (overflow pages are a later unit)")), d) := by
  unfold heapInsert
  rw [checkThat_false (decide_eq_false refused)]
  rfl

/-- A table once a row was tried: the row is there, or its key was taken and nothing is new. -/
inductive Tried (rows : List (RID × Row)) (row : Row) :
    Option RID → List (RID × Row) → Prop where
  | new (rid : RID) (absent : ∀ e ∈ rows, (Row.at e.2 0).i64 ≠ (Row.at row 0).i64) :
      Tried rows row (some rid) (rows ++ [(rid, row)])
  | taken (known : ∃ e ∈ rows, (Row.at e.2 0).i64 = (Row.at row 0).i64) : Tried rows row none rows

/-- The same table, by its name, its columns and its indexes. -/
structure SameTable (desc desc' : RawDesc) : Prop where
  name : desc'.name = desc.name
  schema : desc'.schema = desc.schema
  indexed : indexed desc'.indexRoots = indexed desc.indexRoots

theorem Working.fileRow {d₀ : Disk} {tables : List RawDesc} {g₀ g : Estate} {head : PageId}
    {pages : UInt32} {rows : List (RID × Row)}
    (working : Working d₀ tables slot g₀ d { desc with heapHead := head, heapPages := pages } g)
    (parts : Parts d { desc with heapHead := head, heapPages := pages } g (rows ++ [(rid, row)]) rows
      fun _ => rows)
    (counted : desc.rows = UInt64.ofNat rows.length)
    (unique : (rows.map fun e => (Row.at e.2 0).i64).Nodup)
    (fits : ((fileRow alloc desc.name slot desc row rid).leaves d).Small) :
    ∃ found d' desc' h', (Engine.fileRow alloc desc.name slot desc row rid).runOn d = (.ok found, d') ∧
      Working d₀ tables slot g₀ d' desc' h'.estate ∧ Held d' desc' h' ∧ SameTable desc desc' ∧
      Tried rows row found h'.rows := by
  have few : desc.schema.columns.length ≤ 8 :=
    (working.listed.lists.holds slot _ working.listed.here).few
  unfold Engine.fileRow at fits ⊢
  have first : ((onTree desc.btreeRoot.toNat
      (fun r => onCatalog (updateBtreeRoot desc.name r.toUInt32))
      (insertNew alloc true (tableKey (Row.at row 0).i64) (ridEncode rid))).leaves d).Small := by
    refine Disk.Small.first (fun isNew => ?_) fits
    split
    · exact (grows_heapErase rid).bind fun _ => .pure _
    · exact (grows_fileInIndexes _ _ _ _ _).bind fun _ => (grows_onCatalog _).bind fun _ => .pure _
  obtain ⟨isNew, d₁, root, g₁, ran, working₁, entered⟩ :=
    working.fileInTree parts rid row first
  have ran : (onTree desc.btreeRoot.toNat (fun r => onCatalog (updateBtreeRoot desc.name r.toUInt32))
      (insertNew alloc true (tableKey (Row.at row 0).i64) (ridEncode rid))).runOn d =
        (.ok isNew, d₁) := ran
  rw [Stateful.leaves_bind_ok ran] at fits
  rw [Stateful.runOn_bind_ok ran]
  rcases entered with ⟨rfl, parts₁, absent⟩ | ⟨rfl, parts₁, known⟩
  · have columns : ∀ c ∈ List.range' 1 (desc.schema.columns.length - 1), c < 8 := by
      intro c member
      have inside := (List.mem_range'_1.mp member).2
      omega
    rw [if_neg (by decide)] at fits ⊢
    have second : ((Engine.fileInIndexes alloc desc.name desc.indexRoots row rid
        (List.range' 1 (desc.schema.columns.length - 1))).leaves d₁).Small :=
      Disk.Small.first (fun _ => (grows_onCatalog _).bind fun _ => .pure _) fits
    obtain ⟨d₂, roots, g₂, filed, flags, working₂, parts₂⟩ :=
      working₁.fileInIndexes parts₁ rid row List.nodup_range' columns (fun _ _ => rfl) second
    have filed : (Engine.fileInIndexes alloc desc.name desc.indexRoots row rid
        (List.range' 1 (desc.schema.columns.length - 1))).runOn d₁ = (.ok (), d₂) := filed
    have bumped : (onCatalog (countRow slot)).runOn d₂ =
        (.ok (), { d₂ with catalog := bumpRows d₂.catalog slot }) := rfl
    rw [Stateful.runOn_bind_ok filed, Stateful.runOn_bind_ok bumped]
    have listed := working₂.listed.update writes_rows
    rw [List.set_set] at listed
    have working₃ := working₂.withCatalog listed
    refine ⟨some rid, _, _, ⟨g₂, rows ++ [(rid, row)]⟩, rfl, working₃, ⟨?_, ?_, ?_⟩,
      ⟨rfl, rfl, flags⟩, .new rid absent⟩
    · have all := @Parts.reindex _ _ _ _ _ _ (fun _ => rows ++ [(rid, row)]) parts₂
        fun c root isRoot real => by
          obtain ⟨least, most⟩ := parts₂.root_inside isRoot real
          have most : c < desc.schema.columns.length := most
          have inside : c ∈ List.range' 1 (desc.schema.columns.length - 1) :=
            List.mem_range'_1.mpr ⟨least, by omega⟩
          rw [if_pos inside]
      have parts₃ := all.withCatalog working₂.owns (bumpRows d₂.catalog slot)
      exact ⟨parts₃.heap, parts₃.tree, parts₃.index, parts₃.pages, parts₃.spread, parts₃.keyRoot,
        parts₃.fileable⟩
    · rw [List.length_append, List.length_singleton, UInt64.ofNat_add]
      exact congrArg (· + 1) counted
    · rw [List.map_append, List.nodup_append]
      refine ⟨unique, List.nodup_singleton _, ?_⟩
      intro key isOld other isNew
      obtain ⟨e, member, rfl⟩ := List.mem_map.mp isOld
      rw [List.mem_singleton.mp isNew]
      exact absent e member
  · obtain ⟨d', erased, working', parts'⟩ := working₁.takeBack parts₁
    rw [if_pos rfl, Stateful.runOn_bind_ok erased]
    exact ⟨none, d', _, ⟨g₁, rows⟩, rfl, working', ⟨parts', counted, unique⟩, ⟨rfl, rfl, rfl⟩,
      .taken known⟩

/-- A row that may be filed is filed everywhere, or taken back where its key is taken. -/
theorem insertRow_files (consistent : Consistent d home stores)
    (here : stores[slot]? = some (desc, h)) (fileable : Fileable desc.schema row)
    (fits : ((insertRow alloc scratch desc.name row).leaves d).Small) :
    ∃ found d' desc' h', (insertRow alloc scratch desc.name row).runOn d = (.ok found, d') ∧
      Consistent d' home (stores.set slot (desc', h')) ∧ SameTable desc desc' ∧
      Tried h.rows row found h'.rows := by
  have working := consistent.start here
  have held := consistent.held _ (List.mem_of_getElem? here)
  have looked := (consistent.listed here).runOn_slotOf (bytes "no such table")
  have isKeyed : (checked (checkThat (keyed row)
      (bytes "row's key column (column 0) must be a non-null Int64")) : DiskM Unit).runOn d =
        (.ok (), d) := by
    rw [checkThat_true fileable.keyed]
    rfl
  have encoded : (checked (encode desc.schema row) : DiskM (List UInt8)).runOn d =
      (.ok (recordOf desc.schema row), d) := by
    rw [fileable.encodes]
    rfl
  have ends := fits
  unfold insertRow at fits ⊢
  rw [Stateful.leaves_bind_ok looked] at fits
  rw [Stateful.runOn_bind_ok looked]
  dsimp only at fits ⊢
  rw [Stateful.leaves_bind_ok isKeyed, Stateful.leaves_bind_ok encoded] at fits
  rw [Stateful.runOn_bind_ok isKeyed, Stateful.runOn_bind_ok encoded]
  have first := Disk.Small.first (fun rid => grows_fileRow _ _ _ _ rid) fits
  obtain ⟨rid, d₁, head, pages, g₁, ran, working₁, parts₁⟩ :=
    working.fileInHeap held.parts fileable consistent.small first
  rw [Stateful.leaves_bind_ok ran] at fits
  rw [Stateful.runOn_bind_ok ran]
  obtain ⟨found, d', desc', h', filed, working', held', same, tried⟩ :=
    working₁.fileRow parts₁ held.counted held.unique fits
  rw [Stateful.leaves_eq filed] at fits
  exact ⟨found, d', desc', h', filed, consistent.finish here working' held' fits, same, tried⟩

theorem runOn_checked_ok {σ α : Type} {codec : Codec α} {value : α} (ok : codec = .ok value)
    (memory : σ) : (checked codec : Stateful Fault σ α).runOn memory = (.ok value, memory) := by
  rw [ok]
  rfl

theorem runOn_checked_error {σ α : Type} {codec : Codec α} {fault : Fault}
    (error : codec = .error fault) (memory : σ) :
    (checked codec : Stateful Fault σ α).runOn memory = (.error fault, memory) := by
  rw [error]
  rfl

private theorem taken_key {rows : List (RID × Row)}
    (known : ∃ e ∈ rows, (Row.at e.2 0).i64 = (Row.at row 0).i64) :
    ∃ other ∈ rows.map Prod.snd, (Row.at other 0).i64 = (Row.at row 0).i64 := by
  obtain ⟨e, member, same⟩ := known
  exact ⟨e.2, List.mem_map_of_mem member, same⟩

private theorem new_key {rows : List (RID × Row)}
    (absent : ∀ e ∈ rows, (Row.at e.2 0).i64 ≠ (Row.at row 0).i64) :
    ¬ ∃ other ∈ rows.map Prod.snd, (Row.at other 0).i64 = (Row.at row 0).i64 := by
  rintro ⟨other, member, same⟩
  obtain ⟨e, isRow, rfl⟩ := List.mem_map.mp member
  exact absent e isRow same

/-- `insert_row` on the disk is an insert into the table of that name: whether the row is new, or why
it is refused, and the rows then. -/
theorem insertRow_refines {table : Text} {db : List Relation} (represents : Represents home d db)
    (typed : ∀ t ∈ db, t.name = table → RowMatches t.schema row)
    (fits : ((insertRow alloc scratch table row).leaves d).Small) :
    Stateful.Alike (Represents home) (Represents home)
      ((Option.isSome <$> insertRow alloc scratch table row).runOn d)
      ((DatabaseM.insertRow table row).runOn db) := by
  obtain ⟨stores, consistent, rfl⟩ := represents
  have same : Represents home d (stores.map depicted) := ⟨stores, consistent, rfl⟩
  rcases listing_or_none stores table with ⟨slot, desc, h, here, rfl⟩ | absent
  · have looked := (consistent.listed here).runOn_slotOf (bytes "no such table")
    have described := consistent.described here (bytes "no such table")
    have isTable : depicted (desc, h) ∈ stores.map depicted :=
      List.mem_map_of_mem (List.mem_of_getElem? here)
    have matches_ : RowMatches desc.schema row := typed _ isTable rfl
    have isSchema : (depicted (desc, h)).schema = desc.schema := rfl
    have rows : (depicted (desc, h)).rows = h.rows.map Prod.snd := rfl
    unfold DatabaseM.insertRow
    rw [Stateful.runOn_bind_ok described, isSchema, rows]
    by_cases isKeyed : keyed row = true
    · have check := checkThat_true isKeyed
        (bytes "row's key column (column 0) must be a non-null Int64")
      rw [Stateful.runOn_bind_ok (runOn_checked_ok check _)]
      cases encodes : encode desc.schema row with
      | error fault =>
        have ran : (insertRow alloc scratch desc.name row).runOn d = (.error fault, d) := by
          unfold insertRow
          rw [Stateful.runOn_bind_ok looked]
          dsimp only
          rw [Stateful.runOn_bind_ok (runOn_checked_ok check _),
            Stateful.runOn_bind_error (runOn_checked_error encodes _)]
        rw [Stateful.runOn_map_error _ ran, Stateful.runOn_bind_error (runOn_checked_error rfl _)]
        exact .error fault same
      | ok rec =>
        have isRecord : recordOf desc.schema row = rec := by rw [recordOf, encodes]; rfl
        rw [Stateful.runOn_bind_ok (runOn_checked_ok rfl _)]
        by_cases room : rec ≠ [] ∧ rec.length ≤ kMaxRecordSize
        · have fileable : Fileable desc.schema row :=
            ⟨matches_, isKeyed, isRecord.symm ▸ encodes, isRecord.symm ▸ room.1, isRecord.symm ▸ room.2⟩
          rw [Stateful.runOn_bind_ok (runOn_checked_ok (checkThat_true (decide_eq_true room) _) _)]
          obtain ⟨found, d', desc', h', ran, consistent', sameTable, tried⟩ :=
            insertRow_files consistent here fileable fits
          rw [Stateful.runOn_map_ok _ ran]
          have after : ∀ rows, h'.rows.map Prod.snd = rows →
              depicted (desc', h') = { depicted (desc, h) with rows := rows } := by
            rintro rows rfl
            simp only [depicted, sameTable.name, sameTable.schema, sameTable.indexed]
          generalize isRows : h'.rows = rows' at tried
          cases tried with
          | new rid absent =>
            rw [if_neg (new_key absent)]
            refine .ok true ⟨_, consistent', consistent.changing here (after _ ?_)⟩
            rw [isRows, List.map_append]
            rfl
          | taken known =>
            rw [if_pos (taken_key known)]
            refine .ok false ⟨_, consistent', ?_⟩
            have isSame := after (h.rows.map Prod.snd) (by rw [isRows])
            rw [List.map_set, isSame]
            obtain ⟨inside, value⟩ := List.getElem?_eq_some_iff.mp here
            have isTable : (stores.map depicted)[slot]? = some (depicted (desc, h)) := by
              rw [List.getElem?_map, here]
              rfl
            obtain ⟨_, value⟩ := List.getElem?_eq_some_iff.mp isTable
            rw [show ({ depicted (desc, h) with rows := h.rows.map Prod.snd } : Relation) =
              depicted (desc, h) from rfl, ← value]
            exact List.set_getElem_self _
        · have ran : (insertRow alloc scratch desc.name row).runOn d = (.error (.failed
              (bytes "record does not fit in a single page (overflow pages are a later unit)")), d) := by
            unfold insertRow
            rw [Stateful.runOn_bind_ok looked]
            dsimp only
            rw [Stateful.runOn_bind_ok (runOn_checked_ok check _),
              Stateful.runOn_bind_ok (runOn_checked_ok encodes _),
              Stateful.runOn_bind_error (heapInsert_refused _ room)]
          rw [Stateful.runOn_map_error _ ran, Stateful.runOn_bind_error
            (runOn_checked_error (checkThat_false (decide_eq_false room) _) _)]
          exact .error _ same
    · have check := checkThat_false (Bool.eq_false_iff.mpr isKeyed)
        (bytes "row's key column (column 0) must be a non-null Int64")
      have ran : (insertRow alloc scratch desc.name row).runOn d = (.error (.failed
          (bytes "row's key column (column 0) must be a non-null Int64")), d) := by
        unfold insertRow
        rw [Stateful.runOn_bind_ok looked]
        exact Stateful.runOn_bind_error (runOn_checked_error check _)
      rw [Stateful.runOn_map_error _ ran, Stateful.runOn_bind_error (runOn_checked_error check _)]
      exact .error _ same
  · have missing := runOn_slotOf_none consistent.lists absent (bytes "no such table")
    have ran : (insertRow alloc scratch table row).runOn d = (.error (.failed
        (bytes "no such table")), d) := Stateful.runOn_bind_error missing
    have described := described_none absent (bytes "no such table")
    unfold DatabaseM.insertRow
    rw [Stateful.runOn_map_error _ ran, Stateful.runOn_bind_error described]
    exact .error _ same

end InsertRow

end Labdb.Engine
