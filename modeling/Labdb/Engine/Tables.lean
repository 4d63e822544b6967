import Labdb.Catalog.DirectoryRuns
import Labdb.Data.Named
import Labdb.Engine.Heaps
import Labdb.Engine.Trees
import Labdb.Query.Order

/-! A table on the disk: its description on the page of the catalog, its heap, its tree and its
indexes, each on pages of its own. While a call works on one part the others stay. -/

namespace Labdb.Engine

open Labdb.BTree Labdb.Catalog Labdb.Data Labdb.Heap Labdb.Program Labdb.Query Labdb.Record

section Page

variable {p : Image} {tables : List RawDesc} {slot : Nat} {desc : RawDesc} {change : RawDesc → RawDesc}
  {write : Image → Nat → Image}

/-- The page of the catalog lists the tables, that one in the slot. -/
structure Listed (p : Image) (tables : List RawDesc) (slot : Nat) (desc : RawDesc) : Prop where
  lists : Lists p tables
  here : tables[slot]? = some desc

/-- Names are unique, so one table changes. -/
theorem Listed.changed_eq (listed : Listed p tables slot desc) :
    changed desc.name change tables = tables.set slot (change desc) :=
  map_named listed.lists.names listed.here change

theorem Listed.found (listed : Listed p tables slot desc) : findSlot p desc.name = some slot :=
  listed.lists.findSlot_iff.mpr ⟨desc, listed.here, rfl⟩

theorem Listed.update (listed : Listed p tables slot desc) (writes : Writes write change) :
    Listed (write p slot) (tables.set slot (change desc)) slot (change desc) where
  lists := by
    rw [← listed.changed_eq]
    exact listed.lists.changed writes listed.found
  here := by
    have inside := (List.getElem?_eq_some_iff.mp listed.here).1
    rw [List.getElem?_set_self inside]

theorem Listed.runOn_updateSlot (listed : Listed p tables slot desc) (message : Text) :
    (updateSlot desc.name message write).runOn p = (.ok (), write p slot) := by
  unfold updateSlot Catalog.loadCatalogPage
  rw [Stateful.runOn_get_bind, listed.found]
  rfl

/-- What a heap or a tree of the table tells the catalog. -/
theorem Listed.tells {d d' : Disk} (listed : Listed d.catalog tables slot desc) (message : Text)
    (same : d'.catalog = d.catalog) :
    (onCatalog (updateSlot desc.name message write)).runOn d' =
      (.ok (), { d' with catalog := (updateSlot desc.name message write).leaves d.catalog }) := by
  rw [runOn_onCatalog, same, Stateful.leaves, listed.runOn_updateSlot]

theorem Listed.runOn_slotOf {d : Disk} (listed : Listed d.catalog tables slot desc) (message : Text) :
    (slotOf desc.name message).runOn d = (.ok (d.catalog, slot, desc), d) := by
  have loaded : loadCatalogPage.runOn d = (.ok d.catalog, d) := rfl
  have found : (present message (findSlot d.catalog desc.name) : DiskM Nat).runOn d = (.ok slot, d) := by
    rw [listed.found]
    rfl
  have read : (checked (readDesc d.catalog slot) : DiskM RawDesc).runOn d = (.ok desc, d) := by
    rw [listed.lists.readDesc listed.here]
    rfl
  unfold slotOf
  rw [Stateful.runOn_bind_ok loaded, Stateful.runOn_bind_ok found, Stateful.runOn_bind_ok read]
  rfl

theorem runOn_slotOf_none {d : Disk} {table : Text} (lists : Lists d.catalog tables)
    (absent : ∀ desc ∈ tables, desc.name ≠ table) (message : Text) :
    (slotOf table message).runOn d = (.error (.failed message), d) := by
  have loaded : loadCatalogPage.runOn d = (.ok d.catalog, d) := rfl
  have missing : findSlot d.catalog table = none := by
    cases found : findSlot d.catalog table with
    | none => rfl
    | some slot =>
      obtain ⟨desc, here, named⟩ := lists.findSlot_iff.mp found
      exact absurd named (absent desc (List.mem_of_getElem? here))
  unfold slotOf
  rw [Stateful.runOn_bind_ok loaded, missing]
  rfl

end Page

section Kept

variable {d d' : Disk} {ids mid new : List PageNo}

/-- Pages on which a call does not work. -/
theorem Takes.kept (takes : Takes d mid d' new) (owns : Owns d ids) (apart : ids.Disjoint mid) :
    (∀ id ∈ ids, d'.nodes id = d.nodes id) ∧ (∀ id ∈ ids, d'.records id = d.records id) ∧
      ∀ id ∈ ids, id ∈ d'.used := by
  refine ⟨fun id member => ?_, fun id member => ?_, fun id member => ?_⟩
  · exact takes.nodes id (owns.used id member) (apart member)
  · exact takes.records id (owns.used id member) (apart member)
  · exact takes.stays (owns.used id member)

theorem HeapHolds.kept {head : PageNo} {records : List (RID × List UInt8)}
    (holds : HeapHolds d head ids records) (takes : Takes d mid d' new) (owns : Owns d ids)
    (apart : ids.Disjoint mid) : HeapHolds d' head ids records :=
  holds.congr (takes.kept owns apart).2.1

theorem TreeHolds.kept {root : PageNo} {entries : List (Key × Value)}
    (holds : TreeHolds d root ids entries) (takes : Takes d mid d' new) (apart : ids.Disjoint mid) :
    TreeHolds d' root ids entries := by
  obtain ⟨nodes, -, used⟩ := takes.kept holds.owns apart
  exact holds.congr nodes used

theorem IndexHolds.kept {root : PageNo} {entries : List (Key × Value)}
    (holds : IndexHolds d root ids entries) (takes : Takes d mid d' new) (apart : ids.Disjoint mid) :
    IndexHolds d' root ids entries := by
  obtain ⟨nodes, -, used⟩ := takes.kept holds.owns apart
  exact holds.congr nodes used

end Kept

/-- The record of a row. -/
def recordOf (schema : Schema) (row : Row) : List UInt8 := (encode schema row).toOption.getD []

/-- A row that may be filed: its fields match the columns, it has a key and its record fits. -/
structure Fileable (schema : Schema) (row : Row) : Prop where
  fits : RowMatches schema row
  keyed : keyed row = true
  encodes : encode schema row = .ok (recordOf schema row)
  filled : recordOf schema row ≠ []
  short : (recordOf schema row).length ≤ kMaxRecordSize

theorem tableKey_inj {a b : Int64} : tableKey a = tableKey b ↔ a = b := by
  constructor
  · intro same
    have aKey := orderKeyInt_toNat a
    have bKey := orderKeyInt_toNat b
    rw [show orderKeyInt a = orderKeyInt b from same] at aKey
    exact Int64.toInt_inj.mp (by omega)
  · exact fun same => congrArg tableKey same

private theorem toNat_ridEncode (rid : RID) :
    (ridEncode rid).toNat = rid.page.toNat * 2 ^ 16 + rid.slot.toNat := by
  have page := rid.page.toNat_lt
  have slot := rid.slot.toNat_lt
  have joined := Nat.shiftLeft_add_eq_or_of_lt slot rid.page.toNat
  have small : rid.page.toNat <<< 16 % 2 ^ 64 = rid.page.toNat <<< 16 := by
    apply Nat.mod_eq_of_lt
    rw [Nat.shiftLeft_eq]
    omega
  unfold ridEncode
  rw [UInt64.toNat_or, UInt64.toNat_shiftLeft, UInt32.toNat_toUInt64, UInt16.toNat_toUInt64]
  change rid.page.toNat <<< 16 % 2 ^ 64 ||| rid.slot.toNat = _
  rw [small, ← joined, Nat.shiftLeft_eq]

/-- An address is read as it was written. -/
theorem ridDecode_ridEncode (rid : RID) : ridDecode (ridEncode rid) = rid := by
  have whole := toNat_ridEncode rid
  obtain ⟨page, slot⟩ := rid
  have pageSmall := page.toNat_lt
  have slotSmall := slot.toNat_lt
  change _ = page.toNat * 2 ^ 16 + slot.toNat at whole
  unfold ridDecode
  congr 1
  · apply UInt32.toNat_inj.mp
    rw [UInt64.toNat_toUInt32, UInt64.toNat_shiftRight, whole]
    change ((page.toNat * 2 ^ 16 + slot.toNat) >>> 16) % 2 ^ 32 = page.toNat
    rw [Nat.shiftRight_eq_div_pow]
    omega
  · apply UInt16.toNat_inj.mp
    rw [UInt64.toNat_toUInt16, UInt64.toNat_and, whole]
    change ((page.toNat * 2 ^ 16 + slot.toNat) &&& (2 ^ 16 - 1)) % 2 ^ 16 = slot.toNat
    rw [Nat.and_two_pow_sub_one_eq_mod]
    omega

/-- The entry of a row in the table's own tree. -/
def keyEntry (e : RID × Row) : Key × Value := (tableKey (Row.at e.2 0).i64, ridEncode e.1)

/-- The entries of the index of a column, in which a NULL is not filed. -/
def columnEntries (column : Nat) (rows : List (RID × Row)) : List (Key × Value) :=
  (rows.filter fun e => (Row.at e.2 column).isNull = false).map fun e =>
    (orderKey (Row.at e.2 column), ridEncode e.1)

theorem columnEntries_known {c : Nat} {rows : List (RID × Row)} {rid : RID} {row : Row}
    (known : (Row.at row c).isNull = false) :
    columnEntries c (rows ++ [(rid, row)]) =
      columnEntries c rows ++ [(orderKey (Row.at row c), ridEncode rid)] := by
  simp [columnEntries, known]

theorem columnEntries_null {c : Nat} {rows : List (RID × Row)} {rid : RID} {row : Row}
    (null : (Row.at row c).isNull = true) :
    columnEntries c (rows ++ [(rid, row)]) = columnEntries c rows := by
  simp [columnEntries, null]

/-- The pages of a table: those of its heap, of its tree, and of the index of each column. -/
structure Estate where
  heap : List PageNo
  tree : List PageNo
  index : List (List PageNo)

def Estate.pages (g : Estate) : List PageNo := g.heap ++ g.tree ++ g.index.flatten

/-- The parts of a table, and the rows that have been filed in each of them. -/
structure Parts (d : Disk) (desc : RawDesc) (g : Estate) (inHeap inTree : List (RID × Row))
    (inIndex : Nat → List (RID × Row)) : Prop where
  heap : HeapHolds d desc.heapHead.toNat g.heap
    (inHeap.map fun e => (e.1, recordOf desc.schema e.2))
  tree : TreeHolds d desc.btreeRoot.toNat g.tree (inTree.map keyEntry)
  index : ∀ (c : Nat) root, desc.indexRoots[c]? = some root → root ≠ kNullPage →
    ∃ ids, g.index[c]? = some ids ∧ IndexHolds d root.toNat ids (columnEntries c (inIndex c))
  pages : desc.heapPages = UInt32.ofNat g.heap.length
  spread : g.index.length = desc.schema.columns.length
  keyRoot : desc.indexRoots.getD 0 kNullPage = kNullPage
  fileable : ∀ e ∈ inHeap, Fileable desc.schema e.2

/-- Only columns after the key have an index. -/
theorem Parts.root_inside {d : Disk} {desc : RawDesc} {g : Estate} {inHeap inTree : List (RID × Row)}
    {inIndex : Nat → List (RID × Row)} (parts : Parts d desc g inHeap inTree inIndex) {c : Nat}
    {root : PageId} (isRoot : desc.indexRoots[c]? = some root) (real : root ≠ kNullPage) :
    0 < c ∧ c < desc.schema.columns.length := by
  obtain ⟨ids, here, -⟩ := parts.index c root isRoot real
  have inside := (List.getElem?_eq_some_iff.mp here).1
  constructor
  · apply Nat.pos_of_ne_zero
    rintro rfl
    have keyRoot := parts.keyRoot
    rw [List.getD_eq_getElem?_getD, isRoot] at keyRoot
    exact real keyRoot
  · rw [← parts.spread]
    exact inside

/-- What has been filed in an index matters where there is one, and there as its entries. -/
theorem Parts.reorder {d : Disk} {desc : RawDesc} {g : Estate} {inHeap inTree : List (RID × Row)}
    {inIndex inIndex' : Nat → List (RID × Row)} (parts : Parts d desc g inHeap inTree inIndex)
    (same : ∀ (c : Nat) root, desc.indexRoots[c]? = some root → root ≠ kNullPage →
      (columnEntries c (inIndex c)).Perm (columnEntries c (inIndex' c))) :
    Parts d desc g inHeap inTree inIndex' where
  heap := parts.heap
  tree := parts.tree
  index c root isRoot real := by
    obtain ⟨ids, here, holds⟩ := parts.index c root isRoot real
    exact ⟨ids, here, holds.reorder (same c root isRoot real)⟩
  pages := parts.pages
  spread := parts.spread
  keyRoot := parts.keyRoot
  fileable := parts.fileable

theorem Parts.reindex {d : Disk} {desc : RawDesc} {g : Estate} {inHeap inTree : List (RID × Row)}
    {inIndex inIndex' : Nat → List (RID × Row)} (parts : Parts d desc g inHeap inTree inIndex)
    (same : ∀ (c : Nat) root, desc.indexRoots[c]? = some root → root ≠ kNullPage →
      columnEntries c (inIndex' c) = columnEntries c (inIndex c)) :
    Parts d desc g inHeap inTree inIndex' :=
  parts.reorder fun c root isRoot real => .of_eq (same c root isRoot real).symm

/-- Which columns are indexed. -/
def indexed (roots : List PageId) : List Bool := roots.map fun root => root ≠ kNullPage

theorem indexed_real {roots roots' : List PageId} {c : Nat} {root : PageId}
    (same : indexed roots' = indexed roots) (here : roots'[c]? = some root) (real : root ≠ kNullPage) :
    ∃ old, roots[c]? = some old ∧ old ≠ kNullPage := by
  have flag := congrArg (·[c]?) same
  simp only [indexed, List.getElem?_map, here, Option.map_some] at flag
  obtain ⟨old, there, both⟩ := Option.map_eq_some_iff.mp flag.symm
  exact ⟨old, there, of_decide_eq_true (both.trans (decide_eq_true real))⟩

theorem indexed_set {roots : List PageId} {c : Nat} {root root' : PageId}
    (here : roots[c]? = some root) (real : root ≠ kNullPage) (real' : root' ≠ kNullPage) :
    indexed (roots.set c root') = indexed roots := by
  have both : decide (root' ≠ kNullPage) = decide (root ≠ kNullPage) := by
    rw [decide_eq_true real, decide_eq_true real']
  obtain ⟨inside, rfl⟩ := List.getElem?_eq_some_iff.mp here
  unfold indexed
  rw [List.map_set, both]
  apply List.ext_getElem
  · rw [List.length_set]
  · intro i _ _
    rw [List.getElem_set]
    split
    · rename_i same
      subst same
      rw [List.getElem_map]
    · rfl

section Split

variable {g : Estate} {c : Nat} {ids : List PageNo}

/-- The pages with those of one index between the others. -/
theorem Estate.pages_index (here : g.index[c]? = some ids) :
    g.pages = (g.heap ++ g.tree ++ (g.index.take c).flatten) ++ ids ++ (g.index.drop (c + 1)).flatten := by
  have split := List.take_append_drop c g.index
  rw [List.drop_eq_getElem?_toList_append, here] at split
  have flat := congrArg List.flatten split
  rw [List.flatten_append, List.flatten_append, Option.toList_some, List.flatten_singleton] at flat
  rw [Estate.pages, ← flat]
  simp only [List.append_assoc]

theorem Estate.pages_setIndex (inside : c < g.index.length) (ids : List PageNo) :
    Estate.pages { g with index := g.index.set c ids } =
      (g.heap ++ g.tree ++ (g.index.take c).flatten) ++ ids ++ (g.index.drop (c + 1)).flatten := by
  have here : ({ g with index := g.index.set c ids } : Estate).index[c]? = some ids :=
    List.getElem?_set_self inside
  rw [Estate.pages_index here]
  simp only [List.take_set_of_le (Nat.le_refl c), List.drop_set_of_lt (Nat.lt_succ_self c)]

end Split

end Labdb.Engine
