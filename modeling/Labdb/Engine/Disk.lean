import Labdb.BTree.Tree
import Labdb.Catalog.Directory
import Labdb.Query.Table

/-! The pages of a database as the heap, the trees and the catalog reach them through one pool,
which reads back what was written. A page is read as what it was formatted as: a node of a tree, a
slotted page, or the page of the catalog. -/

namespace Labdb.Engine

open Labdb.BTree Labdb.Catalog Labdb.Data Labdb.Heap Labdb.Program Labdb.Query Labdb.Record

/-- A page's number, as the pool gives it out. -/
abbrev PageNo := Storage.PageId

/-- The pages by their numbers, which of them are in use, how many were asked for so far, and the
page of the catalog. -/
structure Disk where
  nodes : PageNo → Node
  records : PageNo → Image
  used : List PageNo
  requests : Nat := 0
  catalog : Image

abbrev DiskM := Stateful Fault Disk

section Pages

variable (alloc : Allocator)

/-- `BufferPool::allocate_page` for a page of records: the frame is zeroed but for its number. -/
def allocatePage : DiskM PageNo := do
  let d ← get
  let id := alloc.pick d.requests d.used
  set { d with
    used := id :: d.used
    requests := d.requests + 1
    records := Function.update d.records id (Image.setId (fun _ => 0) id.toUInt32) }
  pure id

def readPage (id : PageNo) : DiskM Image := do
  let d ← get
  pure (d.records id)

def writePage (id : PageNo) (p : Image) : DiskM Unit :=
  modify fun d => { d with records := Function.update d.records id p }

end Pages

/-- A program on the page of the catalog. -/
def onCatalog {α : Type} (program : CatalogM α) : DiskM α := ExceptT.mk fun d =>
  let (ending, p) := program.runOn d.catalog
  (ending, { d with catalog := p })

/-- The pages as a tree with that root reads and writes them. -/
def Disk.view (d : Disk) (root : PageNo) : Store where
  nodes := d.nodes
  used := d.used
  requests := d.requests
  root := root

/-- The pages as an operation of a tree leaves them. -/
def Disk.take (d : Disk) (s : Store) : Disk :=
  { d with nodes := s.nodes, used := s.used, requests := s.requests }

/-- An operation of the tree at that root, which tells `onRootChanged` each root it has moved to:
the last thing that `insert` does, and the last that a constructor does. -/
def onTree {α : Type} (root : PageNo) (onRootChanged : PageNo → DiskM Unit) (operation : TreeM α) :
    DiskM α := do
  let d ← get
  match operation (d.view root) with
  | none => throw .outside
  | some (value, s) => do
    set (d.take s)
    s.reported.forM onRootChanged
    pure value

/-- Whom a tree that is only read, or planted, tells of its root. -/
def nobody (_ : PageNo) : DiskM Unit := pure ()

/-- What an operation comes to, and the root after it. -/
def withRoot {α : Type} (operation : TreeM α) : TreeM (α × PageNo) := do
  let value ← operation
  let s ← get
  pure (value, s.root)

/-- The constructor of a tree without a root: an empty leaf. -/
def plantTree (alloc : Allocator) : DiskM PageNo := do
  let (_, root) ← onTree Storage.kNullPage nobody (withRoot (plant alloc))
  pure root

section Heap

variable (alloc : Allocator) (scratch : Memory) (onNewHead : PageNo → DiskM Unit)

/-- `Heap::new_page`: a fresh slotted page before the head. -/
def newPage (head : PageNo) : DiskM PageNo := do
  let id ← allocatePage alloc
  let pg ← readPage id
  writePage id ((pg.init id.toUInt32).setNextPage head.toUInt32)
  onNewHead id
  pure id

/-- The first page of a heap, which is made for its first row. -/
def firstPage (head : PageNo) : DiskM PageNo :=
  if head = Storage.kNullPage then newPage alloc onNewHead head else pure head

/-- A record on a page, if it has room; `scratch` is what the scratch page of a compaction held. -/
def insertOn (id : PageNo) (rec : List UInt8) : DiskM (Option RID) := do
  let pg ← readPage id
  match pg.insert scratch rec with
  | (some slot, pg) => do
    writePage id pg
    pure (some ⟨id.toUInt32, slot.toUInt16⟩)
  | (none, _) => pure none

/-- `Heap::insert` into the heap with that head. -/
def heapInsert (head : PageNo) (rec : List UInt8) : DiskM RID := do
  checked (checkThat (rec ≠ [] ∧ rec.length ≤ kMaxRecordSize)
    (bytes "record does not fit in a single page (overflow pages are a later unit)"))
  let head ← firstPage alloc onNewHead head
  match ← insertOn scratch head rec with
  | some rid => pure rid
  | none => do
    let id ← newPage alloc onNewHead head
    let slot ← insertOn scratch id rec
    present (bytes "record did not fit in an empty page") slot

/-- `Heap::get`. -/
def heapGet (rid : RID) : DiskM (List UInt8) := do
  let pg ← readPage rid.page.toNat
  present (bytes "get: no live record at this RID") (pg.read rid.slot.toNat)

/-- `Heap::erase`. -/
def heapErase (rid : RID) : DiskM Bool := do
  let pg ← readPage rid.page.toNat
  match pg.erase rid.slot.toNat with
  | (true, pg) => do
    writePage rid.page.toNat pg
    pure true
  | (false, _) => pure false

end Heap

section Catalog

variable (alloc : Allocator) (scratch : Memory)

def loadCatalogPage : DiskM Image := onCatalog Catalog.loadCatalogPage

def saveCatalogPage (p : Image) : DiskM Unit := onCatalog (Catalog.saveCatalogPage p)

/-- `Catalog::create_table`. -/
def createTable (name : Text) (schema : Schema) : DiskM Unit := do
  let p ← loadCatalogPage
  checked (checkThat (findSlot p name).isNone (bytes "a table with this name already exists"))
  let n := slotCount p
  checked (checkThat (n.toNat < kCatalogMaxTables)
    (bytes "catalog page is full (one page limits table count)"))
  let broot ← plantTree alloc
  let p ← checked (writeDesc p n.toNat name schema kNullPage broot.toUInt32)
  saveCatalogPage (setSlotCount p (n + 1))

/-- How the calls on one table begin: its slot of the page, and what that describes. -/
def slotOf (table message : Text) : DiskM (Image × Nat × RawDesc) := do
  let p ← loadCatalogPage
  let i ← present message (findSlot p table)
  let d ← checked (readDesc p i)
  pure (p, i, d)

/-- An entry for the index of a column at that root; the root after it. -/
def fileInIndex (table : Text) (column : Nat) (root : PageNo) (field : Field) (value : Value) :
    DiskM PageNo := do
  let (_, root) ← onTree root (fun r => onCatalog (updateIndexRoot table column r.toUInt32))
    (withRoot (insert alloc false (orderKey field) value))
  pure root

/-- The loop of `insert_row` over the columns: the row goes into every index but those of columns
in which it is NULL. -/
def fileInIndexes (table : Text) (roots : List PageId) (row : Row) (rid : RID) :
    List Nat → DiskM Unit
  | [] => pure ()
  | c :: rest =>
    if roots.getD c kNullPage = kNullPage ∨ (Row.at row c).isNull then
      fileInIndexes table roots row rid rest
    else do
      let _ ← fileInIndex alloc table c (roots.getD c kNullPage).toNat (Row.at row c) (ridEncode rid)
      fileInIndexes table roots row rid rest

/-- `insert_row` once the row is in the heap: it is filed in the tree and in the indexes and counted,
or taken out of the heap where its key is taken. -/
def fileRow (table : Text) (i : Nat) (d : RawDesc) (row : Row) (rid : RID) : DiskM (Option RID) := do
  let isNew ← onTree d.btreeRoot.toNat (fun r => onCatalog (updateBtreeRoot table r.toUInt32))
    (insertNew alloc true (tableKey (Row.at row 0).i64) (ridEncode rid))
  if isNew = false then
    let _ ← heapErase rid
    pure none
  else
    fileInIndexes alloc table d.indexRoots row rid (List.range' 1 (d.schema.columns.length - 1))
    onCatalog (countRow i)
    pure (some rid)

/-- `Catalog::insert_row`: no address where the key is taken. -/
def insertRow (table : Text) (row : Row) : DiskM (Option RID) := do
  let (_, i, d) ← slotOf table (bytes "no such table")
  checked (checkThat (keyed row) (bytes "row's key column (column 0) must be a non-null Int64"))
  let rec ← checked (encode d.schema row)
  let rid ← heapInsert alloc scratch (fun h => onCatalog (updateHeapHead table h.toUInt32))
    d.heapHead.toNat rec
  fileRow alloc table i d row rid

/-- The loop of `create_index` from a cursor of the table's tree on, for as many rounds; `root` is
the index's by then. -/
def fileRows (table : Text) (d : RawDesc) (column : Nat) :
    Nat → Cursor → PageNo → Nat → DiskM Nat
  | 0, _, _, _ => throw .outside
  | rounds + 1, c, root, filed =>
    match c.current with
    | none => pure filed
    | some (_, value) => do
      let rec ← heapGet (ridDecode value)
      let v ← checked (project d.schema rec column)
      if v.isNull then
        let c ← onTree d.btreeRoot.toNat nobody c.next
        fileRows table d column rounds c root filed
      else
        let root ← fileInIndex alloc table column root v value
        let c ← onTree d.btreeRoot.toNat nobody c.next
        fileRows table d column rounds c root (filed + 1)

/-- `Catalog::create_index`: how many entries were filed. -/
def createIndex (table : Text) (column : Nat) : DiskM Nat := do
  let (p, i, d) ← slotOf table (bytes "no such table (create index)")
  checked (checkThat (0 < column ∧ column < d.schema.columns.length)
    (bytes "index column out of range"))
  checked (checkThat (d.indexRoots[column]? = some kNullPage)
    (bytes "the column is already indexed"))
  let fresh ← plantTree alloc
  saveCatalogPage (p.store32 (rootAt i column) fresh.toUInt32)
  let c ← onTree d.btreeRoot.toNat nobody (seek true 0)
  let s ← get
  fileRows alloc table d column (s.used.length * kLeafMaxEntries + 1) c fresh 0

end Catalog

end Labdb.Engine
