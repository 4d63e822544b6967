import Labdb.Heap.SlottedPage
import Labdb.Program.Stateful
import Labdb.Catalog.Cursor

/-! The catalog page of `catalog.cpp`: a directory of fixed slots, each of which describes a
table, and what reads and rewrites them. An exception leaves the stored page as it is by then;
the copy that a call works on is lost with it. -/

namespace Labdb.Catalog

open Labdb.Data Labdb.Heap Labdb.Program Labdb.Query Labdb.Record

def kNullPage : PageId := 0

/-- `PageType::kCatalog`. -/
def kCatalog : UInt16 := 6

def kCatalogMaxNameLen : Nat := 32

def kCatalogMaxColumns : Nat := 8

def kCatalogColNameLen : Nat := 16

def kCatalogColDescSize : Nat := kCatalogColNameLen + 2 + 4

def kCatalogRowCountOff : Nat := 42

def kCatalogHeapPagesOff : Nat := 50

def kCatalogDescFixed : Nat := kCatalogMaxNameLen + 1 + 1 + 4 + 4 + 8 + 4

def kCatalogSlotSize : Nat := kCatalogDescFixed + kCatalogMaxColumns * kCatalogColDescSize

def kCatalogCountOff : Nat := kPageHeaderSize

def kCatalogSlotsOff : Nat := kCatalogCountOff + 4

def kCatalogMaxTables : Nat := (kPageSize - kCatalogSlotsOff) / kCatalogSlotSize

/-- The byte of an enumerator. -/
def typeByte : ColType → UInt8
  | .kInt64 => 1
  | .kInt32 => 2
  | .kBool => 3
  | .kText => 4
  | .kDouble => 5

/-- The enumerator of a byte, of which there is none for most. -/
def typeOf (byte : UInt8) : Option ColType :=
  [ColType.kInt64, .kInt32, .kBool, .kText, .kDouble].find? fun type => typeByte type = byte

/-- What a slot describes. Of the array of index roots only those of the columns are kept;
the others are `kNullPage`. -/
structure RawDesc where
  name : Text
  schema : Schema
  heapHead : PageId
  btreeRoot : PageId
  rows : UInt64
  heapPages : UInt32
  indexRoots : List PageId
  deriving DecidableEq, Repr

section Page

variable (p : Image)

def slotCount : UInt16 := p.load16 kCatalogCountOff

def setSlotCount (n : UInt16) : Image := p.store16 kCatalogCountOff n

/-- Where a slot begins. -/
def slotAt (i : Nat) : Nat := kCatalogSlotsOff + i * kCatalogSlotSize

/-- Where the descriptor of a column begins. -/
def columnAt (slot i : Nat) : Nat := slotAt slot + kCatalogDescFixed + i * kCatalogColDescSize

/-- Where the root of a column's index is. -/
def rootAt (slot i : Nat) : Nat := columnAt slot i + kCatalogColNameLen + 2

/-- The slot of the table of that name: the lengths are equal, and the bytes. -/
def findSlot (name : Text) : Option Nat :=
  (List.range (slotCount p).toNat).find? fun i =>
    (p (slotAt i + kCatalogMaxNameLen)).toNat = name.length ∧
      Memory.read p (slotAt i) name.length = name

def writeColumn (cd : Nat) (c : Column) : Image :=
  let p := Memory.write p cd c.name
  let p := Memory.write p (cd + kCatalogColNameLen) [typeByte c.type]
  Memory.write p (cd + kCatalogColNameLen + 1) [if c.nullable then 1 else 0]

/-- The columns of `write_desc`, from one descriptor on. -/
def writeColumns : Image → Nat → List Column → Codec Image
  | p, _, [] => pure p
  | p, cd, c :: rest => do
    checkThat (c.name.length ≤ kCatalogColNameLen) (bytes "column name too long")
    writeColumns (writeColumn p cd c) (cd + kCatalogColDescSize) rest

def writeDesc (slot : Nat) (name : Text) (schema : Schema) (heapHead btreeRoot : PageId) :
    Codec Image := do
  checkThat (name.length ≤ kCatalogMaxNameLen) (bytes "table name too long")
  checkThat (schema.columns.length ≤ kCatalogMaxColumns) (bytes "too many columns for the catalog")
  let s := slotAt slot
  let p := Memory.write p s (List.replicate kCatalogSlotSize 0)
  let p := Memory.write p s name
  let p := Memory.write p (s + kCatalogMaxNameLen) [name.length.toUInt8]
  let p := Memory.write p (s + kCatalogMaxNameLen + 1) [schema.columns.length.toUInt8]
  let p := Memory.store32 p (s + 34) heapHead
  let p := Memory.store32 p (s + 38) btreeRoot
  writeColumns p (s + kCatalogDescFixed) schema.columns

/-- A column of `read_desc`; its name ends at the first zero byte, if there is one. -/
def readColumn (cd : Nat) : Codec Column := do
  let type ← within (typeOf (p (cd + kCatalogColNameLen)))
  pure {
    name := (Memory.read p cd kCatalogColNameLen).takeWhile (· ≠ 0)
    type
    nullable := p (cd + kCatalogColNameLen + 1) ≠ 0 }

def readDesc (slot : Nat) : Codec RawDesc := do
  let s := slotAt slot
  let ncols := (p (s + kCatalogMaxNameLen + 1)).toNat
  let columns ← (List.range ncols).mapM fun i => readColumn p (columnAt slot i)
  pure {
    name := Memory.read p s (p (s + kCatalogMaxNameLen)).toNat
    schema := { columns }
    heapHead := p.load32 (s + 34)
    btreeRoot := p.load32 (s + 38)
    rows := p.load64 (s + kCatalogRowCountOff)
    heapPages := p.load32 (s + kCatalogHeapPagesOff)
    indexRoots := (List.range ncols).map fun i => p.load32 (rootAt slot i) }

/-- The page that the constructor formats, on whatever it held. -/
def construct (id : PageId) : Image := setSlotCount ((p.setId id).setType kCatalog) 0

end Page

/-- Programs over the stored catalog page. -/
abbrev CatalogM := Stateful Fault Image

def loadCatalogPage : CatalogM Image := get

def saveCatalogPage (p : Image) : CatalogM Unit := set p

/-- A result that is there, or the exception of a check. -/
def present {σ α : Type} (message : Text) : Option α → Stateful Fault σ α
  | some value => pure value
  | none => throw (.failed message)

def checked {σ α : Type} : Codec α → Stateful Fault σ α
  | .ok value => pure value
  | .error fault => throw fault

/-- `planted` is the root of a new tree, or why there is none. -/
def createTable (name : Text) (schema : Schema) (planted : Codec PageId) : CatalogM Unit := do
  let p ← loadCatalogPage
  checked (checkThat (findSlot p name).isNone (bytes "a table with this name already exists"))
  let n := slotCount p
  checked (checkThat (n.toNat < kCatalogMaxTables)
    (bytes "catalog page is full (one page limits table count)"))
  let broot ← checked planted
  let p ← checked (writeDesc p n.toNat name schema kNullPage broot)
  saveCatalogPage (setSlotCount p (n + 1))

/-- What is common to the updates of one table's slot. -/
def updateSlot (name message : Text) (write : Image → Nat → Image) : CatalogM Unit := do
  let p ← loadCatalogPage
  let i ← present message (findSlot p name)
  saveCatalogPage (write p i)

def updateHeapHead (name : Text) (newHead : PageId) : CatalogM Unit :=
  updateSlot name (bytes "no such table (heap head update)") fun p i =>
    let s := slotAt i
    let p := p.store32 (s + 34) newHead
    p.store32 (s + kCatalogHeapPagesOff) (p.load32 (s + kCatalogHeapPagesOff) + 1)

def updateBtreeRoot (name : Text) (newRoot : PageId) : CatalogM Unit :=
  updateSlot name (bytes "no such table (btree root update)") fun p i =>
    p.store32 (slotAt i + 38) newRoot

def updateIndexRoot (name : Text) (column : Nat) (newRoot : PageId) : CatalogM Unit :=
  updateSlot name (bytes "no such table (index root update)") fun p i =>
    p.store32 (rootAt i column) newRoot

/-- What a heap or a tree reports while a row is filed in it, and the exception that ends that,
if one does. -/
structure Reports where
  moves : List PageId := []
  raises : Option Fault := none
  deriving DecidableEq, Repr

/-- Each report goes to the callback that the catalog gave. -/
def report {σ : Type} (callback : PageId → Stateful Fault σ Unit) :
    List PageId → Option Fault → Stateful Fault σ Unit
  | [], none => pure ()
  | [], some fault => throw fault
  | page :: rest, raises => do
    callback page
    report callback rest raises

/-- What becomes of a row in the table's heap, in its tree and in the index of each column. -/
structure Filing where
  heap : Reports := {}
  tree : Reports := {}
  /-- The tree did not hold the row's key. -/
  isNew : Bool := true
  index : Nat → Reports := fun _ => {}

/-- The row goes into every index but those of columns in which it is NULL; `callback` takes
what the index of a column reports. -/
def fileInIndexes {σ : Type} (callback : Nat → PageId → Stateful Fault σ Unit)
    (roots : List PageId) (row : Row) (filing : Filing) : List Nat → Stateful Fault σ Unit
  | [] => pure ()
  | c :: rest => do
    if roots[c]? = some kNullPage ∨ (row[c]?).any (·.isNull) then pure ()
    else report (callback c) (filing.index c).moves (filing.index c).raises
    fileInIndexes callback roots row filing rest

def bumpRows (frame : Image) (i : Nat) : Image :=
  let s := slotAt i
  frame.store64 (s + kCatalogRowCountOff) (frame.load64 (s + kCatalogRowCountOff) + 1)

/-- The row count, in the page's own frame. -/
def countRow (i : Nat) : CatalogM Unit := do
  let frame ← loadCatalogPage
  saveCatalogPage (bumpRows frame i)

/-- A key is an INT64 and is there. -/
def keyed (row : Row) : Bool := row.head?.any fun key => key.type = .kInt64 ∧ key.isNull = false

/-- Whether the row is filed, rather than refused because its key is taken. -/
def insertRow (table : Text) (row : Row) (filing : Filing) : CatalogM Bool := do
  let p ← loadCatalogPage
  let i ← present (bytes "no such table") (findSlot p table)
  let d ← checked (readDesc p i)
  checked (checkThat (keyed row) (bytes "row's key column (column 0) must be a non-null Int64"))
  let _ ← checked (encode d.schema row)
  report (updateHeapHead table) filing.heap.moves filing.heap.raises
  report (updateBtreeRoot table) filing.tree.moves filing.tree.raises
  if filing.isNew then
    fileInIndexes (updateIndexRoot table) d.indexRoots row filing
      (List.range' 1 (d.schema.columns.length - 1))
    countRow i
    pure true
  else pure false

/-- `planted` is the root of the new index, and `filing` what it reports as it is filled. -/
def createIndex (table : Text) (column : Nat) (planted : Codec PageId) (filing : Reports) :
    CatalogM Unit := do
  let p ← loadCatalogPage
  let i ← present (bytes "no such table (create index)") (findSlot p table)
  let d ← checked (readDesc p i)
  checked (checkThat (0 < column ∧ column < d.schema.columns.length)
    (bytes "index column out of range"))
  checked (checkThat (d.indexRoots[column]? = some kNullPage)
    (bytes "the column is already indexed"))
  let root ← checked planted
  saveCatalogPage (p.store32 (rootAt i column) root)
  report (updateIndexRoot table column) filing.moves filing.raises

end Labdb.Catalog
