import Labdb.Data.Lists
import Labdb.Program.Action
import Mathlib.Data.List.TakeDrop

/-! The two files of a database, at the grain of what one call writes: a page of
the database file, the log's header, one frame slot of the log. -/

namespace Labdb.Storage

open Labdb.Program

abbrev PageId := Nat

/-- Page 0 is the meta page and never handed out, so 0 also means "no page". -/
def kNullPage : PageId := 0

inductive PageType where
  | kInvalid
  | kMeta
  | kSlotted
  | kFree
  | kBTreeLeaf
  | kBTreeInternal
  | kCatalog
  deriving DecidableEq, Repr

/-- The fields of the meta page. Ids and the count of pages have 32 bits in the file; they are
numbers here, and one page more is counted modulo `2 ^ 32`. -/
structure Meta where
  pageCount : Nat := 1
  freelistHead : PageId := kNullPage
  btreeRoot : PageId := kNullPage
  heapHead : PageId := kNullPage
  catalogRoot : PageId := kNullPage
  deriving DecidableEq, Repr

/-- One page more can be counted in 32 bits, where no page is free. -/
def Meta.Fits (fields : Meta) : Prop :=
  fields.freelistHead = kNullPage → fields.pageCount + 1 < UInt32.size

instance (fields : Meta) : Decidable fields.Fits := inferInstanceAs (Decidable (_ → _))

/-- What follows the header fields the pager reads: the meta record behind its
magic and with the database's id, or bytes the pager only moves. -/
inductive Body where
  | bytes (content : List UInt8)
  | record (fields : Meta) (databaseId : Nat)
  deriving DecidableEq, Repr

/-- A page. The default value is the all-zero page, allocated and never formatted. -/
structure Page where
  id : PageId := 0
  type : PageType := .kInvalid
  nextPage : PageId := kNullPage
  body : Body := .bytes []
  deriving DecidableEq, Repr

instance : Inhabited Page := ⟨{}⟩

structure LogHeader where
  generation : Nat
  databaseId : Nat
  deriving DecidableEq, Repr

/-- A frame as its checksum vouches for it; the database's id seeds the checksum. -/
structure Frame where
  id : PageId
  commit : Bool
  generation : Nat
  databaseId : Nat
  page : Page
  deriving DecidableEq, Repr

/-- A frame slot: a whole frame, or bytes that no checksum accepts. -/
abbrev Slot := Option Frame

/-- The log file; a header that is missing or torn is `none`. -/
structure LogFile where
  header : Option LogHeader := none
  frames : List Slot := []
  deriving DecidableEq, Repr

/-- The content of a slot, where a slot past the end of the file is no frame. -/
def LogFile.slot (log : LogFile) (index : Nat) : Slot := log.frames.getD index none

structure Files where
  pages : List Page := []
  log : LogFile := {}
  deriving DecidableEq, Repr

/-- The content of a page, where one past the end of the file is all zero. -/
def Files.page (files : Files) (id : PageId) : Page := files.pages.getD id {}

/-- Store at a position, filling the gap when it lies past the end. -/
def placeAt {α : Type} (fill : α) (items : List α) (index : Nat) (item : α) : List α :=
  (items.takeD (max items.length (index + 1)) fill).set index item

theorem length_placeAt {α : Type} (fill : α) (items : List α) (index : Nat) (item : α) :
    (placeAt fill items index item).length = max items.length (index + 1) := by
  simp [placeAt]

theorem getD_takeD {α : Type} (fill : α) (items : List α) (count index : Nat)
    (enough : items.length ≤ count) :
    (items.takeD count fill).getD index fill = items.getD index fill := by
  induction items generalizing count index with
  | nil =>
    simp only [List.takeD_nil, List.getD_eq_getElem?_getD, List.getElem?_replicate]
    split <;> rfl
  | cons head tail ih =>
    cases count with
    | zero => simp at enough
    | succ count =>
      cases index with
      | zero => simp [List.takeD]
      | succ index =>
        simpa [List.takeD] using ih count index (Nat.le_of_succ_le_succ enough)

theorem getD_placeAt {α : Type} (fill : α) (items : List α) (index other : Nat) (item : α) :
    (placeAt fill items index item).getD other fill =
      if index = other then item else items.getD other fill := by
  have inside : index < (items.takeD (max items.length (index + 1)) fill).length := by
    simp only [List.takeD_length]
    omega
  rw [placeAt, Data.getD_set]
  by_cases same : index = other
  · rw [if_pos ⟨same, inside⟩, if_pos same]
  · rw [if_neg fun both => same both.1, if_neg same]
    exact getD_takeD fill items _ other (by omega)

/-- Store a slot's bytes: a frame, or what no checksum accepts. -/
def LogFile.place (log : LogFile) (index : Nat) (content : Slot) : LogFile :=
  { log with frames := placeAt none log.frames index content }

@[simp] theorem LogFile.slot_place (log : LogFile) (index other : Nat) (content : Slot) :
    (log.place index content).slot other = if index = other then content else log.slot other :=
  getD_placeAt none log.frames index other content

/-- The calls that change the files or make them durable. -/
inductive FileCall where
  | writeLogHeader (header : LogHeader)
  | writeFrame (slot : Nat) (frame : Frame)
  | truncateLog
  | syncLog
  | writePage (id : PageId) (page : Page)
  | resizeFile (count : Nat)
  | syncFile
  deriving DecidableEq, Repr

/-- What a call does to the content of the files. -/
def FileCall.effect : FileCall → Files → Files
  | .writeLogHeader header, files => { files with log := { files.log with header := some header } }
  | .writeFrame slot frame, files =>
      { files with log := files.log.place slot (some frame) }
  | .truncateLog, files => { files with log := {} }
  | .syncLog, files => files
  | .writePage id page, files => { files with pages := placeAt {} files.pages id page }
  | .resizeFile count, files => { files with pages := files.pages.takeD count {} }
  | .syncFile, files => files

/-- What a write that failed midway leaves: a header or a frame no checksum
accepts, a page with the new first half and the old second. -/
def FileCall.debris : FileCall → Files → Files
  | .writeLogHeader _, files => { files with log := { files.log with header := none } }
  | .writeFrame slot _, files => { files with log := files.log.place slot none }
  | .writePage id page, files =>
      { files with pages := placeAt {} files.pages id { page with body := (files.page id).body } }
  | _, files => files

/-- A call that was made; one that failed midway is not whole. -/
structure Event where
  request : FileCall
  whole : Bool := true
  deriving DecidableEq, Repr

def Event.effect (event : Event) (files : Files) : Files :=
  if event.whole then event.request.effect files else event.request.debris files

/-- The disk: the files as they were, and the calls made since, newest first. -/
structure Disk where
  base : Files := {}
  trace : List Event := []
  deriving DecidableEq, Repr

/-- The files as the processes of a running system see them. -/
def Disk.files (disk : Disk) : Files := disk.trace.foldr Event.effect disk.base

def Disk.push (disk : Disk) (event : Event) : Disk := { disk with trace := event :: disk.trace }

@[simp] theorem Disk.files_push (disk : Disk) (event : Event) :
    (disk.push event).files = event.effect disk.files := rfl

instance : Device Disk FileCall where
  perform request disk := disk.push { request }
  spoil request torn disk := if torn then disk.push { request, whole := false } else disk

@[simp] theorem files_perform (request : FileCall) (disk : Disk) :
    (Device.perform request disk).files = request.effect disk.files := rfl

theorem files_spoil (request : FileCall) (torn : Bool) (disk : Disk) :
    (Device.spoil request torn disk).files = disk.files ∨
      (Device.spoil request torn disk).files = request.debris disk.files := by
  cases torn
  · exact .inl rfl
  · exact .inr rfl

end Labdb.Storage
