import Labdb.Record.Codec

/-! The cursors of a table and of an index, as `catalog.cpp` has them: row by row, and into a
batch, a run of one page's records at a time. -/

namespace Labdb.Catalog

open Labdb.Data Labdb.Query Labdb.Record

abbrev PageId := UInt32

/-- A record's address. -/
structure RID where
  page : PageId := 0
  slot : UInt16 := 0
  deriving DecidableEq, Repr

def ridEncode (rid : RID) : UInt64 := rid.page.toUInt64 <<< 16 ||| rid.slot.toUInt64

def ridDecode (value : UInt64) : RID := ⟨(value >>> 16).toUInt32, (value &&& 0xFFFF).toUInt16⟩

/-- What `read_record` finds in the slots of the heap's pages. -/
abbrev Pages := PageId → UInt16 → Option (List UInt8)

/-- `Heap::get`: the page is copied, then the record. -/
def heapGet (pages : Pages) (rid : RID) : Codec (List UInt8) :=
  match pages rid.page rid.slot with
  | some rec => pure rec
  | none => throw (.failed (bytes "get: no live record at this RID"))

/-- A record where it lies, in the frame of a page. -/
structure Span where
  page : PageId
  bytes : List UInt8
  deriving DecidableEq, Repr

/-- `read_record` of the pinned page's frame. -/
def readPinned (pages : Pages) (pin : Option PageId) (slot : UInt16) (message : Text) :
    Codec Span :=
  match pin with
  | none => throw .outside
  | some page =>
    match pages page slot with
    | some bytes => pure ⟨page, bytes⟩
    | none => throw (.failed message)

/-- A frame may be read while its page is pinned. -/
def look (pin : Option PageId) (span : Span) : Codec (List UInt8) :=
  if pin = some span.page then pure span.bytes else throw .outside

/-- `decode_run` of records that lie in pinned frames. -/
def decodeSpans (layout : RecordLayout) (pin : Option PageId) (spans : List Span) (out : Batch)
    (at_ : Nat) : Codec Batch := do
  let recs ← spans.mapM (look pin)
  decodeRun layout recs out at_

def scanMessage : Text := bytes "scan: no live record at this RID"

/-- A table's cursor: the tree's entries from the current one on, and the page that is pinned. -/
structure TableCursor where
  schema : Schema
  pages : Pages
  copy : Bool
  entries : List UInt64
  pin : Option PageId := none

namespace TableCursor

variable (cursor : TableCursor)

def layout : RecordLayout := .ofSchema cursor.schema

/-- `next`, which writes into the caller's row. -/
def next (out : Row) : Codec (Option Row × TableCursor) := do
  match cursor.entries with
  | [] => pure (none, cursor)
  | value :: rest =>
    let rid := ridDecode value
    if cursor.copy then
      let rec ← heapGet cursor.pages rid
      let row ← decode cursor.schema rec
      pure (some row, { cursor with entries := rest })
    else
      let pin := some rid.page
      let span ← readPinned cursor.pages pin rid.slot scanMessage
      let rec ← look pin span
      let row ← decodeInto cursor.layout rec out
      pure (some row, { cursor with entries := rest, pin })

/-- The loop of `fill` that copies pages. Returns how many rows, the batch and the entries left. -/
def fillCopied (max : Nat) : List UInt64 → Nat → Nat → Batch → Codec (Nat × Batch × List UInt64)
  | [], n, _, out => pure (n, out, [])
  | value :: rest, n, room, out =>
    if n < max then do
      let (out, room) :=
        if n = room then
          let grown := out.ensure (n + 1)
          (grown, grown.room)
        else (out, room)
      let rec ← heapGet cursor.pages (ridDecode value)
      let out ← decodeTo cursor.layout rec out n
      fillCopied max rest (n + 1) room out
    else pure (n, out, value :: rest)

/-- The records of the entries that follow one another on the pinned page, `left` of them at
most, and the entries after them. -/
def takeRun (pin : Option PageId) (page : PageId) : Nat → List UInt64 →
    Codec (List Span × List UInt64)
  | 0, entries => pure ([], entries)
  | _, [] => pure ([], [])
  | left + 1, value :: rest =>
    let rid := ridDecode value
    if rid.page ≠ page then pure ([], value :: rest)
    else do
      let span ← readPinned cursor.pages pin rid.slot scanMessage
      let (spans, entries) ← takeRun pin page left rest
      pure (span :: spans, entries)

/-- The loop of `fill` that reads pinned pages, at most `rounds` of it. -/
def fillPinned (max : Nat) : Nat → TableCursor → Nat → Batch → Codec (Nat × Batch × TableCursor)
  | 0, cursor, n, out => pure (n, out, cursor)
  | rounds + 1, cursor, n, out =>
    match cursor.entries with
    | [] => pure (n, out, cursor)
    | value :: _ =>
      if n < max then do
        let page := (ridDecode value).page
        let pin := some page
        let (spans, entries) ← takeRun cursor pin page (max - n) cursor.entries
        let out := out.ensure (n + spans.length)
        let out ← decodeSpans cursor.layout pin spans out n
        fillPinned max rounds { cursor with entries, pin } (n + spans.length) out
      else pure (n, out, cursor)

/-- Up to `max` rows into rows 0, 1, … of a batch. Every round takes an entry. -/
def fill (out : Batch) (max : Nat) : Codec (Nat × Batch × TableCursor) :=
  if cursor.copy then do
    let (n, out, entries) ← fillCopied cursor max cursor.entries 0 out.room out
    pure (n, { out with size := n }, { cursor with entries })
  else do
    let (n, out, after) ← fillPinned max cursor.entries.length cursor 0 out
    pure (n, { out with size := n }, after)

end TableCursor

def indexMessage : Text := bytes "index: no live record at this RID"

/-- A walk through an index: its entries in key order, and from the current one on those that
are left. -/
structure IndexCursor where
  schema : Schema
  pages : Pages
  copy : Bool
  tree : List (Key × UInt64)
  cur : Option (List (Key × UInt64)) := none
  hi : Key := 0
  key : Key := 0
  pin : Option PageId := none

/-- The variables of the loop of `IndexCursor::fill`: rows taken, the last of them not yet
decoded, the batch with the room it had when it was last looked at, the page that is pinned and
the last key. -/
structure Filling where
  n : Nat := 0
  run : List Span := []
  room : Nat
  out : Batch
  pin : Option PageId
  key : Key

namespace IndexCursor

variable (cursor : IndexCursor)

def layout : RecordLayout := .ofSchema cursor.schema

/-- Before the first entry from `lo` on. -/
def seek (lo hi : Key) : IndexCursor :=
  { cursor with cur := some (cursor.tree.dropWhile fun entry => entry.1 < lo), hi }

/-- `fetch`: the row of an entry, into the caller's row. -/
def fetch (rid : RID) (out : Row) : Codec (Row × Option PageId) :=
  if cursor.copy then do
    let rec ← heapGet cursor.pages rid
    let row ← decode cursor.schema rec
    pure (row, cursor.pin)
  else do
    let pin := some rid.page
    let span ← readPinned cursor.pages pin rid.slot indexMessage
    let rec ← look pin span
    let row ← decodeInto cursor.layout rec out
    pure (row, pin)

def next (out : Row) : Codec (Option Row × IndexCursor) :=
  match cursor.cur with
  | none => pure (none, cursor)
  | some [] => pure (none, cursor)
  | some ((key, value) :: rest) =>
    if cursor.hi < key then pure (none, cursor)
    else do
      let (row, pin) ← cursor.fetch (ridDecode value) out
      pure (some row, { cursor with cur := some rest, key, pin })

/-- The rows taken and not yet decoded are decoded, while their page is pinned. -/
def decodeTheRun (at_ : Nat) (state : Filling) : Codec Filling :=
  if state.run = [] then pure state
  else do
    let out ← decodeSpans cursor.layout state.pin state.run state.out
      (at_ + state.n - state.run.length)
    pure { state with out, run := [] }

/-- A page is pinned, in place of the one that was. -/
def turnTo (at_ : Nat) (page : PageId) (state : Filling) : Codec Filling :=
  if state.pin = some page then pure state
  else do
    let state ← cursor.decodeTheRun at_ state
    pure { state with pin := some page }

/-- One entry in range. -/
def takeEntry (at_ : Nat) (key : Key) (rid : RID) (state : Filling) : Codec Filling := do
  let state : Filling := { state with key }
  let state : Filling :=
    if at_ + state.n = state.room then
      let grown := state.out.ensure (at_ + state.n + 1)
      { state with out := grown, room := grown.room }
    else state
  if cursor.copy then
    let rec ← heapGet cursor.pages rid
    let out ← decodeTo cursor.layout rec state.out (at_ + state.n)
    pure { state with out, n := state.n + 1 }
  else
    let state ← cursor.turnTo at_ rid.page state
    let span ← readPinned cursor.pages state.pin rid.slot indexMessage
    pure { state with run := state.run ++ [span], n := state.n + 1 }

/-- The loop of `fill`. -/
def fillEntries (at_ max : Nat) : List (Key × UInt64) → Filling →
    Codec (Filling × List (Key × UInt64))
  | [], state => pure (state, [])
  | (key, value) :: rest, state =>
    if state.n < max ∧ key ≤ cursor.hi then do
      let state ← cursor.takeEntry at_ key (ridDecode value) state
      fillEntries at_ max rest state
    else pure (state, (key, value) :: rest)

/-- Up to `max` rows into rows `at_`, `at_ + 1`, … of a batch. -/
def fill (out : Batch) (at_ max : Nat) : Codec (Nat × Batch × IndexCursor) :=
  match cursor.cur with
  | none => pure (0, { out with size := at_ }, cursor)
  | some entries => do
    let (state, rest) ← cursor.fillEntries at_ max entries
      { room := out.room, out, pin := cursor.pin, key := cursor.key }
    let state ← cursor.decodeTheRun at_ state
    pure (state.n, { state.out with size := at_ + state.n },
      { cursor with cur := some rest, key := state.key, pin := state.pin })

end IndexCursor

end Labdb.Catalog
