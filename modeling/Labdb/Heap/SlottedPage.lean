import Labdb.Data.Memory

/-! A page of records, as `slotted_page.hpp` lays it out: the header's fields, a directory of
slots that grows from the front and cells that grow from the back. The 16-bit fields are
`UInt16`, whose arithmetic wraps as the casts of the source do. -/

namespace Labdb.Heap

open Labdb.Data

def kPageSize : Nat := 4096

def kPageHeaderSize : Nat := 20

def kSlotSize : Nat := 4

def kMaxRecordSize : Nat := kPageSize - kPageHeaderSize - kSlotSize

/-- `PageType::kSlotted`. -/
def kSlotted : UInt16 := 2

/-- A page by address; what is beyond its 4096 bytes is not the page's. -/
abbrev Image := Memory

namespace Image

def slotCount (p : Image) : UInt16 := p.load16 6

def setSlotCount (p : Image) (value : UInt16) : Image := p.store16 6 value

def freeStart (p : Image) : UInt16 := p.load16 8

def setFreeStart (p : Image) (value : UInt16) : Image := p.store16 8 value

def freeEnd (p : Image) : UInt16 := p.load16 10

def setFreeEnd (p : Image) (value : UInt16) : Image := p.store16 10 value

def fragBytes (p : Image) : UInt16 := p.load16 12

def setFragBytes (p : Image) (value : UInt16) : Image := p.store16 12 value

def setId (p : Image) (id : UInt32) : Image := p.write 0 (leBytes 4 id.toNat)

def setType (p : Image) (value : UInt16) : Image := p.store16 4 value

def setNextPage (p : Image) (id : UInt32) : Image := p.write 16 (leBytes 4 id.toNat)

/-- A fresh page without slots. -/
def init (p : Image) (id : UInt32) : Image :=
  ((((((p.setId id).setType kSlotted).setSlotCount 0).setFreeStart
    (.ofNat kPageHeaderSize)).setFreeEnd (.ofNat kPageSize)).setFragBytes 0).setNextPage 0

def slotPos (slot : Nat) : Nat := kPageHeaderSize + kSlotSize * slot

/-- Where a slot's cell begins, or 0 for a dead slot. -/
def slotOff (p : Image) (slot : Nat) : UInt16 := p.load16 (slotPos slot)

def slotLen (p : Image) (slot : Nat) : UInt16 := p.load16 (slotPos slot + 2)

def setSlot (p : Image) (slot : Nat) (off len : UInt16) : Image :=
  (p.store16 (slotPos slot) off).store16 (slotPos slot + 2) len

/-- The bytes of a cell. -/
def cell (p : Image) (off len : Nat) : List UInt8 := Memory.read p off len

def setCell (p : Image) (off : Nat) (bytes : List UInt8) : Image := Memory.write p off bytes

def contiguousFree (p : Image) : UInt64 := p.freeEnd.toUInt64 - p.freeStart.toUInt64

def totalFree (p : Image) : UInt64 := p.contiguousFree + p.fragBytes.toUInt64

def live (p : Image) (slot : Nat) : Bool := slot < p.slotCount.toNat ∧ p.slotOff slot ≠ 0

def read (p : Image) (slot : Nat) : Option (List UInt8) :=
  if p.live slot then some (p.cell (p.slotOff slot).toNat (p.slotLen slot).toNat) else none

/-- `read` of a page that is pinned in the pool. -/
def readRecord (p : Image) (slot : Nat) : Option (List UInt8) :=
  if p.slotCount.toNat ≤ slot then none
  else if p.slotOff slot = 0 then none
  else some (p.cell (p.slotOff slot).toNat (p.slotLen slot).toNat)

/-- What the loop of `compact` goes on with: the scratch page, the page and the end of the
cells to be written. -/
structure Compaction where
  scratch : Memory
  page : Image
  writePos : UInt16

def compactSlot (c : Compaction) (slot : Nat) : Compaction :=
  let off := c.page.slotOff slot
  if off = 0 then c
  else
    let len := c.page.slotLen slot
    let writePos := c.writePos - len
    { scratch := c.scratch.write writePos.toNat (c.page.cell off.toNat len.toNat)
      page := c.page.setSlot slot writePos len
      writePos }

/-- The live cells packed against the end of the page; `scratch` is what the scratch page
held. -/
def compact (scratch : Memory) (p : Image) : Image :=
  let c := (List.range p.slotCount.toNat).foldl compactSlot
    { scratch, page := p, writePos := .ofNat kPageSize }
  let packed := c.scratch.read c.writePos.toNat (kPageSize - c.writePos.toNat)
  ((c.page.setCell c.writePos.toNat packed).setFreeEnd c.writePos).setFragBytes 0

/-- The first dead slot. -/
def deadSlot (p : Image) : Option Nat :=
  (List.range p.slotCount.toNat).find? fun slot => p.slotOff slot = 0

def insert (scratch : Memory) (p : Image) (rec : List UInt8) : Option Nat × Image :=
  if rec = [] ∨ kMaxRecordSize < rec.length then (none, p)
  else
    let len : UInt16 := .ofNat rec.length
    let reuse := p.deadSlot
    let n := p.slotCount
    let need : UInt64 := len.toUInt64 + if reuse.isSome then 0 else .ofNat kSlotSize
    if p.contiguousFree < need ∧ p.totalFree < need then (none, p)
    else
      let p := if p.contiguousFree < need then p.compact scratch else p
      let off := p.freeEnd - len
      let p := (p.setCell off.toNat rec).setFreeEnd off
      match reuse with
      | some slot => (some slot, p.setSlot slot off len)
      | none =>
        let p := p.setSlotCount (n + 1)
        let p := p.setFreeStart (p.freeStart + .ofNat kSlotSize)
        (some n.toNat, p.setSlot n.toNat off len)

/-- Dead slots at the end of the directory, given back. -/
def giveBack : Nat → Image → Nat × Image
  | 0, p => (0, p)
  | n + 1, p =>
    if p.slotOff n = 0 then giveBack n (p.setFreeStart (p.freeStart - .ofNat kSlotSize))
    else (n + 1, p)

def erase (p : Image) (slot : Nat) : Bool × Image :=
  if p.live slot then
    let p := p.setFragBytes (p.fragBytes + p.slotLen slot)
    let p := p.setSlot slot 0 0
    let (n, p) := giveBack p.slotCount.toNat p
    (true, p.setSlotCount (.ofNat n))
  else (false, p)

end Image

end Labdb.Heap
