import Labdb.Data.Bytes
import Labdb.Query.Batch

/-! Rows as bytes, as `record.hpp` encodes and decodes them, and the decoders of `batch.hpp`
that write into columns. Whatever is read or written outside of its storage is a fault. -/

namespace Labdb.Record

open Labdb.Data Labdb.Query

/-- Why there is no result: an access outside of some storage, or a check that failed. -/
inductive Fault where
  | outside
  | failed (message : Text)
  deriving DecidableEq, Repr

abbrev Codec := Except Fault

def checkThat (holds : Bool) (message : Text) : Codec Unit :=
  if holds then pure () else throw (.failed message)

/-- An access to a place that exists. -/
def within {α : Type} : Option α → Codec α
  | some found => pure found
  | none => throw .outside

def fixedWidth : ColType → Nat
  | .kInt64 => 8
  | .kInt32 => 4
  | .kBool => 1
  | .kText => 0
  | .kDouble => 8

/-- The bytes of a column in the fixed part: of a text, a 4-byte pointer. -/
def slotWidth (type : ColType) : Nat := if type = .kText then 4 else fixedWidth type

/-- The bytes of some columns' slots. -/
def slotBytes (columns : List Column) : Nat :=
  (columns.map fun column => slotWidth column.type).sum

section Schema

variable (schema : Schema)

def nullBitmapBytes : Nat := (schema.columns.length + 7) / 8

def fixedPartBytes : Nat := slotBytes schema.columns

/-- Where a column's slot begins: the bitmap and every prior slot come first, NULL or not. -/
def slotOffset (i : Nat) : Nat := nullBitmapBytes schema + slotBytes (schema.columns.take i)

end Schema

def byteAt (rec : List UInt8) (i : Nat) : Codec UInt8 := within rec[i]?

/-- `load_u16`, `load_u32` and `load_u64`. -/
def load (width : Nat) (rec : List UInt8) (at_ : Nat) : Codec Nat := do
  let range ← within (slice rec at_ width)
  pure (leValue range)

/-- `store_u16`, `store_u32` and `store_u64`. -/
def store (width : Nat) (out : List UInt8) (at_ value : Nat) : Codec (List UInt8) :=
  within (overwrite out at_ (leBytes width value))

def storeByte (out : List UInt8) (at_ : Nat) (value : UInt8) : Codec (List UInt8) :=
  within (overwrite out at_ [value])

/-- One column of `encode`: into the bitmap and the fixed part, and into the variable part. -/
def encodeColumn (schema : Schema) (state : List UInt8 × List UInt8) (i : Nat) (type : ColType)
    (field : Field) : Codec (List UInt8 × List UInt8) := do
  let (out, var) := state
  let off := slotOffset schema i
  if field.isNull then
    let byte ← byteAt out (i / 8)
    let out ← storeByte out (i / 8) (byte ||| (1 <<< (i % 8)).toUInt8)
    pure (out, var)
  else
    match type with
    | .kInt64 => do
      let out ← store 8 out off field.i64.toUInt64.toNat
      pure (out, var)
    | .kInt32 => do
      let out ← store 4 out off field.i64.toInt32.toUInt32.toNat
      pure (out, var)
    | .kBool => do
      let out ← storeByte out off (if field.i64 = 0 then 0 else 1)
      pure (out, var)
    | .kDouble => do
      let out ← store 8 out off field.f64.bits.toNat
      pure (out, var)
    | .kText => do
      checkThat (field.text.length ≤ 0xFFFF) (bytes "text too long for a 16-bit length")
      let out ← store 2 out off var.length.toUInt16.toNat
      let out ← store 2 out (off + 2) field.text.length.toUInt16.toNat
      pure (out, var ++ field.text)

/-- The loop of `encode`, from column `i` on. -/
def encodeColumns (schema : Schema) :
    Nat → List (Column × Field) → List UInt8 × List UInt8 → Codec (List UInt8 × List UInt8)
  | _, [], state => pure state
  | i, (column, field) :: rest, state => do
    let state ← encodeColumn schema state i column.type field
    encodeColumns schema (i + 1) rest state

def encode (schema : Schema) (row : Row) : Codec (List UInt8) := do
  checkThat (row.length = schema.columns.length) (bytes "row has the wrong number of columns")
  let blank := List.replicate (nullBitmapBytes schema + fixedPartBytes schema) 0
  let (out, var) ← encodeColumns schema 0 (schema.columns.zip row) (blank, [])
  pure (out ++ var)

def nullAt (rec : List UInt8) (i : Nat) : Codec Bool := do
  let byte ← byteAt rec (i / 8)
  pure (byte.toNat.testBit (i % 8))

/-- The value of a slot of a type that is neither TEXT nor DOUBLE. -/
def loadInt (type : ColType) (rec : List UInt8) (slot : Nat) : Codec Int64 :=
  match type with
  | .kInt32 => do
    let value ← load 4 rec slot
    pure (UInt32.ofNat value).toInt32.toInt64
  | .kBool => do
    let byte ← byteAt rec slot
    pure (if byte = 0 then 0 else 1)
  | _ => do
    let value ← load 8 rec slot
    pure (UInt64.ofNat value).toInt64

def loadDouble (rec : List UInt8) (slot : Nat) : Codec Double := do
  let value ← load 8 rec slot
  pure ⟨BitVec.ofNat 64 value⟩

/-- The text a slot points to, the variable part being at `varStart`. -/
def loadText (varStart : Nat) (rec : List UInt8) (slot : Nat) : Codec Text := do
  let voff ← load 2 rec slot
  let vlen ← load 2 rec (slot + 2)
  let vstart := varStart + voff
  checkThat (vstart + vlen ≤ rec.length) (bytes "text pointer runs off the record")
  within (slice rec vstart vlen)

def typeOf (schema : Schema) (i : Nat) : ColType :=
  match schema.columns[i]? with
  | some column => column.type
  | none => .kInt64

/-- The value of column `i`, which is not NULL. -/
def readAt (schema : Schema) (rec : List UInt8) (i slotOff : Nat) : Codec Field := do
  let type := typeOf schema i
  if type = .kText then
    checkThat (slotOff + 4 ≤ rec.length) (bytes "record truncated at a text pointer")
    let text ← loadText (nullBitmapBytes schema + fixedPartBytes schema) rec slotOff
    pure { type, text }
  else
    checkThat (slotOff + fixedWidth type ≤ rec.length) (bytes "record truncated mid-column")
    if type = .kDouble then
      let value ← loadDouble rec slotOff
      pure { type, i64 := ⟨⟨value.bits⟩⟩ }
    else
      let i64 ← loadInt type rec slotOff
      pure { type, i64 }

def project (schema : Schema) (rec : List UInt8) (col : Nat) : Codec Field := do
  checkThat (col < schema.columns.length) (bytes "column index out of range")
  checkThat (nullBitmapBytes schema ≤ rec.length) (bytes "record shorter than its bitmap")
  if ← nullAt rec col then pure (Field.null (typeOf schema col))
  else readAt schema rec col (slotOffset schema col)

def decode (schema : Schema) (rec : List UInt8) : Codec Row := do
  checkThat (nullBitmapBytes schema ≤ rec.length) (bytes "record shorter than its bitmap")
  (List.range schema.columns.length).mapM fun i => do
    if ← nullAt rec i then pure (Field.null (typeOf schema i))
    else readAt schema rec i (slotOffset schema i)

/-- Where each column lies in a record. -/
structure RecordLayout where
  types : List ColType
  slot : List UInt32
  nulls : Nat
  varStart : Nat
  deriving DecidableEq, Repr

namespace RecordLayout

def slotsFrom (off : Nat) : List Column → List UInt32
  | [] => []
  | column :: rest => off.toUInt32 :: slotsFrom (off + slotWidth column.type) rest

def ofSchema (schema : Schema) : RecordLayout where
  types := schema.columns.map Column.type
  slot := slotsFrom (nullBitmapBytes schema) schema.columns
  nulls := nullBitmapBytes schema
  varStart := nullBitmapBytes schema + fixedPartBytes schema

def typeAt (layout : RecordLayout) (i : Nat) : ColType := layout.types.getD i .kInt64

def slotAt (layout : RecordLayout) (i : Nat) : Nat := (layout.slot.getD i 0).toNat

end RecordLayout

section Reuse

variable (layout : RecordLayout) (rec : List UInt8)

/-- One field of `decode_into`. A text leaves the eight bytes of the field as they were. -/
def decodeField (field : Field) (i : Nat) : Codec Field := do
  let type := layout.typeAt i
  let isNull ← nullAt rec i
  let field := { field with type, isNull }
  if isNull then pure { field with i64 := 0, text := [] }
  else
    match type with
    | .kText => do
      let text ← loadText layout.varStart rec (layout.slotAt i)
      pure { field with text }
    | .kDouble => do
      let value ← loadDouble rec (layout.slotAt i)
      pure { field with i64 := ⟨⟨value.bits⟩⟩, text := [] }
    | type => do
      let i64 ← loadInt type rec (layout.slotAt i)
      pure { field with i64, text := [] }

/-- `row.resize(n)`. -/
def resized (row : Row) (n : Nat) : Row := row.take n ++ List.replicate (n - row.length) ({} : Field)

def decodeInto (row : Row) : Codec Row := do
  checkThat (layout.varStart ≤ rec.length) (bytes "record shorter than its fixed part")
  (resized row layout.types.length).zipIdx.mapM fun (field, i) => decodeField layout rec field i

end Reuse

section Columns

variable (layout : RecordLayout)

/-- An item of an array that has a place for it. -/
def setAt {α : Type} (items : List α) (i : Nat) (item : α) : Codec (List α) :=
  if i < items.length then pure (items.set i item) else throw .outside

/-- One value of `decode_to`, and of `decode_run`. -/
def decodeCell (rec : List UInt8) (column : ColumnVector) (c i : Nat) : Codec ColumnVector := do
  let isNull ← nullAt rec c
  let nulls ← setAt column.nulls i isNull
  let column := { column with nulls }
  match layout.typeAt c with
  | .kText => do
    let text ← if isNull then pure [] else loadText layout.varStart rec (layout.slotAt c)
    let texts ← setAt column.texts i text
    pure { column with texts }
  | .kDouble => do
    let value ← if isNull then pure ⟨0⟩ else loadDouble rec (layout.slotAt c)
    let doubles ← setAt column.doubles i value
    pure { column with doubles }
  | type => do
    let value ← if isNull then pure 0 else loadInt type rec (layout.slotAt c)
    let ints ← setAt column.ints i value
    pure { column with ints }

/-- The columns of a layout, each changed; those past the layout stay. -/
def eachColumn (change : ColumnVector → Nat → Codec ColumnVector) (batch : Batch) : Codec Batch := do
  if batch.cols.length < layout.types.length then throw .outside
  let cols ← batch.cols.zipIdx.mapM fun (column, c) =>
    if c < layout.types.length then change column c else pure column
  pure { batch with cols }

def decodeTo (rec : List UInt8) (batch : Batch) (i : Nat) : Codec Batch := do
  checkThat (layout.varStart ≤ rec.length) (bytes "record shorter than its fixed part")
  eachColumn layout (fun column c => decodeCell layout rec column c i) batch

/-- The records of a run, one value each of column `c`, from row `at_` on. -/
def decodeCells (c : Nat) : Nat → List (List UInt8) → ColumnVector → Codec ColumnVector
  | _, [], column => pure column
  | at_, rec :: recs, column => do
    let column ← decodeCell layout rec column c at_
    decodeCells c (at_ + 1) recs column

def decodeRun (recs : List (List UInt8)) (batch : Batch) (at_ : Nat) : Codec Batch := do
  recs.forM fun rec =>
    checkThat (layout.varStart ≤ rec.length) (bytes "record shorter than its fixed part")
  eachColumn layout (fun column c => decodeCells layout c at_ recs column) batch

end Columns

end Labdb.Record
