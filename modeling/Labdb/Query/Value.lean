import Mathlib.Data.List.Basic
import Mathlib.Algebra.Order.Ring.Rat

/-! Values of a row, as `record.hpp` holds them: a type, a NULL flag, eight bytes that
are an integer or a double, and a byte string. -/

namespace Labdb.Query

/-- The bytes of a `std::string`. -/
abbrev Text := List UInt8

/-- A string constant of the source. -/
def bytes (text : String) : Text := text.toList.map fun char => char.toNat.toUInt8

inductive ColType where
  | kInt64
  | kInt32
  | kBool
  | kText
  | kDouble
  deriving DecidableEq, Repr

/-- The bit pattern of an IEEE 754 binary64 number. -/
structure Double where
  bits : BitVec 64
  deriving DecidableEq, Repr

namespace Double

def negative (double : Double) : Bool := double.bits.msb

def exponent (double : Double) : Nat := double.bits.toNat / 2 ^ 52 % 2 ^ 11

def fraction (double : Double) : Nat := double.bits.toNat % 2 ^ 52

def isNaN (double : Double) : Bool := double.exponent = 2047 ∧ double.fraction ≠ 0

/-- Where a number lies among the others: its magnitude's bits with its sign. -/
def rank (double : Double) : Int :=
  if double.negative then -(double.bits.toNat % 2 ^ 63 : Nat) else (double.bits.toNat % 2 ^ 63 : Nat)

/-- `x < y`, which a NaN on either side makes false. -/
def lt (x y : Double) : Bool := !x.isNaN && !y.isNaN && decide (x.rank < y.rank)

/-- `x == y`, likewise. -/
def eq (x y : Double) : Bool := !x.isNaN && !y.isNaN && decide (x.rank = y.rank)

/-- The value of a finite number. -/
def value (double : Double) : ℚ :=
  let significand :=
    if double.exponent = 0 then double.fraction else 2 ^ 52 + double.fraction
  let scale := max double.exponent 1 - 1
  let magnitude : ℚ := (significand * 2 ^ scale : Nat) / (2 ^ 1074 : Nat)
  if double.negative then -magnitude else magnitude

/-- The binary exponent of `numerator / denominator`. -/
def exponentOf (numerator denominator : Nat) : Int :=
  let guess : Int := numerator.log2 - denominator.log2
  if numerator * 2 ^ (-guess).toNat < denominator * 2 ^ guess.toNat then guess - 1 else guess

/-- The nearest number, the even one of two; zero is positive. -/
def ofRat (value : ℚ) : Double :=
  let numerator := value.num.natAbs
  if numerator = 0 then ⟨0⟩
  else
    let exponent := max (exponentOf numerator value.den) (-1022)
    let dividend := numerator * 2 ^ (52 - exponent).toNat
    let divisor := value.den * 2 ^ (exponent - 52).toNat
    let quotient := dividend / divisor
    let remainder := dividend % divisor
    let up := divisor < 2 * remainder ∨ 2 * remainder = divisor ∧ quotient % 2 = 1
    let rounded := (exponent + 1022).toNat * 2 ^ 52 + quotient + if up then 1 else 0
    let magnitude := min rounded (2047 * 2 ^ 52)
    ⟨BitVec.ofNat 64 (if value < 0 then 2 ^ 63 + magnitude else magnitude)⟩

/-- `static_cast<double>` of an integer. -/
def ofInt (value : Int64) : Double := ofRat value.toInt

/-- The quotient of finite numbers, the divisor positive. -/
def div (dividend divisor : Double) : Double := ofRat (dividend.value / divisor.value)

end Double

/-- A column value. -/
structure Field where
  type : ColType := .kInt64
  isNull : Bool := false
  i64 : Int64 := 0
  text : Text := []
  deriving DecidableEq, Repr

namespace Field

/-- A double shares the bytes of `i64`. -/
def f64 (field : Field) : Double := ⟨field.i64.toBitVec⟩

def ofInt64 (value : Int64) : Field := { type := .kInt64, i64 := value }

def ofInt32 (value : Int32) : Field := { type := .kInt32, i64 := value.toInt64 }

def ofBool (value : Bool) : Field := { type := .kBool, i64 := if value then 1 else 0 }

def ofText (value : Text) : Field := { type := .kText, text := value }

def ofDouble (value : Double) : Field := { type := .kDouble, i64 := ⟨⟨value.bits⟩⟩ }

def null (type : ColType) : Field := { type, isNull := true }

/-- The value as a double: integers convert, a double is itself. -/
def asDouble (field : Field) : Double :=
  if field.type = .kDouble then field.f64 else .ofInt field.i64

end Field

abbrev Row := List Field

structure Column where
  name : Text
  type : ColType
  nullable : Bool := true
  deriving DecidableEq, Repr

structure Schema where
  columns : List Column := []
  deriving DecidableEq, Repr

abbrev Key := UInt64

/-- The loop of `orderKeyText`, with `left` bytes to go. -/
def foldText : Nat → Key → Text → Key
  | 0, key, _ => key
  | _, key, [] => key
  | left + 1, key, byte :: rest =>
    foldText left (key ||| byte.toUInt64 <<< (8 * left).toUInt64) rest

/-- The first eight bytes, the first of them most significant. -/
def orderKeyText (text : Text) : Key := foldText 8 0 text

def orderKeyDouble (value : Double) : Key :=
  let bits := if value.eq ⟨0⟩ then 0 else value.bits
  ⟨if bits.msb then ~~~bits else bits ||| 1#64 <<< 63⟩

def orderKeyInt (value : Int64) : Key := value.toUInt64 ^^^ ((1 : UInt64) <<< 63)

/-- A value folded into 64 bits whose unsigned order is the value's order. -/
def orderKey (field : Field) : Key :=
  match field.type with
  | .kText => orderKeyText field.text
  | .kDouble => orderKeyDouble field.f64
  | _ => orderKeyInt field.i64

def orderKeyExact (type : ColType) : Bool := type ≠ .kText

end Labdb.Query
