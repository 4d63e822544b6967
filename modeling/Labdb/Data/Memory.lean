import Mathlib.Algebra.Order.Ring.Nat
import Mathlib.Data.List.Basic

/-! A block of bytes by address: ranges that are read and written, and numbers that are stored
in them, the low byte first. -/

namespace Labdb.Data

abbrev Memory := Nat → UInt8

/-- The number that some bytes stand for. -/
def leValue : List UInt8 → Nat
  | [] => 0
  | byte :: bytes => byte.toNat + 256 * leValue bytes

/-- The bytes of a number, some of them. -/
def leBytes : Nat → Nat → List UInt8
  | 0, _ => []
  | width + 1, value => (value % 256).toUInt8 :: leBytes width (value / 256)

@[simp] theorem length_leBytes (width value : Nat) : (leBytes width value).length = width := by
  induction width generalizing value with
  | zero => rfl
  | succ width ih => rw [leBytes, List.length_cons, ih]

theorem leValue_leBytes {width value : Nat} (small : value < 256 ^ width) :
    leValue (leBytes width value) = value := by
  induction width generalizing value with
  | zero =>
    rw [Nat.lt_one_iff.mp small]
    rfl
  | succ width ih =>
    have low : ((value % 256).toUInt8).toNat = value % 256 := by
      rw [Nat.toUInt8, UInt8.toNat_ofNat']
      omega
    have high : value / 256 < 256 ^ width := by
      rw [Nat.pow_succ] at small
      exact Nat.div_lt_of_lt_mul (by rwa [Nat.mul_comm])
    rw [leBytes, leValue, low, ih high]
    omega

namespace Memory

def read (m : Memory) (at_ count : Nat) : List UInt8 := (List.range count).map fun i => m (at_ + i)

def write (m : Memory) (at_ : Nat) (bytes : List UInt8) : Memory := fun i =>
  if at_ ≤ i then (bytes[i - at_]?).getD (m i) else m i

variable {m m' : Memory} {at_ at' count : Nat} {bytes : List UInt8}

@[simp] theorem length_read : (m.read at_ count).length = count := by
  rw [read, List.length_map, List.length_range]

theorem read_congr (same : ∀ i, at_ ≤ i → i < at_ + count → m i = m' i) :
    m.read at_ count = m'.read at_ count := by
  refine List.map_congr_left fun i member => ?_
  have := List.mem_range.mp member
  exact same _ (by omega) (by omega)

/-- Bytes outside a range that is written stay. -/
theorem write_outside {i : Nat} (outside : i < at_ ∨ at_ + bytes.length ≤ i) :
    m.write at_ bytes i = m i := by
  unfold write
  split
  · rw [List.getElem?_eq_none (by omega)]
    rfl
  · rfl

theorem write_inside {i : Nat} (inside : i < bytes.length) :
    m.write at_ bytes (at_ + i) = bytes[i] := by
  unfold write
  rw [if_pos (Nat.le_add_right _ _), Nat.add_sub_cancel_left, List.getElem?_eq_getElem inside]
  rfl

theorem write_byte (m : Memory) (at_ : Nat) (byte : UInt8) : m.write at_ [byte] at_ = byte :=
  @write_inside m at_ [byte] 0 Nat.one_pos

@[simp] theorem read_write : (m.write at_ bytes).read at_ bytes.length = bytes := by
  apply List.ext_getElem
  · rw [length_read]
  · intro i short inside
    rw [← @write_inside m at_ bytes i inside]
    simp only [read, List.getElem_map, List.getElem_range]

theorem read_add (m : Memory) (at_ front back : Nat) :
    m.read at_ (front + back) = m.read at_ front ++ m.read (at_ + front) back := by
  simp only [read, List.range_add, List.map_append, List.map_map, Function.comp_def, Nat.add_assoc]

theorem read_zeros (clear : ∀ i, at_ ≤ i → i < at_ + count → m i = 0) :
    m.read at_ count = List.replicate count 0 := by
  apply List.ext_getElem
  · rw [length_read, List.length_replicate]
  · intro i short _
    rw [length_read] at short
    simp only [read, List.getElem_map, List.getElem_range, List.getElem_replicate]
    exact clear _ (by omega) (by omega)

theorem read_write_of_disjoint (apart : at_ + count ≤ at' ∨ at' + bytes.length ≤ at_) :
    (m.write at' bytes).read at_ count = m.read at_ count :=
  read_congr fun i _ _ => write_outside (by omega)

private theorem leValue_stored {width value : Nat} (small : value < 256 ^ width) :
    leValue ((m.write at_ (leBytes width value)).read at_ width) = value := by
  have same : (m.write at_ (leBytes width value)).read at_ width = leBytes width value := by
    have written : (m.write at_ (leBytes width value)).read at_ (leBytes width value).length = _ :=
      read_write
    rwa [length_leBytes] at written
  rw [same, leValue_leBytes small]

def load16 (m : Memory) (at_ : Nat) : UInt16 := .ofNat (leValue (m.read at_ 2))

def store16 (m : Memory) (at_ : Nat) (value : UInt16) : Memory :=
  m.write at_ (leBytes 2 value.toNat)

@[simp] theorem load16_store16 (value : UInt16) : (m.store16 at_ value).load16 at_ = value := by
  rw [load16, store16, leValue_stored value.toNat_lt, UInt16.ofNat_toNat]

theorem store16_outside {value : UInt16} {i : Nat} (outside : i < at_ ∨ at_ + 2 ≤ i) :
    m.store16 at_ value i = m i :=
  write_outside (by rwa [length_leBytes])

theorem read_store16 {value : UInt16} (apart : at_ + count ≤ at' ∨ at' + 2 ≤ at_) :
    (m.store16 at' value).read at_ count = m.read at_ count :=
  read_write_of_disjoint (by rwa [length_leBytes])

theorem load16_store16_of_disjoint {value : UInt16} (apart : at_ + 2 ≤ at' ∨ at' + 2 ≤ at_) :
    (m.store16 at' value).load16 at_ = m.load16 at_ := by
  rw [load16, read_store16 apart, load16]

theorem load16_write (apart : at_ + 2 ≤ at' ∨ at' + bytes.length ≤ at_) :
    (m.write at' bytes).load16 at_ = m.load16 at_ := by
  rw [load16, read_write_of_disjoint apart, load16]

theorem load16_congr (low : m at_ = m' at_) (high : m (at_ + 1) = m' (at_ + 1)) :
    m.load16 at_ = m'.load16 at_ := by
  rw [load16, load16, read_congr fun i least most => ?_]
  obtain rfl | rfl : i = at_ ∨ i = at_ + 1 := by omega
  · exact low
  · exact high

def load32 (m : Memory) (at_ : Nat) : UInt32 := .ofNat (leValue (m.read at_ 4))

def store32 (m : Memory) (at_ : Nat) (value : UInt32) : Memory :=
  m.write at_ (leBytes 4 value.toNat)

@[simp] theorem load32_store32 (value : UInt32) : (m.store32 at_ value).load32 at_ = value := by
  rw [load32, store32, leValue_stored value.toNat_lt, UInt32.ofNat_toNat]

theorem load32_congr (same : ∀ i, at_ ≤ i → i < at_ + 4 → m i = m' i) :
    m.load32 at_ = m'.load32 at_ := by
  rw [load32, load32, read_congr same]

theorem load32_zeros (clear : ∀ i, at_ ≤ i → i < at_ + 4 → m i = 0) : m.load32 at_ = 0 := by
  rw [load32, read_zeros clear]
  rfl

theorem store32_outside {value : UInt32} {i : Nat} (outside : i < at_ ∨ at_ + 4 ≤ i) :
    m.store32 at_ value i = m i :=
  write_outside (by rwa [length_leBytes])

def load64 (m : Memory) (at_ : Nat) : UInt64 := .ofNat (leValue (m.read at_ 8))

def store64 (m : Memory) (at_ : Nat) (value : UInt64) : Memory :=
  m.write at_ (leBytes 8 value.toNat)

@[simp] theorem load64_store64 (value : UInt64) : (m.store64 at_ value).load64 at_ = value := by
  rw [load64, store64, leValue_stored value.toNat_lt, UInt64.ofNat_toNat]

theorem load64_congr (same : ∀ i, at_ ≤ i → i < at_ + 8 → m i = m' i) :
    m.load64 at_ = m'.load64 at_ := by
  rw [load64, load64, read_congr same]

theorem load64_zeros (clear : ∀ i, at_ ≤ i → i < at_ + 8 → m i = 0) : m.load64 at_ = 0 := by
  rw [load64, read_zeros clear]
  rfl

theorem store64_outside {value : UInt64} {i : Nat} (outside : i < at_ ∨ at_ + 8 ≤ i) :
    m.store64 at_ value i = m i :=
  write_outside (by rwa [length_leBytes])

theorem load32_store32_of_disjoint {value : UInt32} (apart : at_ + 4 ≤ at' ∨ at' + 4 ≤ at_) :
    (m.store32 at' value).load32 at_ = m.load32 at_ :=
  load32_congr fun i _ _ => store32_outside (by omega)

theorem load32_store64_of_disjoint {value : UInt64} (apart : at_ + 4 ≤ at' ∨ at' + 8 ≤ at_) :
    (m.store64 at' value).load32 at_ = m.load32 at_ :=
  load32_congr fun i _ _ => store64_outside (by omega)

theorem load64_store32_of_disjoint {value : UInt32} (apart : at_ + 8 ≤ at' ∨ at' + 4 ≤ at_) :
    (m.store32 at' value).load64 at_ = m.load64 at_ :=
  load64_congr fun i _ _ => store32_outside (by omega)

end Memory

end Labdb.Data
