import Labdb.Query.Table
import Mathlib.Data.Nat.Bitwise

/-! The order of values, and the keys that fold it into 64 bits. -/
namespace Labdb.Query

private theorem xor_top {n : Nat} (small : n < 2 ^ 64) :
    n ^^^ 2 ^ 63 = if n < 2 ^ 63 then n + 2 ^ 63 else n - 2 ^ 63 := by
  have low : (n ^^^ 2 ^ 63) % 2 ^ 63 = n % 2 ^ 63 := by
    rw [Nat.xor_mod_two_pow, Nat.mod_self, Nat.xor_zero]
  have high : (n ^^^ 2 ^ 63) / 2 ^ 63 = (n / 2 ^ 63) ^^^ 1 := by
    rw [Nat.xor_div_two_pow, Nat.div_self (Nat.two_pow_pos 63)]
  have split := Nat.div_add_mod (n ^^^ 2 ^ 63) (2 ^ 63)
  rw [low, high] at split
  by_cases below : n < 2 ^ 63
  · rw [Nat.div_eq_of_lt below, Nat.zero_xor] at split
    rw [if_pos below]
    omega
  · have one : n / 2 ^ 63 = 1 := by omega
    rw [one, Nat.xor_self] at split
    rw [if_neg below]
    omega

theorem orderKeyInt_toNat (value : Int64) :
    ((orderKeyInt value).toNat : Int) = value.toInt + 2 ^ 63 := by
  have xored : (orderKeyInt value).toNat = value.toBitVec.toNat ^^^ 2 ^ 63 := by
    unfold orderKeyInt
    rw [UInt64.toNat_xor]
    rfl
  rw [xored, xor_top value.toBitVec.isLt]
  have signed := BitVec.toInt_eq_toNat_cond value.toBitVec
  have small := value.toBitVec.isLt
  change _ = value.toBitVec.toInt + 2 ^ 63
  split at signed <;> split <;> omega

/-- The order key of a number that is not a NaN: its rank, the two zeros being one. -/
theorem orderKeyDouble_toNat {value : Double} (number : value.isNaN = false) :
    ((orderKeyDouble value).toNat : Int) =
      value.rank + 2 ^ 63 - if value.rank < 0 then 1 else 0 := by
  have zero : value.eq ⟨0⟩ = decide (value.rank = 0) := by
    have zeroNumber : (⟨0⟩ : Double).isNaN = false := by decide
    have zeroRank : (⟨0⟩ : Double).rank = 0 := by decide
    simp only [Double.eq, number, zeroNumber, zeroRank, Bool.not_false, Bool.true_and]
  have small := value.bits.isLt
  have sign := BitVec.msb_eq_decide value.bits
  unfold orderKeyDouble
  rw [zero]
  by_cases none_ : value.rank = 0
  · rw [none_]
    simp only [decide_true, if_true]
    decide
  · simp only [none_, decide_false, Bool.false_eq_true, if_false]
    cases negative : value.bits.msb with
    | true =>
      have rank : value.rank = -(value.bits.toNat % 2 ^ 63 : Nat) := by
        simp only [Double.rank, Double.negative, negative, if_true]
      have key : (UInt64.ofBitVec (~~~value.bits)).toNat = 2 ^ 64 - 1 - value.bits.toNat :=
        BitVec.toNat_not
      rw [negative] at sign
      have high : 2 ^ 63 ≤ value.bits.toNat := by simpa using sign.symm
      simp only [if_true, key]
      rw [rank] at none_ ⊢
      split <;> omega
    | false =>
      have rank : value.rank = (value.bits.toNat % 2 ^ 63 : Nat) := by
        simp only [Double.rank, Double.negative, negative, Bool.false_eq_true, if_false]
      have low : value.bits.toNat < 2 ^ 63 := by
        rw [negative] at sign
        simpa using sign.symm
      have key : (UInt64.ofBitVec (value.bits ||| 1#64 <<< 63)).toNat =
          2 ^ 63 + value.bits.toNat := by
        change (value.bits ||| 1#64 <<< 63).toNat = _
        rw [BitVec.toNat_or, Nat.or_comm]
        exact (Nat.two_pow_add_eq_or_of_lt low 1).symm
      simp only [Bool.false_eq_true, if_false, key]
      rw [rank]
      split <;> omega

/-- The number that the first `left` bytes of a text make. -/
def prefixValue : Nat → Text → Nat
  | 0, _ => 0
  | _, [] => 0
  | left + 1, byte :: rest => byte.toNat * 256 ^ left + prefixValue left rest

theorem prefixValue_lt (left : Nat) (text : Text) : prefixValue left text < 256 ^ left := by
  induction left generalizing text with
  | zero => exact Nat.one_pos
  | succ left ih =>
    cases text with
    | nil => exact Nat.pow_pos (by decide)
    | cons byte rest =>
      have byteLt := byte.toNat_lt
      have restLt := ih rest
      rw [prefixValue, Nat.pow_succ]
      have top : byte.toNat * 256 ^ left + 256 ^ left ≤ 256 * 256 ^ left := by
        rw [← Nat.succ_mul]
        exact Nat.mul_le_mul_right _ byteLt
      omega

private theorem foldText_toNat {left : Nat} (text : Text) {key : Key} (room : left ≤ 8)
    (blank : 256 ^ left ∣ key.toNat) :
    (foldText left key text).toNat = key.toNat + prefixValue left text := by
  induction text generalizing left key with
  | nil => cases left <;> rfl
  | cons byte rest ih =>
    cases left with
    | zero => rfl
    | succ left =>
      have power : 2 ^ (8 * left) = 256 ^ left := by rw [Nat.pow_mul]
      have shifted : (byte.toUInt64 <<< (8 * left).toUInt64).toNat = byte.toNat * 256 ^ left := by
        have places : (8 * left).toUInt64.toNat % 64 = 8 * left := by
          rw [Nat.toUInt64_eq, UInt64.toNat_ofNat']
          omega
        have fits : byte.toNat * 256 ^ left < 2 ^ 64 := by
          have top : 256 ^ (left + 1) ≤ 256 ^ 8 := Nat.pow_le_pow_right (by decide) room
          rw [Nat.pow_succ] at top
          have byteLt := Nat.mul_lt_mul_of_pos_right byte.toNat_lt
            (Nat.pow_pos (n := left) (show 0 < 256 by decide))
          omega
        rw [UInt64.toNat_shiftLeft, places, Nat.shiftLeft_eq, UInt8.toNat_toUInt64, power,
          Nat.mod_eq_of_lt fits]
      have added : (key ||| byte.toUInt64 <<< (8 * left).toUInt64).toNat =
          key.toNat + byte.toNat * 256 ^ left := by
        obtain ⟨more, same⟩ := blank
        have below : byte.toNat * 256 ^ left < 2 ^ (8 * (left + 1)) := by
          rw [Nat.pow_mul, Nat.pow_succ, Nat.mul_comm]
          exact Nat.mul_lt_mul_of_pos_left byte.toNat_lt (Nat.pow_pos (by decide))
        rw [UInt64.toNat_or, shifted, same]
        have whole : 256 ^ (left + 1) = 2 ^ (8 * (left + 1)) := by rw [Nat.pow_mul]
        rw [whole]
        exact (Nat.two_pow_add_eq_or_of_lt below more).symm
      rw [foldText, ih (by omega) ?_, added, prefixValue]
      · omega
      · rw [added]
        exact Nat.dvd_add (Nat.dvd_trans (Nat.pow_dvd_pow 256 (Nat.le_succ left)) blank)
          (Nat.dvd_mul_left _ _)

theorem orderKeyText_toNat (text : Text) : (orderKeyText text).toNat = prefixValue 8 text := by
  rw [orderKeyText, foldText_toNat text (Nat.le_refl 8) (Nat.dvd_zero _)]
  exact Nat.zero_add _

private theorem prefixValue_mono (left : Nat) {a b : Text} (le : compare a b ≠ .gt) :
    prefixValue left a ≤ prefixValue left b := by
  induction left generalizing a b with
  | zero => exact Nat.le_refl _
  | succ left ih =>
    cases a with
    | nil => exact Nat.zero_le _
    | cons x a =>
      cases b with
      | nil => exact absurd List.compareLex_cons_nil le
      | cons y b =>
        have split : compare (x :: a) (y :: b) = (compare x y).then (compare a b) :=
          List.compareLex_cons_cons
        rw [split] at le
        simp only [prefixValue]
        cases first : compare x y with
        | gt => exact absurd (by rw [first]; rfl) le
        | eq =>
          cases Std.LawfulEqOrd.eq_of_compare first
          rw [first] at le
          exact Nat.add_le_add_left (ih le) _
        | lt =>
          have less : x.toNat < y.toNat := UInt8.lt_iff_toNat_lt.mp (Std.compare_eq_lt.mp first)
          have scaled : x.toNat * 256 ^ left + 256 ^ left ≤ y.toNat * 256 ^ left := by
            rw [← Nat.succ_mul]
            exact Nat.mul_le_mul_right _ less
          have rest := prefixValue_lt left a
          omega

/-- Values that compare with one another. -/
inductive OrderClass where
  | text
  | double
  | integer
  deriving DecidableEq, Repr

def orderClass : ColType → OrderClass
  | .kText => .text
  | .kDouble => .double
  | _ => .integer

/-- Where a value lies among those of its class. -/
def Field.ranked (field : Field) : Int × Text :=
  match field.type with
  | .kText => (0, field.text)
  | .kDouble => (field.f64.rank, [])
  | _ => (field.i64.toInt, [])

/-- A value that is a number where it is a double. -/
def Field.Ordered (field : Field) : Prop := field.type = .kDouble → field.f64.isNaN = false

section Values

attribute [local instance] lexOrd

variable {a b c : Field}

private theorem compare_toInt (x y : Int64) : compare x y = compare x.toInt y.toInt := by
  cases order : compare x y with
  | lt => exact (Std.compare_eq_lt.mpr (Int64.lt_iff_toInt_lt.mp (Std.compare_eq_lt.mp order))).symm
  | eq =>
    exact (Std.compare_eq_iff_eq.mpr
      (congrArg Int64.toInt (Std.compare_eq_iff_eq.mp order))).symm
  | gt => exact (Std.compare_eq_gt.mpr (Int64.lt_iff_toInt_lt.mp (Std.compare_eq_gt.mp order))).symm

theorem compareRanks {x y : Double} (xNumber : x.isNaN = false) (yNumber : y.isNaN = false) :
    (if y.lt x then Ordering.gt else if x.lt y then .lt else .eq) = compare x.rank y.rank := by
  simp only [Double.lt, xNumber, yNumber, Bool.not_false, Bool.true_and, decide_eq_true_eq]
  cases order : compare x.rank y.rank with
  | lt =>
    have less := Std.compare_eq_lt.mp order
    rw [if_neg (Int.not_lt.mpr (Int.le_of_lt less)), if_pos less]
  | eq =>
    have equal := Std.compare_eq_iff_eq.mp order
    rw [equal, if_neg (Int.lt_irrefl _), if_neg (Int.lt_irrefl _)]
  | gt => rw [if_pos (Std.compare_eq_gt.mp order)]

private theorem compare_pair (x y : Int) (s t : Text) :
    compare (x, s) (y, t) = (compare x y).then (compare s t) := rfl

theorem compareValues_ranked (same : orderClass a.type = orderClass b.type) (aOrd : a.Ordered)
    (bOrd : b.Ordered) : compareValues a b = compare a.ranked b.ranked := by
  unfold compareValues compareFields
  cases ta : a.type <;> cases tb : b.type <;> rw [ta, tb] at same <;> try cases same
  all_goals simp only [Field.ranked, ta, tb, compare_pair, Std.compare_self, Ordering.then_eq,
    Ordering.eq_then, reduceCtorEq, decide_false, decide_true, Bool.or_self, Bool.false_eq_true,
    if_false, if_true, compare_toInt]
  simp only [Field.asDouble, ta, tb, if_true]
  exact compareRanks (aOrd ta) (bOrd tb)

theorem compareValues_swap (same : orderClass a.type = orderClass b.type) (aOrd : a.Ordered)
    (bOrd : b.Ordered) : compareValues a b = (compareValues b a).swap := by
  rw [compareValues_ranked same aOrd bOrd, compareValues_ranked same.symm bOrd aOrd]
  exact Std.OrientedCmp.eq_swap

theorem orderKey_mono (same : orderClass a.type = orderClass b.type) (aOrd : a.Ordered)
    (bOrd : b.Ordered) (le : compareValues a b ≠ .gt) : orderKey a ≤ orderKey b := by
  rw [UInt64.le_iff_toNat_le]
  unfold orderKey
  rw [compareValues_ranked same aOrd bOrd] at le
  cases ta : a.type <;> cases tb : b.type <;> rw [ta, tb] at same <;> try cases same
  all_goals simp only [Field.ranked, ta, tb, compare_pair, Std.compare_self, Ordering.then_eq,
    Ordering.eq_then] at le
  case kText.kText.refl =>
    simp only [orderKeyText_toNat]
    exact prefixValue_mono 8 le
  case kDouble.kDouble.refl =>
    have ranks : a.f64.rank ≤ b.f64.rank := Int.not_lt.mp (mt Std.compare_eq_gt.mpr le)
    have akey := orderKeyDouble_toNat (aOrd ta)
    have bkey := orderKeyDouble_toNat (bOrd tb)
    simp only
    split at akey <;> split at bkey <;> omega
  all_goals
    have values : a.i64.toInt ≤ b.i64.toInt := Int.not_lt.mp (mt Std.compare_eq_gt.mpr le)
    have akey := orderKeyInt_toNat a.i64
    have bkey := orderKeyInt_toNat b.i64
    simp only
    omega

theorem orderKey_strict (same : orderClass a.type = orderClass b.type) (aOrd : a.Ordered)
    (bOrd : b.Ordered) (exact_ : orderKeyExact a.type = true) (lt : compareValues a b = .lt) :
    orderKey a < orderKey b := by
  rw [UInt64.lt_iff_toNat_lt]
  unfold orderKey
  rw [compareValues_ranked same aOrd bOrd] at lt
  cases ta : a.type <;> cases tb : b.type <;> rw [ta, tb] at same <;> try cases same
  all_goals simp only [Field.ranked, ta, tb, compare_pair, Std.compare_self, Ordering.then_eq,
    Ordering.eq_then] at lt
  case kText.kText.refl => rw [ta] at exact_; cases exact_
  case kDouble.kDouble.refl =>
    have ranks := Std.compare_eq_lt.mp lt
    have akey := orderKeyDouble_toNat (aOrd ta)
    have bkey := orderKeyDouble_toNat (bOrd tb)
    simp only
    split at akey <;> split at bkey <;> omega
  all_goals
    have values := Std.compare_eq_lt.mp lt
    have akey := orderKeyInt_toNat a.i64
    have bkey := orderKeyInt_toNat b.i64
    simp only
    omega

end Values

end Labdb.Query
