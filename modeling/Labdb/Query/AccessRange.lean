import Labdb.Data.Bound
import Labdb.Query.Access

/-! The range of keys of a column's terms: it holds the key of every value that satisfies
them and, where keys are exact, of no other. -/

namespace Labdb.Query

open Labdb.Sql Labdb.Data

attribute [local instance] lexOrd

/-- The order of values, of all of them. -/
def rankedOrder : Field → Field → Ordering := compareOn Field.ranked

instance : Std.TransCmp rankedOrder :=
  inferInstanceAs (Std.TransCmp (compareOn Field.ranked))

/-- A value that compares with those of a column of this type, which is not DOUBLE. -/
structure Field.Of (type : ColType) (field : Field) : Prop where
  same : orderClass field.type = orderClass type
  noDouble : field.type ≠ .kDouble

section Values

variable {type : ColType} {a b : Field}

theorem Field.Of.ordered (isOf : a.Of type) : a.Ordered := fun double =>
  absurd double isOf.noDouble

theorem compareValues_of (aOf : a.Of type) (bOf : b.Of type) :
    compareValues a b = rankedOrder a b :=
  compareValues_ranked (aOf.same.trans bOf.same.symm) aOf.ordered bOf.ordered

private theorem orderKey_le (aOf : a.Of type) (bOf : b.Of type) (le : rankedOrder a b ≠ .gt) :
    orderKey a ≤ orderKey b :=
  orderKey_mono (aOf.same.trans bOf.same.symm) aOf.ordered bOf.ordered
    (compareValues_of aOf bOf ▸ le)

private theorem exact_of (aOf : a.Of type) (exact_ : orderKeyExact type = true) :
    orderKeyExact a.type = true := by
  have same := aOf.same
  unfold orderKeyExact at exact_ ⊢
  rw [decide_eq_true_iff] at exact_ ⊢
  intro text
  rw [text] at same
  cases type <;> first | exact exact_ rfl | cases same

private theorem orderKey_lt_iff (aOf : a.Of type) (bOf : b.Of type)
    (exact_ : orderKeyExact type = true) : orderKey a < orderKey b ↔ rankedOrder a b = .lt := by
  constructor
  · intro less
    by_contra notLess
    have ge : rankedOrder b a ≠ .gt := mt Std.OrientedCmp.gt_iff_lt.mp notLess
    exact absurd (orderKey_le bOf aOf ge) (UInt64.not_le.mpr less)
  · intro less
    exact orderKey_strict (aOf.same.trans bOf.same.symm) aOf.ordered bOf.ordered
      (exact_of aOf exact_) (compareValues_of aOf bOf ▸ less)

private theorem orderKey_le_iff (aOf : a.Of type) (bOf : b.Of type)
    (exact_ : orderKeyExact type = true) : orderKey a ≤ orderKey b ↔ rankedOrder a b ≠ .gt := by
  rw [← UInt64.not_lt, orderKey_lt_iff bOf aOf exact_, ← Std.OrientedCmp.gt_iff_lt]

end Values

namespace ValueRange

variable {range : ValueRange} {type : ColType} {value v : Field} {incl : Bool}

/-- The range may hold a value. -/
structure Allows (range : ValueRange) (v : Field) : Prop where
  nonempty : range.empty = false
  above : Above rankedOrder range.lo range.loIncl v
  below : Above (fun a b => rankedOrder b a) range.hi range.hiIncl v

/-- The bounds are values of the type. -/
structure OfType (range : ValueRange) (type : ColType) : Prop where
  lo : ∀ field, range.lo = some field → field.Of type
  hi : ∀ field, range.hi = some field → field.Of type

private theorem raise_eq (ofType : range.OfType type) (valueOf : value.Of type) :
    range.raise value incl = { range with
      lo := if tighter rankedOrder range.lo value incl then some value else range.lo
      loIncl := if tighter rankedOrder range.lo value incl then incl else range.loIncl } := by
  unfold raise tighter
  cases bound : range.lo with
  | none => simp
  | some lo =>
    obtain ⟨order, found⟩ : ∃ order, rankedOrder value lo = order := ⟨_, rfl⟩
    simp only [compareValues_of valueOf (ofType.lo lo bound), found]
    cases order <;> cases incl <;> simp [← bound]

private theorem lower_eq (ofType : range.OfType type) (valueOf : value.Of type) :
    range.lower value incl = { range with
      hi := if tighter (fun a b => rankedOrder b a) range.hi value incl then some value
        else range.hi
      hiIncl := if tighter (fun a b => rankedOrder b a) range.hi value incl then incl
        else range.hiIncl } := by
  unfold lower tighter
  cases bound : range.hi with
  | none => simp
  | some hi =>
    obtain ⟨order, found⟩ : ∃ order, rankedOrder hi value = order := ⟨_, rfl⟩
    have swapped : compareValues value hi = order.swap := by
      rw [compareValues_of valueOf (ofType.hi hi bound), ← found]
      exact Std.OrientedCmp.eq_swap
    simp only [swapped, found]
    cases order <;> cases incl <;> simp [← bound]

private theorem raise_ofType (ofType : range.OfType type) (valueOf : value.Of type) :
    (range.raise value incl).OfType type := by
  rw [raise_eq ofType valueOf]
  refine ⟨fun field here => ?_, ofType.hi⟩
  dsimp only at here
  split at here
  · cases here
    exact valueOf
  · exact ofType.lo field here

private theorem lower_ofType (ofType : range.OfType type) (valueOf : value.Of type) :
    (range.lower value incl).OfType type := by
  rw [lower_eq ofType valueOf]
  refine ⟨ofType.lo, fun field here => ?_⟩
  dsimp only at here
  split at here
  · cases here
    exact valueOf
  · exact ofType.hi field here

private theorem raise_allows (ofType : range.OfType type) (valueOf : value.Of type) :
    (range.raise value incl).Allows v ↔
      range.Allows v ∧ (rankedOrder value v = .lt ∨ incl = true ∧ rankedOrder value v = .eq) := by
  rw [raise_eq ofType valueOf, ← above_some]
  constructor
  · intro allows
    have both := above_tighter.mp allows.above
    exact ⟨⟨allows.nonempty, both.1, allows.below⟩, both.2⟩
  · rintro ⟨allows, above⟩
    exact ⟨allows.nonempty, above_tighter.mpr ⟨allows.above, above⟩, allows.below⟩

private theorem lower_allows (ofType : range.OfType type) (valueOf : value.Of type) :
    (range.lower value incl).Allows v ↔
      range.Allows v ∧ (rankedOrder v value = .lt ∨ incl = true ∧ rankedOrder v value = .eq) := by
  rw [lower_eq ofType valueOf,
    ← @above_some _ (fun a b => rankedOrder b a) incl value v]
  constructor
  · intro allows
    have both := above_tighter.mp allows.below
    exact ⟨⟨allows.nonempty, allows.above, both.1⟩, both.2⟩
  · rintro ⟨allows, below⟩
    exact ⟨allows.nonempty, allows.above, above_tighter.mpr ⟨allows.below, below⟩⟩

theorem narrow_ofType (ofType : range.OfType type) (valueOf : value.Of type) (op : TokenType) :
    (range.narrow op value).OfType type := by
  unfold narrow
  split
  · exact lower_ofType (raise_ofType ofType valueOf) valueOf
  · exact raise_ofType ofType valueOf
  · exact raise_ofType ofType valueOf
  · exact lower_ofType ofType valueOf
  · exact lower_ofType ofType valueOf
  · exact ofType

/-- Narrowing by a term leaves the values that satisfy it. -/
theorem narrow_allows (ofType : range.OfType type) (valueOf : value.Of type) {op : TokenType}
    (isOp : op.IsOp = true) (notNe : op ≠ .kNe) :
    (range.narrow op value).Allows v ↔
      range.Allows v ∧ holds op (rankedOrder v value) = true := by
  have swap : rankedOrder value v = (rankedOrder v value).swap := Std.OrientedCmp.eq_swap
  cases op <;> first | exact absurd rfl notNe | exact absurd isOp Bool.false_ne_true | skip
  case kEq =>
    rw [narrow, lower_allows (raise_ofType ofType valueOf) valueOf, raise_allows ofType valueOf,
      swap]
    cases rankedOrder v value <;> simp [holds]
  case kLt =>
    rw [narrow, lower_allows ofType valueOf]
    cases rankedOrder v value <;> simp [holds]
  case kLe =>
    rw [narrow, lower_allows ofType valueOf]
    cases rankedOrder v value <;> simp [holds]
  case kGt =>
    rw [narrow, raise_allows ofType valueOf, swap]
    cases rankedOrder v value <;> simp [holds]
  case kGe =>
    rw [narrow, raise_allows ofType valueOf, swap]
    cases rankedOrder v value <;> simp [holds]

private theorem bounds_le {lo hi : Field} (allows : range.Allows v) (isLo : range.lo = some lo)
    (isHi : range.hi = some hi) : rankedOrder lo hi = .lt ∨
      rankedOrder lo hi = .eq ∧ range.loIncl = true ∧ range.hiIncl = true := by
  rcases allows.above lo isLo with above | ⟨loIncl, above⟩
  · rcases allows.below hi isHi with below | ⟨-, below⟩
    · exact Or.inl (Std.TransCmp.lt_trans above below)
    · exact Or.inl (Std.TransCmp.lt_of_lt_of_eq above below)
  · rcases allows.below hi isHi with below | ⟨hiIncl, below⟩
    · exact Or.inl (Std.TransCmp.lt_of_eq_of_lt above below)
    · exact Or.inr ⟨Std.TransCmp.eq_trans above below, loIncl, hiIncl⟩

private theorem not_crossed (ofType : range.OfType type) (allows : range.Allows v) :
    range.crossed = false := by
  unfold crossed
  split
  · rename_i lo hi isLo isHi
    rw [compareValues_of (ofType.lo lo isLo) (ofType.hi hi isHi)]
    rcases bounds_le allows isLo isHi with less | ⟨equal, loIncl, hiIncl⟩
    · rw [less]
      rfl
    · rw [equal, loIncl, hiIncl]
      rfl
  · rfl

private theorem max_le {key : Key} : key ≤ ~~~0 := by
  rw [UInt64.le_iff_toNat_le, UInt64.toNat_not]
  exact Nat.le_of_lt_succ key.toNat_lt

theorem succ_le_iff {key other : Key} (notMax : key ≠ ~~~0) : key + 1 ≤ other ↔ key < other := by
  have notMax' : key.toNat ≠ 2 ^ 64 - 1 := fun same => notMax (UInt64.toNat_inj.mp same)
  have small := key.toNat_lt
  rw [UInt64.le_iff_toNat_le, UInt64.lt_iff_toNat_lt, UInt64.toNat_add]
  have one : (1 : UInt64).toNat = 1 := rfl
  rw [one, Nat.mod_eq_of_lt (by omega)]
  exact Nat.succ_le_iff

theorem le_pred_iff {key other : Key} (notZero : key ≠ 0) : other ≤ key - 1 ↔ other < key := by
  have positive : 1 ≤ key := by
    rw [UInt64.le_iff_toNat_le]
    exact Nat.one_le_iff_ne_zero.mpr fun same => notZero (UInt64.toNat_inj.mp same)
  have positive' := UInt64.le_iff_toNat_le.mp positive
  have one : (1 : UInt64).toNat = 1 := rfl
  rw [UInt64.le_iff_toNat_le, UInt64.lt_iff_toNat_lt, UInt64.toNat_sub_of_le _ _ positive, one]
  rw [one] at positive'
  omega

/-- The lower key is at most the key of every value that the range allows. -/
theorem loKey_le (ofType : range.OfType type) (vOf : v.Of type) (allows : range.Allows v) :
    ∃ key, range.loKey (orderKeyExact type) = some key ∧ key ≤ orderKey v := by
  unfold loKey
  cases bound : range.lo with
  | none => exact ⟨0, rfl, UInt64.zero_le⟩
  | some lo =>
    have loOf := ofType.lo lo bound
    have above := allows.above lo bound
    have le : orderKey lo ≤ orderKey v := by
      refine orderKey_le loOf vOf ?_
      rcases above with less | ⟨-, equal⟩
      · simp [less]
      · simp [equal]
    dsimp only
    split
    · rename_i strict
      rw [Bool.and_eq_true, Bool.not_eq_true'] at strict
      have less : orderKey lo < orderKey v := by
        refine (orderKey_lt_iff loOf vOf strict.2).mpr (above.resolve_right ?_)
        rintro ⟨incl, -⟩
        rw [strict.1] at incl
        cases incl
      have notMax : orderKey lo ≠ ~~~0 := fun same =>
        UInt64.not_lt.mpr max_le (same ▸ less)
      rw [if_neg notMax]
      exact ⟨_, rfl, (succ_le_iff notMax).mpr less⟩
    · exact ⟨_, rfl, le⟩

private theorem le_hiKey (ofType : range.OfType type) (vOf : v.Of type) (allows : range.Allows v) :
    ∃ key, range.hiKey (orderKeyExact type) = some key ∧ orderKey v ≤ key := by
  unfold hiKey
  cases bound : range.hi with
  | none => exact ⟨_, rfl, max_le⟩
  | some hi =>
    have hiOf := ofType.hi hi bound
    have below := allows.below hi bound
    have le : orderKey v ≤ orderKey hi := by
      refine orderKey_le vOf hiOf ?_
      rcases below with less | ⟨-, equal⟩
      · simp [less]
      · simp [equal]
    dsimp only
    split
    · rename_i strict
      rw [Bool.and_eq_true, Bool.not_eq_true'] at strict
      have less : orderKey v < orderKey hi := by
        refine (orderKey_lt_iff vOf hiOf strict.2).mpr (below.resolve_right ?_)
        rintro ⟨incl, -⟩
        rw [strict.1] at incl
        cases incl
      have notZero : orderKey hi ≠ 0 := fun same =>
        UInt64.not_lt.mpr UInt64.zero_le (same ▸ less)
      rw [if_neg notZero]
      exact ⟨_, rfl, (le_pred_iff notZero).mpr less⟩
    · exact ⟨_, rfl, le⟩

/-- The keys of a range hold the key of every value that it allows. -/
theorem rangeKeys_of_allows (ofType : range.OfType type) (vOf : v.Of type)
    (allows : range.Allows v) :
    ∃ lo hi, range.rangeKeys type = some (lo, hi) ∧ lo ≤ orderKey v ∧ orderKey v ≤ hi := by
  obtain ⟨lo, isLo, loLe⟩ := loKey_le ofType vOf allows
  obtain ⟨hi, isHi, leHi⟩ := le_hiKey ofType vOf allows
  refine ⟨lo, hi, ?_, loLe, leHi⟩
  unfold rangeKeys
  rw [allows.nonempty, not_crossed ofType allows, isLo, isHi]
  simp [UInt64.le_trans loLe leHi]

private theorem above_of_loKey (ofType : range.OfType type) (vOf : v.Of type)
    (exact_ : orderKeyExact type = true) {key : Key} (isKey : range.loKey true = some key)
    (le : key ≤ orderKey v) : Above rankedOrder range.lo range.loIncl v := by
  intro lo bound
  have loOf := ofType.lo lo bound
  unfold loKey at isKey
  simp only [bound, Bool.and_true] at isKey
  cases incl : range.loIncl with
  | false =>
    simp only [incl, Bool.not_false, if_true] at isKey
    split at isKey
    · cases isKey
    · rename_i notMax
      cases isKey
      exact Or.inl ((orderKey_lt_iff loOf vOf exact_).mp ((succ_le_iff notMax).mp le))
  | true =>
    simp only [incl, Bool.not_true, Bool.false_eq_true, if_false] at isKey
    cases isKey
    have notGreater := (orderKey_le_iff loOf vOf exact_).mp le
    cases order : rankedOrder lo v with
    | lt => exact Or.inl rfl
    | eq => exact Or.inr ⟨rfl, rfl⟩
    | gt => exact absurd order notGreater

private theorem below_of_hiKey (ofType : range.OfType type) (vOf : v.Of type)
    (exact_ : orderKeyExact type = true) {key : Key} (isKey : range.hiKey true = some key)
    (le : orderKey v ≤ key) : Above (fun a b => rankedOrder b a) range.hi range.hiIncl v := by
  intro hi bound
  have hiOf := ofType.hi hi bound
  unfold hiKey at isKey
  simp only [bound, Bool.and_true] at isKey
  cases incl : range.hiIncl with
  | false =>
    simp only [incl, Bool.not_false, if_true] at isKey
    split at isKey
    · cases isKey
    · rename_i notZero
      cases isKey
      exact Or.inl ((orderKey_lt_iff vOf hiOf exact_).mp ((le_pred_iff notZero).mp le))
  | true =>
    simp only [incl, Bool.not_true, Bool.false_eq_true, if_false] at isKey
    cases isKey
    have notGreater := (orderKey_le_iff vOf hiOf exact_).mp le
    cases order : rankedOrder v hi with
    | lt => exact Or.inl order
    | eq => exact Or.inr ⟨rfl, order⟩
    | gt => exact absurd order notGreater

/-- Where keys are exact, the keys of a range hold no other key. -/
theorem allows_of_rangeKeys (ofType : range.OfType type) (vOf : v.Of type)
    (exact_ : orderKeyExact type = true) {lo hi : Key}
    (keys : range.rangeKeys type = some (lo, hi)) (loLe : lo ≤ orderKey v)
    (leHi : orderKey v ≤ hi) : range.Allows v := by
  unfold rangeKeys at keys
  rw [exact_] at keys
  split at keys
  · cases keys
  · rename_i sound
    rw [Bool.or_eq_true, not_or] at sound
    split at keys
    · rename_i lo' hi' isLo isHi
      split at keys
      · cases keys
        exact ⟨by simpa using sound.1, above_of_loKey ofType vOf exact_ isLo loLe,
          below_of_hiKey ofType vOf exact_ isHi leHi⟩
      · cases keys
    · cases keys

end ValueRange

section Terms

variable {schema : OutSchema} {type : ColType} {col : Nat} {v : Field}
  {terms : List BoundComparison}

/-- A term on a column that a range can be narrowed by. -/
structure RangeTerm (type : ColType) (b : BoundComparison) : Prop where
  isOp : b.op.IsOp = true
  notNe : b.op ≠ .kNe
  literal : b.literal.Of type

/-- What a term says of a value that is not NULL. -/
def BoundComparison.admits (b : BoundComparison) (v : Field) : Bool :=
  !b.literal.isNull && holds b.op (rankedOrder v b.literal)

theorem tighten_allows {range : ValueRange} {b : BoundComparison} (ofType : range.OfType type)
    (term : RangeTerm type b) :
    (tighten range b).OfType type ∧
      ((tighten range b).Allows v ↔ range.Allows v ∧ b.admits v = true) := by
  unfold tighten BoundComparison.admits
  cases null : b.literal.isNull with
  | true =>
    refine ⟨⟨ofType.lo, ofType.hi⟩, ?_⟩
    constructor
    · intro allows
      cases allows.nonempty
    · rintro ⟨-, false_⟩
      cases false_
  | false =>
    refine ⟨ValueRange.narrow_ofType ofType term.literal b.op, ?_⟩
    exact ValueRange.narrow_allows ofType term.literal term.isOp term.notNe

/-- The range of a list of terms allows the values that satisfy all of them. -/
theorem foldl_tighten {range : ValueRange} (ofType : range.OfType type)
    (areTerms : ∀ b ∈ terms, RangeTerm type b) :
    (terms.foldl tighten range).OfType type ∧
      ((terms.foldl tighten range).Allows v ↔
        range.Allows v ∧ terms.all (·.admits v) = true) := by
  induction terms generalizing range with
  | nil => exact ⟨ofType, by simp⟩
  | cons b rest ih =>
    obtain ⟨stepOf, step⟩ := tighten_allows (v := v) ofType (areTerms b List.mem_cons_self)
    obtain ⟨restOf, run⟩ := ih stepOf fun other here => areTerms other (List.mem_cons_of_mem b here)
    refine ⟨restOf, ?_⟩
    rw [List.foldl_cons, run, step, List.all_cons, Bool.and_eq_true, and_assoc]

private theorem unbounded_allows (v : Field) : ({} : ValueRange).Allows v :=
  ⟨rfl, above_none, above_none⟩

private theorem unbounded_ofType (type : ColType) : ({} : ValueRange).OfType type :=
  ⟨nofun, nofun⟩

/-- What the terms of a column allow lies in the candidate's keys; where keys are exact, all
that lies in them is allowed. -/
theorem candidate_spec {bound : List BoundComparison} {k : Candidate}
    (found : candidate schema bound col = some k) (vOf : v.Of (typeAt schema col))
    (areTerms : ∀ b ∈ bound.filter (inRange col), RangeTerm (typeAt schema col) b) :
    k.col = col ∧ bound.filter (inRange col) ≠ [] ∧
      ((bound.filter (inRange col)).all (·.admits v) = true →
        k.lo ≤ orderKey v ∧ orderKey v ≤ k.hi) ∧
      (orderKeyExact (typeAt schema col) = true → k.lo ≤ orderKey v → orderKey v ≤ k.hi →
        (bound.filter (inRange col)).all (·.admits v) = true) := by
  obtain ⟨ofType, run⟩ := foldl_tighten (v := v) (unbounded_ofType _) areTerms
  rw [and_iff_right (unbounded_allows v)] at run
  unfold candidate at found
  dsimp only at found
  split at found
  · cases found
  · rename_i some_
    split at found
    · rename_i lo hi keys
      cases found
      refine ⟨rfl, some_, ?_, ?_⟩
      · intro all
        obtain ⟨lo', hi', keys', loLe, leHi⟩ :=
          ValueRange.rangeKeys_of_allows ofType vOf (run.mpr all)
        rw [keys] at keys'
        cases keys'
        exact ⟨loLe, leHi⟩
      · intro exact_ loLe leHi
        exact run.mp (ValueRange.allows_of_rangeKeys ofType vOf exact_ keys loLe leHi)
    · rename_i none_
      cases found
      refine ⟨rfl, some_, ?_, ?_⟩
      · intro all
        obtain ⟨lo', hi', keys', -, -⟩ := ValueRange.rangeKeys_of_allows ofType vOf (run.mpr all)
        rw [none_] at keys'
        cases keys'
      · intro _ loLe leHi
        exact absurd (UInt64.le_trans loLe leHi) (show ¬ (1 : UInt64) ≤ 0 by decide)

end Terms

end Labdb.Query
