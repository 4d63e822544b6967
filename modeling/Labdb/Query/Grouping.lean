import Labdb.Query.HashAggregate
import Labdb.Query.SortRows
import Mathlib.Data.List.Nodup

/-! How `HashAggregate` finds the group of a row: every walk ends, and it ends at the group
of the row's key. -/

namespace Labdb.Query

open Labdb.Data Labdb.Data.Probing

/-- Equal fields of a key: NULL equals NULL. -/
def sameField (p q : Field) : Bool :=
  match p.isNull, q.isNull with
  | true, true => true
  | false, false => compareValues p q = .eq
  | _, _ => false

/-- Rows of one group, column by column. -/
def HashAggregate.same (agg : HashAggregate) (x y : Row) : Bool :=
  agg.groupCols.all fun col => sameField (Row.at x col) (Row.at y col)

/-- Rows whose values compare with one another, column by column. -/
def Uniform (rows : List Row) : Prop :=
  ∀ x ∈ rows, ∀ y ∈ rows, ∀ col, SortKey.Comparable { col } x y

section Fields

attribute [local instance] lexOrd

variable {p q : Field}

private theorem sameField_iff (same : orderClass p.type = orderClass q.type) (left : p.Ordered)
    (right : q.Ordered) : sameField p q = true ↔ p.placed = q.placed := by
  have placed := compare_placed p q same left right
  rw [← @Std.compare_eq_iff_eq _ _ _ p.placed q.placed, ← placed]
  unfold sameField
  cases p.isNull with
  | true => cases q.isNull <;> simp
  | false => cases q.isNull <;> simp

theorem rank_natAbs (double : Double) : double.rank.natAbs = double.bits.toNat % 2 ^ 63 := by
  unfold Double.rank
  split
  · rw [Int.natAbs_neg, Int.natAbs_natCast]
  · rw [Int.natAbs_natCast]

/-- Doubles of one rank are equal, unless they are the two zeros. -/
theorem bits_of_rank {x y : Double} (same : x.rank = y.rank) (some_ : x.rank ≠ 0) :
    x.bits = y.bits := by
  have magnitude : x.bits.toNat % 2 ^ 63 = y.bits.toNat % 2 ^ 63 := by
    rw [← rank_natAbs, ← rank_natAbs, same]
  have sign : x.negative = y.negative := by
    unfold Double.rank at same some_
    cases xSign : x.negative <;> cases ySign : y.negative
    case true.true => rfl
    case false.false => rfl
    all_goals
      simp only [xSign, ySign, if_true, if_false, Bool.false_eq_true] at same some_
      omega
  have xSize := x.bits.isLt
  have ySize := y.bits.isLt
  unfold Double.negative at sign
  rw [BitVec.msb_eq_decide, BitVec.msb_eq_decide, decide_eq_decide] at sign
  refine BitVec.eq_of_toNat_eq ?_
  omega

/-- Fields of a key that are equal have one hash. -/
theorem hashField_of_placed (same : orderClass p.type = orderClass q.type) (left : p.Ordered)
    (right : q.Ordered) (placed : p.placed = q.placed) : hashField p = hashField q := by
  unfold Field.placed at placed
  unfold hashField
  cases pNull : p.isNull with
  | true =>
    cases qNull : q.isNull with
    | true => rfl
    | false => simp [pNull, qNull] at placed
  | false =>
    cases qNull : q.isNull with
    | true => simp [pNull, qNull] at placed
    | false =>
      simp only [pNull, qNull, Bool.false_eq_true, if_false, Prod.mk.injEq, true_and] at placed ⊢
      unfold Field.ranked at placed
      cases pType : p.type <;> cases qType : q.type <;> rw [pType, qType] at same <;>
        try cases same
      all_goals simp only [pType, qType, Prod.mk.injEq, true_and, and_true] at placed
      case kText.kText.refl => exact congrArg fnv1a placed
      case kDouble.kDouble.refl =>
        have zero : ∀ double : Double, double.isNaN = false →
            (double.eq ⟨0⟩ = true ↔ double.rank = 0) := by
          intro double number
          have none_ : (⟨0⟩ : Double).isNaN = false := by decide
          have least : (⟨0⟩ : Double).rank = 0 := by decide
          rw [Double.eq, number, none_, least]
          simp
        dsimp only
        by_cases isZero : p.f64.rank = 0
        · rw [if_pos ((zero _ (left pType)).mpr isZero),
            if_pos ((zero _ (right qType)).mpr (placed ▸ isZero))]
        · rw [if_neg (mt (zero _ (left pType)).mp isZero),
            if_neg (mt (zero _ (right qType)).mp (placed ▸ isZero)),
            bits_of_rank placed isZero]
      all_goals exact congrArg Int64.toUInt64 (Int64.toInt_inj.mp placed)

end Fields

namespace HashAggregate

variable {agg : HashAggregate} {rows : List Row} {x y z : Row}

/-- Where the fields of a row's key lie. -/
def placeOf (agg : HashAggregate) (row : Row) : List (Int × Int × Text) :=
  agg.groupCols.map fun col => (Row.at row col).placed

theorem same_iff (uniform : Uniform rows) (xIn : x ∈ rows) (yIn : y ∈ rows) :
    agg.same x y = true ↔ agg.placeOf x = agg.placeOf y := by
  unfold same placeOf
  rw [List.all_eq_true, List.map_inj_left]
  refine forall₂_congr fun col _ => ?_
  have fits := uniform x xIn y yIn col
  exact sameField_iff fits.same fits.left fits.right

theorem keyHash_of_same (uniform : Uniform rows) (xIn : x ∈ rows) (yIn : y ∈ rows)
    (isSame : agg.same x y = true) : agg.keyHash x = agg.keyHash y := by
  have placed := List.map_inj_left.mp ((same_iff uniform xIn yIn).mp isSame)
  unfold keyHash
  refine List.foldl_ext _ _ _ fun hash (col, k) member => ?_
  have fits := uniform x xIn y yIn col
  have here := placed col (List.fst_mem_of_mem_zipIdx member)
  dsimp only
  rw [hashField_of_placed fits.same fits.left fits.right here]

theorem sameFields_eq (row first : Row) (cols : List Nat) :
    sameFields row cols (cols.map (Row.at first)) =
      cols.all fun col => sameField (Row.at row col) (Row.at first col) := by
  induction cols with
  | nil => rfl
  | cons col cols ih =>
    have head : Row.at ((col :: cols).map (Row.at first)) 0 = Row.at first col := rfl
    have tail : ((col :: cols).map (Row.at first)).tail = cols.map (Row.at first) := rfl
    rw [sameFields, head, tail, ih, List.all_cons]
    unfold sameField
    cases (Row.at row col).isNull with
    | true => cases (Row.at first col).isNull <;> simp
    | false =>
      cases (Row.at first col).isNull with
      | true => simp
      | false =>
        by_cases equal : compareValues (Row.at row col) (Row.at first col) = .eq
        · simp [equal]
        · simp [equal]

end HashAggregate

namespace Groups

/-- The table is at most half full, and every group is filed under the hash of its key. -/
structure Filing (groups : Groups) : Prop where
  power : ∃ k, groups.slots.length = 2 ^ k
  mask : groups.mask = groups.slots.length - 1
  load : taken groups.slots ≤ groups.hashes.length
  half : groups.hashes.length * 2 ≤ groups.slots.length
  filed : Filed (fun g => (mix64 (groups.hashes.getD g 0)).toNat) groups.hashes.length groups.slots

variable {groups : Groups}

/-- The masked steps go around the table. -/
theorem seek_eq (power : ∃ k, groups.slots.length = 2 ^ k)
    (mask : groups.mask = groups.slots.length - 1) (hit : Nat → Bool) (hash : UInt64) :
    groups.seek hit hash = probe (around groups.slots.length) (stops groups.slots hit)
      groups.slots.length (walk groups.slots.length (mix64 hash).toNat 0) := by
  obtain ⟨k, size⟩ := power
  have masked : ∀ i, i &&& groups.mask = i % groups.slots.length := fun i => by
    rw [mask, size, Nat.and_two_pow_sub_one_eq_mod]
  unfold seek home
  rw [masked, walk, Nat.add_zero]
  simp only [masked]
  rfl

theorem Filing.room (filing : Filing groups) : taken groups.slots < groups.slots.length := by
  obtain ⟨k, size⟩ := filing.power
  have positive := Nat.two_pow_pos k
  have load := filing.load
  have half := filing.half
  omega

/-- The states have no part in it. -/
theorem Filing.withStates (filing : Filing groups) (states : List AggState) :
    Filing { groups with states } :=
  ⟨filing.power, filing.mask, filing.load, filing.half, filing.filed⟩

/-- What `grow` has done after filing the first groups again. -/
structure Refiled (groups : Groups) (done : Nat) (groups' : Groups) : Prop where
  keys : groups'.keys = groups.keys
  hashes : groups'.hashes = groups.hashes
  states : groups'.states = groups.states
  size : groups'.slots.length = groups.slots.length * 2
  mask : groups'.mask = groups.slots.length * 2 - 1
  load : taken groups'.slots ≤ done
  filed : Filed (fun g => (mix64 (groups.hashes.getD g 0)).toNat) done groups'.slots

private theorem grow_refiles (power : ∃ k, groups.slots.length = 2 ^ k)
    (fits : groups.hashes.length ≤ groups.slots.length) {done : Nat}
    (some_ : done ≤ groups.hashes.length) :
    ∃ groups', (List.range done).foldlM refile { groups with
      slots := List.replicate (groups.slots.length * 2) 0
      mask := groups.slots.length * 2 - 1 } = some groups' ∧ Refiled groups done groups' := by
  induction done with
  | zero =>
    refine ⟨_, rfl, rfl, rfl, rfl, List.length_replicate, rfl, ?_, filed_replicate _ _⟩
    exact Nat.le_of_eq (taken_replicate _)
  | succ done ih =>
    obtain ⟨mid, run_, refiled⟩ := ih (Nat.le_of_succ_le some_)
    obtain ⟨k, size⟩ := power
    have doubledPower : ∃ k, mid.slots.length = 2 ^ k :=
      ⟨k + 1, by rw [refiled.size, size, Nat.pow_succ]⟩
    have room : taken mid.slots < mid.slots.length := by
      have load := refiled.load
      have length := refiled.size
      omega
    obtain ⟨d, within, answer, empty, ahead⟩ := refiled.filed.misses room
      (mix64 (groups.hashes.getD done 0)).toNat (fun _ _ => rfl)
    obtain ⟨i, place⟩ : ∃ i, i = walk mid.slots.length
      (mix64 (groups.hashes.getD done 0)).toNat d := ⟨_, rfl⟩
    rw [List.range_succ, List.foldlM_append, run_]
    refine ⟨{ mid with slots := mid.slots.set i (done + 1) }, ?_, ?_⟩
    · have again : mid.refile done = some { mid with slots := mid.slots.set i (done + 1) } := by
        rw [refile, refiled.hashes, seek_eq doubledPower (by rw [refiled.mask, refiled.size]),
          answer, place]
        rfl
      rw [Option.bind_eq_bind, Option.bind_some, List.foldlM_cons, again]
      rfl
    · rw [place]
      refine ⟨refiled.keys, refiled.hashes, refiled.states, ?_, refiled.mask, ?_, ?_⟩
      · exact List.length_set.trans refiled.size
      · exact Nat.le_trans (taken_set _ _ _) (Nat.succ_le_succ refiled.load)
      · exact refiled.filed.put within empty ahead

private theorem grow_spec (power : ∃ k, groups.slots.length = 2 ^ k)
    (fits : groups.hashes.length ≤ groups.slots.length) :
    ∃ groups', groups.grow = some groups' ∧ groups'.keys = groups.keys ∧
      groups'.hashes = groups.hashes ∧ groups'.states = groups.states ∧ Filing groups' := by
  obtain ⟨groups', run_, refiled⟩ := grow_refiles power fits (Nat.le_refl _)
  refine ⟨groups', run_, refiled.keys, refiled.hashes, refiled.states, ?_, ?_, ?_, ?_, ?_⟩
  · obtain ⟨k, size⟩ := power
    exact ⟨k + 1, by rw [refiled.size, size, Nat.pow_succ]⟩
  · rw [refiled.mask, refiled.size]
  · rw [refiled.hashes]
    exact refiled.load
  · rw [refiled.hashes, refiled.size]
    exact Nat.mul_le_mul_right 2 fits
  · rw [refiled.hashes]
    exact refiled.filed

end Groups

namespace HashAggregate

variable {agg : HashAggregate} {groups : Groups}

/-- The group is one of the row's key. -/
def hits (agg : HashAggregate) (groups : Groups) (row : Row) (g : Nat) : Bool :=
  groups.hashes.getD g 0 = agg.keyHash row && agg.sameKey groups row g

/-- A new group that is filed where its walk ended, the table grown if it is then too full. -/
theorem add_spec (filing : groups.Filing) (aligned : groups.keys.length = groups.hashes.length)
    (row : Row) {i : Nat}
    (put : Filed (fun g => (mix64 ((groups.hashes ++ [agg.keyHash row]).getD g 0)).toNat)
      (groups.hashes.length + 1) (groups.slots.set i (groups.hashes.length + 1))) :
    ∃ grown, (agg.add groups row i).growIfFull = some grown ∧
      grown.keys = groups.keys ++ [agg.keyOf row] ∧
      grown.hashes = groups.hashes ++ [agg.keyHash row] ∧
      grown.states = groups.states ++ List.replicate agg.aggs.length ({} : AggState) ∧
      grown.Filing := by
  obtain ⟨k, size⟩ := filing.power
  have positive := Nat.two_pow_pos k
  have half := filing.half
  have hashes : (agg.add groups row i).hashes.length = groups.hashes.length + 1 := by
    rw [add, List.length_append, List.length_singleton]
  have keys : (agg.add groups row i).keys.length = groups.hashes.length + 1 := by
    rw [add, List.length_append, List.length_singleton, aligned]
  have slots : (agg.add groups row i).slots.length = groups.slots.length := List.length_set
  unfold Groups.growIfFull
  split
  · exact Groups.grow_spec ⟨k, slots.trans size⟩ (by omega)
  · rename_i small
    refine ⟨_, rfl, rfl, rfl, rfl, ⟨k, slots.trans size⟩, ?_, ?_, ?_, ?_⟩
    · rw [slots]
      exact filing.mask
    · rw [hashes]
      exact Nat.le_trans (taken_set _ _ _) (Nat.succ_le_succ filing.load)
    · omega
    · rw [hashes, add, aligned]
      exact put

/-- A row's group is one of its key, or a new one where there is none. -/
theorem findOrAdd_spec (filing : groups.Filing) (aligned : groups.keys.length = groups.hashes.length)
    (row : Row) :
    (∃ g < groups.keys.length, agg.hits groups row g = true ∧
        agg.findOrAdd groups row = some (groups, g)) ∨
      (∀ g < groups.keys.length, agg.hits groups row g = false) ∧
        ∃ groups', agg.findOrAdd groups row = some (groups', groups.keys.length) ∧
          groups'.keys = groups.keys ++ [agg.keyOf row] ∧
          groups'.hashes = groups.hashes ++ [agg.keyHash row] ∧
          groups'.states = groups.states ++ List.replicate agg.aggs.length ({} : AggState) ∧
          groups'.Filing := by
  have sought := Groups.seek_eq filing.power filing.mask (agg.hits groups row) (agg.keyHash row)
  by_cases known : ∃ g < groups.keys.length, agg.hits groups row g = true
  · obtain ⟨g, inside, isHit⟩ := known
    have hash : groups.hashes.getD g 0 = agg.keyHash row :=
      of_decide_eq_true ((Bool.and_eq_true_iff.mp isHit).1)
    obtain ⟨i, g', inside', answer, here, isHit'⟩ := filing.filed.finds (aligned ▸ inside) isHit
    rw [hash, ← sought] at answer
    refine .inl ⟨g', aligned ▸ inside', isHit', ?_⟩
    change (groups.seek (agg.hits groups row) (agg.keyHash row)).bind _ = _
    rw [answer, Option.bind_some, here, if_pos (Nat.succ_ne_zero g'), Nat.add_sub_cancel]
    rfl
  · have none_ : ∀ g < groups.keys.length, agg.hits groups row g = false :=
      fun g inside => Bool.eq_false_iff.mpr fun isHit => known ⟨g, inside, isHit⟩
    refine .inr ⟨none_, ?_⟩
    have last : (groups.hashes ++ [agg.keyHash row]).getD groups.hashes.length 0 =
        agg.keyHash row := by
      rw [List.getD_eq_getElem?_getD, List.getElem?_concat_length]
      rfl
    have filed : Filed (fun g => (mix64 ((groups.hashes ++ [agg.keyHash row]).getD g 0)).toNat)
        groups.hashes.length groups.slots := by
      refine filing.filed.congr fun g inside => ?_
      rw [List.getD_eq_getElem?_getD, List.getElem?_append_left inside,
        ← List.getD_eq_getElem?_getD]
    obtain ⟨d, within, answer, empty, ahead⟩ := filed.misses filing.room
      (mix64 (agg.keyHash row)).toNat (aligned ▸ none_)
    rw [← sought] at answer
    have put := @Filed.put _ _ _ filed d within (by rw [last]; exact empty) (by rw [last]; exact ahead)
    rw [last] at put
    generalize walk groups.slots.length (mix64 (agg.keyHash row)).toNat d = i at answer empty put
    obtain ⟨grown, ready, keys, hashes, states, filing'⟩ :=
      add_spec filing aligned row put
    refine ⟨grown, ?_, keys, hashes, states, filing'⟩
    change (groups.seek (agg.hits groups row) (agg.keyHash row)).bind _ = _
    rw [answer, Option.bind_some, empty, if_neg (fun some_ => some_ rfl)]
    rw [ready]
    rfl

end HashAggregate

end Labdb.Query
