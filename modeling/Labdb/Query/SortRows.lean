import Labdb.Data.Lists
import Labdb.Query.Sort
import Mathlib.Data.List.Nodup

/-! What a sort hands out: the rows in a stable order of its keys, or the first of them. -/

namespace Labdb.Query

open Labdb.Data

attribute [local instance] lexOrd

/-- Where a field lies, NULL after every value. -/
def Field.placed (field : Field) : Int × Int × Text :=
  if field.isNull then (1, 0, []) else (0, field.ranked)

/-- The order of two rows by one key: NULL is greater than every value. -/
def SortKey.order (key : SortKey) (x y : Row) : Ordering :=
  let p := Row.at x key.col
  let q := Row.at y key.col
  let ascending :=
    match p.isNull, q.isNull with
    | true, true => .eq
    | true, false => .gt
    | false, true => .lt
    | false, false => compareValues p q
  if key.desc then ascending.swap else ascending

/-- The order of two rows, key by key. -/
def rowOrder : List SortKey → Row → Row → Ordering
  | [], _, _ => .eq
  | key :: rest, x, y => (key.order x y).then (rowOrder rest x y)

def rowLe (keys : List SortKey) (x y : Row) : Bool := (rowOrder keys x y).isLE

/-- The rows in a stable order of the keys, or the first of them. -/
def stableRows (keys : List SortKey) (limit : Option Nat) (rows : List Row) : List Row :=
  match limit with
  | none => rows.mergeSort (rowLe keys)
  | some n => (rows.mergeSort (rowLe keys)).take n

/-- Two rows whose values under a key compare with one another. -/
structure SortKey.Comparable (key : SortKey) (x y : Row) : Prop where
  same : orderClass (Row.at x key.col).type = orderClass (Row.at y key.col).type
  left : (Row.at x key.col).Ordered
  right : (Row.at y key.col).Ordered

/-- Rows that can be put in order. -/
def Sortable (keys : List SortKey) (rows : List Row) : Prop :=
  ∀ key ∈ keys, ∀ x ∈ rows, ∀ y ∈ rows, key.Comparable x y

/-- The same order, of all rows. -/
def SortKey.total (key : SortKey) (x y : Row) : Ordering :=
  if key.desc then compare (Row.at y key.col).placed (Row.at x key.col).placed
  else compare (Row.at x key.col).placed (Row.at y key.col).placed

def rowTotal : List SortKey → Row → Row → Ordering
  | [], _, _ => .eq
  | key :: rest, x, y => (key.total x y).then (rowTotal rest x y)

instance (key : SortKey) : Std.TransCmp key.total := by
  have ascending : Std.TransCmp (compareOn fun row : Row => (Row.at row key.col).placed) :=
    inferInstance
  cases desc : key.desc with
  | true =>
    have total : key.total = fun x y =>
        compareOn (fun row : Row => (Row.at row key.col).placed) y x := by
      funext x y
      simp only [SortKey.total, desc, if_true, compareOn]
    rw [total]
    exact Std.TransCmp.opposite
  | false =>
    have total : key.total = compareOn fun row : Row => (Row.at row key.col).placed := by
      funext x y
      simp only [SortKey.total, desc, Bool.false_eq_true, if_false, compareOn]
    rw [total]
    exact ascending

instance rowTotal_trans (keys : List SortKey) : Std.TransCmp (rowTotal keys) := by
  induction keys with
  | nil => exact { eq_swap := rfl, isLE_trans := fun _ _ => rfl }
  | cons key rest ih => exact inferInstanceAs (Std.TransCmp (compareLex key.total (rowTotal rest)))

theorem placed_null {field : Field} (null : field.isNull = true) : field.placed = (1, 0, []) :=
  if_pos null

private theorem placed_value {field : Field} (value : field.isNull = false) :
    field.placed = (0, field.ranked) :=
  if_neg (by simp [value])

theorem compare_placed (p q : Field) (same : orderClass p.type = orderClass q.type)
    (left : p.Ordered) (right : q.Ordered) :
    (match p.isNull, q.isNull with
      | true, true => Ordering.eq
      | true, false => .gt
      | false, true => .lt
      | false, false => compareValues p q) = compare p.placed q.placed := by
  cases pNull : p.isNull with
  | true =>
    cases qNull : q.isNull with
    | true => rw [placed_null pNull, placed_null qNull]; exact Std.compare_self.symm
    | false => rw [placed_null pNull, placed_value qNull]; rfl
  | false =>
    cases qNull : q.isNull with
    | true => rw [placed_value pNull, placed_null qNull]; rfl
    | false =>
      rw [placed_value pNull, placed_value qNull]
      exact compareValues_ranked same left right

private theorem SortKey.order_total {key : SortKey} {x y : Row} (comparable : key.Comparable x y) :
    key.order x y = key.total x y := by
  have placed := compare_placed _ _ comparable.same comparable.left comparable.right
  unfold SortKey.order SortKey.total
  dsimp only
  rw [placed]
  cases key.desc with
  | true => exact Std.OrientedCmp.eq_swap.symm
  | false => rfl

private theorem rowOrder_total {keys : List SortKey} {x y : Row}
    (comparable : ∀ key ∈ keys, key.Comparable x y) : rowOrder keys x y = rowTotal keys x y := by
  induction keys with
  | nil => rfl
  | cons key rest ih =>
    rw [rowOrder, rowTotal, SortKey.order_total (comparable key List.mem_cons_self),
      ih fun other here => comparable other (List.mem_cons_of_mem key here)]

/-- The order of two rows and, where that decides nothing, of their places in the input. -/
def itemTotal (keys : List SortKey) : Row × Nat → Row × Nat → Ordering :=
  compareLex (fun a b => rowTotal keys a.1 b.1) (compareOn Prod.snd)

instance (keys : List SortKey) : Std.TransCmp (itemTotal keys) := by
  have rows : Std.TransCmp fun a b : Row × Nat => rowTotal keys a.1 b.1 :=
    { eq_swap := Std.OrientedCmp.eq_swap, isLE_trans := Std.TransCmp.isLE_trans }
  exact inferInstanceAs (Std.TransCmp (compareLex _ _))

namespace SortOp

/-- Whether an item, a row with its place in the input, comes before another. -/
def itemBefore (sort : SortOp) (a b : Row × Nat) : Bool :=
  let code := sort.prefixOf a.1
  let code' := sort.prefixOf b.1
  if code ≠ code' then code < code' else before a.1 b.1 a.2 b.2 sort.keys

private theorem before_eq (keys : List SortKey) (x y : Row) (xSeq ySeq : Nat) :
    before x y xSeq ySeq keys = ((rowOrder keys x y).then (compare xSeq ySeq)).isLT := by
  induction keys with
  | nil =>
    rw [before, rowOrder, Ordering.eq_then, Bool.eq_iff_iff, decide_eq_true_iff,
      Ordering.isLT_iff_eq_lt, Nat.compare_eq_lt]
  | cons key rest ih =>
    rw [before, rowOrder, Ordering.then_assoc, ih]
    unfold SortKey.order
    dsimp only
    cases (Row.at x key.col).isNull with
    | true => cases (Row.at y key.col).isNull <;> cases key.desc <;> rfl
    | false =>
      cases (Row.at y key.col).isNull with
      | true => cases key.desc <;> rfl
      | false =>
        cases compareValues (Row.at x key.col) (Row.at y key.col) <;> cases key.desc <;> rfl

/-- A value's code is the value's place, or of two different places the same code. -/
def codeOf (field : Field) : UInt64 := if field.isNull then ~~~0 else orderKey field

private theorem codeOf_mono {p q : Field} (same : orderClass p.type = orderClass q.type)
    (left : p.Ordered) (right : q.Ordered) (le : (compare p.placed q.placed).isLE = true) :
    codeOf p ≤ codeOf q := by
  unfold codeOf
  cases qNull : q.isNull with
  | true =>
    rw [UInt64.le_iff_toNat_le, if_pos rfl, UInt64.toNat_not]
    exact Nat.le_of_lt_succ (UInt64.toNat_lt _)
  | false =>
    rw [placed_value qNull] at le
    cases pNull : p.isNull with
    | true =>
      rw [placed_null pNull] at le
      cases le
    | false =>
      rw [placed_value pNull] at le
      refine orderKey_mono same left right ?_
      rw [compareValues_ranked same left right]
      exact Ordering.isLE_iff_ne_gt.mp le

/-- The codes of two rows never contradict their order. -/
theorem prefixOf_mono (sort : SortOp) {x y : Row}
    (comparable : ∀ key ∈ sort.keys, key.Comparable x y)
    (le : ∀ key, sort.keys.head? = some key → (key.total x y).isLE = true) :
    sort.prefixOf x ≤ sort.prefixOf y := by
  unfold prefixOf
  split
  · exact UInt64.le_refl _
  · cases keys : sort.keys with
    | nil => exact UInt64.le_refl _
    | cons key rest =>
      have below := le key (by rw [keys]; rfl)
      have fits := comparable key (by rw [keys]; exact List.mem_cons_self)
      unfold SortKey.total at below
      dsimp only
      cases desc : key.desc with
      | true =>
        rw [desc, if_pos rfl] at below
        have codes := codeOf_mono fits.same.symm fits.right fits.left below
        rw [if_pos rfl, if_pos rfl]
        rw [UInt64.le_iff_toNat_le] at codes ⊢
        rw [UInt64.toNat_not, UInt64.toNat_not]
        exact Nat.sub_le_sub_left codes _
      | false =>
        rw [desc, if_neg Bool.false_ne_true] at below
        exact codeOf_mono fits.same fits.left fits.right below

private theorem comparable_symm {keys : List SortKey} {x y : Row}
    (comparable : ∀ key ∈ keys, key.Comparable x y) : ∀ key ∈ keys, key.Comparable y x :=
  fun key here =>
    have fits := comparable key here
    ⟨fits.same.symm, fits.right, fits.left⟩

/-- A smaller code decides the order. -/
theorem rowTotal_of_code (sort : SortOp) {x y : Row}
    (comparable : ∀ key ∈ sort.keys, key.Comparable x y)
    (less : sort.prefixOf x < sort.prefixOf y) : rowTotal sort.keys x y = .lt := by
  have notMono := mt (prefixOf_mono sort (comparable_symm comparable)) (UInt64.not_le.mpr less)
  cases keys : sort.keys with
  | nil =>
    rw [keys] at notMono
    exact absurd (fun _ none_ => nomatch none_) notMono
  | cons key rest =>
    have first : key.total x y = .lt := by
      by_contra notLess
      refine notMono fun key' head => ?_
      rw [keys] at head
      cases head
      rw [@Std.OrientedCmp.eq_swap _ key.total, Ordering.isLE_swap]
      exact Ordering.isGE_iff_ne_lt.mpr notLess
    rw [rowTotal, first]
    rfl

private theorem itemBefore_eq (sort : SortOp) {a b : Row × Nat}
    (comparable : ∀ key ∈ sort.keys, key.Comparable a.1 b.1) :
    sort.itemBefore a b = (itemTotal sort.keys a b).isLT := by
  have total : itemTotal sort.keys a b =
      (rowTotal sort.keys a.1 b.1).then (compare a.2 b.2) := rfl
  unfold itemBefore
  rw [before_eq, rowOrder_total comparable, total]
  dsimp only
  split
  · rename_i different
    rcases UInt64.lt_or_lt_of_ne different with less | greater
    · rw [rowTotal_of_code sort comparable less, decide_eq_true less]
      rfl
    · have after := rowTotal_of_code sort (comparable_symm comparable) greater
      rw [@Std.OrientedCmp.eq_swap _ (rowTotal sort.keys), after,
        decide_eq_false (UInt64.lt_asymm greater)]
      rfl
  · rfl

/-- The items of an input. -/
def Numbered (rows : List Row) (item : Row × Nat) : Prop := rows[item.2]? = some item.1

theorem itemBefore_strict {sort : SortOp} {rows : List Row} (sortable : Sortable sort.keys rows) :
    StrictOn sort.itemBefore (Numbered rows) := by
  have row : ∀ {item}, Numbered rows item → item.1 ∈ rows := List.mem_of_getElem?
  have eq : ∀ {a b}, Numbered rows a → Numbered rows b →
      sort.itemBefore a b = (itemTotal sort.keys a b).isLT := fun aIn bIn =>
    itemBefore_eq sort fun key here => sortable key here _ (row aIn) _ (row bIn)
  refine ⟨?_, ?_, ?_⟩
  · intro a aIn
    rw [eq aIn aIn, @Std.ReflCmp.compare_self _ (itemTotal sort.keys)]
    rfl
  · intro a b c aIn bIn cIn ab bc
    rw [eq aIn bIn, Ordering.isLT_iff_eq_lt] at ab
    rw [eq bIn cIn, Ordering.isLT_iff_eq_lt] at bc
    rw [eq aIn cIn, Std.TransCmp.lt_trans ab bc]
    rfl
  · intro a b aIn bIn different
    rw [eq aIn bIn, eq bIn aIn]
    cases order : itemTotal sort.keys a b with
    | lt => exact Or.inl rfl
    | gt =>
      rw [@Std.OrientedCmp.gt_iff_lt _ (itemTotal sort.keys)] at order
      exact Or.inr (by rw [order]; rfl)
    | eq =>
      have place : compare a.2 b.2 = .eq := (Ordering.then_eq_eq.mp order).2
      have same : a.2 = b.2 := Nat.compare_eq_eq.mp place
      unfold Numbered at aIn bIn
      rw [same, bIn] at aIn
      exact absurd (Prod.ext (Option.some.inj aIn).symm same) different

/-- Put in order, the items of an input are its rows in a stable order. -/
theorem sorted_items {sort : SortOp} {rows : List Row} (sortable : Sortable sort.keys rows) :
    (sorted sort.itemBefore rows.zipIdx).map Prod.fst = rows.mergeSort (rowLe sort.keys) := by
  rw [← List.mergeSort_zipIdx]
  refine congrArg (List.map Prod.fst) ?_
  have agree := @List.map_mergeSort _ _ (fun a b => !sort.itemBefore b a)
    (List.zipIdxLE (rowLe sort.keys)) id rows.zipIdx
  rw [List.map_id, List.map_id] at agree
  refine agree fun a aIn b bIn => ?_
  have aRow := List.mem_of_getElem? (List.mem_zipIdx_iff_getElem?.mp aIn)
  have bRow := List.mem_of_getElem? (List.mem_zipIdx_iff_getElem?.mp bIn)
  rw [itemBefore_eq sort fun key here => sortable key here _ bRow _ aRow]
  have ab : rowLe sort.keys a.1 b.1 = (rowTotal sort.keys b.1 a.1).swap.isLE := by
    rw [rowLe, rowOrder_total fun key here => sortable key here _ aRow _ bRow,
      @Std.OrientedCmp.eq_swap _ (rowTotal sort.keys)]
  have ba : rowLe sort.keys b.1 a.1 = (rowTotal sort.keys b.1 a.1).isLE := by
    rw [rowLe, rowOrder_total fun key here => sortable key here _ bRow _ aRow]
  rw [id, id, List.zipIdxLE, ab, ba]
  have total : itemTotal sort.keys b a =
      (rowTotal sort.keys b.1 a.1).then (compare b.2 a.2) := rfl
  rw [total]
  cases rowTotal sort.keys b.1 a.1 with
  | lt => rfl
  | gt => rfl
  | eq =>
    change (!(compare b.2 a.2).isLT) = decide (a.2 ≤ b.2)
    cases order : compare b.2 a.2 with
    | lt => rw [decide_eq_false (Nat.not_le.mpr (Nat.compare_eq_lt.mp order))]; rfl
    | eq => rw [decide_eq_true (Nat.le_of_eq (Nat.compare_eq_eq.mp order).symm)]; rfl
    | gt => rw [decide_eq_true (Nat.le_of_lt (Nat.compare_eq_gt.mp order))]; rfl

end SortOp

/-- The item that an entry stands for. -/
def Held.item (held : Held) (entry : Entry) : Row × Nat :=
  (held.row entry.row, held.seqAt entry.row)

namespace SortOp

variable {sort : SortOp} {held : Held} {items : List (Row × Nat)} {n : Nat}

/-- An entry's code is the one of its row. -/
def Coded (sort : SortOp) (held : Held) (entry : Entry) : Prop :=
  entry.code = sort.prefixOf (held.row entry.row)

theorem entryBefore_eq {a b : Entry} (aCode : sort.Coded held a) (bCode : sort.Coded held b) :
    sort.entryBefore held a b = sort.itemBefore (held.item a) (held.item b) := by
  unfold entryBefore itemBefore
  rw [aCode, bCode]
  rfl

/-- The entries of a top `n` stand for these items; past the rows kept, once there are `n` of
them, lies the scratch row. -/
structure Keeps (sort : SortOp) (n : Nat) (held : Held) (items : List (Row × Nat)) : Prop where
  items_eq : held.order.map held.item = items
  coded : ∀ entry ∈ held.order, sort.Coded held entry
  distinct : (held.order.map Entry.row).Nodup
  inside : ∀ entry ∈ held.order, entry.row < held.order.length
  rows_length : held.rows.length = held.order.length + if held.order.length = n then 1 else 0
  seq_length : held.seq.length = held.order.length + if held.order.length = n then 1 else 0

/-- What an entry stands for is read from its row and nowhere else. -/
theorem coded_congr {held' : Held} {entry : Entry} (same : held'.item entry = held.item entry)
    (code : sort.Coded held entry) : sort.Coded held' entry := by
  have row : held'.row entry.row = held.row entry.row := congrArg Prod.fst same
  unfold Coded at code ⊢
  rw [row, code]

/-- An entry put among others whose items are as they were. -/
theorem place_entry {held' : Held} {order : List Entry} {entry : Entry}
    (same : ∀ other ∈ order, held'.item other = held.item other)
    (coded : ∀ other ∈ order, sort.Coded held other) (code : sort.Coded held' entry) :
    (place (sort.entryBefore held') entry order).map held'.item =
        place sort.itemBefore (held'.item entry) (order.map held.item) ∧
      ∀ other ∈ place (sort.entryBefore held') entry order, sort.Coded held' other := by
  have coded' : ∀ other ∈ order, sort.Coded held' other := fun other here =>
    coded_congr (same other here) (coded other here)
  constructor
  · rw [map_place _ entry held'.item order fun other here =>
      entryBefore_eq code (coded' other here), List.map_congr_left same]
  · intro other here
    rcases List.mem_cons.mp ((place_perm _ entry order).mem_iff.mp here) with rfl | later
    · exact code
    · exact coded' other later

/-- A row appended, with its entry, and after it what the scratch row is to hold. -/
theorem grown_keeps (keeps : sort.Keeps n held items) (room : held.order.length < n) (row : Row)
    (seq : Nat) {spareRows : List Row} {spareSeqs : List Nat}
    (rowsLength : spareRows.length = if held.order.length + 1 = n then 1 else 0)
    (seqsLength : spareSeqs.length = if held.order.length + 1 = n then 1 else 0) {grown : Held}
    (grownRows : grown.rows = held.rows ++ [row] ++ spareRows)
    (grownSeq : grown.seq = held.seq ++ [seq] ++ spareSeqs) :
    sort.Keeps n
      { grown with
        order := place (sort.entryBefore grown) ⟨sort.prefixOf row, held.rows.length⟩ held.order }
      (place sort.itemBefore (row, seq) items) := by
  have rows := keeps.rows_length
  have seqs := keeps.seq_length
  rw [if_neg (Nat.ne_of_lt room), Nat.add_zero] at rows seqs
  have same : ∀ other ∈ held.order, grown.item other = held.item other := by
    intro other here
    have inside := keeps.inside other here
    simp only [Held.item, Held.row, Held.seqAt, grownRows, grownSeq, List.append_assoc,
      List.getD_eq_getElem?_getD]
    rw [List.getElem?_append_left (by omega), List.getElem?_append_left (by omega)]
  have new : grown.item ⟨sort.prefixOf row, held.rows.length⟩ = (row, seq) := by
    simp only [Held.item, Held.row, Held.seqAt, grownRows, grownSeq, List.append_assoc,
      List.getD_eq_getElem?_getD]
    rw [List.getElem?_append_right (Nat.le_refl _), Nat.sub_self, rows, ← seqs,
      List.getElem?_append_right (Nat.le_refl _), Nat.sub_self]
    rfl
  have code : sort.Coded grown ⟨sort.prefixOf row, held.rows.length⟩ := by
    unfold Coded
    rw [show grown.row held.rows.length = row from congrArg Prod.fst new]
  obtain ⟨placed, coded⟩ := place_entry same keeps.coded code
  have perm := place_perm (sort.entryBefore grown) ⟨sort.prefixOf row, held.rows.length⟩ held.order
  have count : (place (sort.entryBefore grown) ⟨sort.prefixOf row, held.rows.length⟩
      held.order).length = held.order.length + 1 := perm.length_eq
  refine ⟨?_, coded, ?_, ?_, ?_, ?_⟩
  · rw [← keeps.items_eq, ← new]
    exact placed
  · rw [(perm.map Entry.row).nodup_iff, List.map_cons, List.nodup_cons]
    refine ⟨?_, keeps.distinct⟩
    intro here
    obtain ⟨other, member, number⟩ := List.mem_map.mp here
    have inside := keeps.inside other member
    dsimp only at number
    omega
  · intro entry here
    rw [count]
    rcases List.mem_cons.mp (perm.mem_iff.mp here) with rfl | later
    · dsimp only
      omega
    · exact Nat.lt_succ_of_lt (keeps.inside entry later)
  · dsimp only
    rw [count, grownRows, ← rowsLength]
    simp only [List.length_append, List.length_singleton]
    omega
  · dsimp only
    rw [count, grownSeq, ← seqsLength]
    simp only [List.length_append, List.length_singleton]
    omega

theorem offer_room (keeps : sort.Keeps n held items) (room : held.order.length < n) (row : Row)
    (seq : Nat) :
    sort.Keeps n (sort.offer n held row seq) (place sort.itemBefore (row, seq) items) := by
  have positive : n ≠ 0 := Nat.ne_of_gt (Nat.lt_of_le_of_lt (Nat.zero_le _) room)
  unfold offer
  rw [if_neg positive, if_pos room]
  exact grown_keeps keeps room row seq List.length_replicate List.length_replicate rfl rfl

/-- Nothing but the entries' own rows counts. -/
theorem Keeps.congr {held' : Held} (keeps : sort.Keeps n held items) (order : held'.order = held.order)
    (rows : held'.rows.length = held.rows.length) (seqs : held'.seq.length = held.seq.length)
    (same : ∀ other ∈ held.order, held'.item other = held.item other) :
    sort.Keeps n held' items := by
  refine ⟨?_, ?_, ?_, ?_, ?_, ?_⟩
  · rw [order, ← keeps.items_eq]
    exact List.map_congr_left same
  · rw [order]
    exact fun other here => coded_congr (same other here) (keeps.coded other here)
  · rw [order]
    exact keeps.distinct
  · rw [order]
    exact keeps.inside
  · rw [order, rows]
    exact keeps.rows_length
  · rw [order, seqs]
    exact keeps.seq_length

/-- Writing the scratch row changes no item. -/
theorem scratch_keeps (keeps : sort.Keeps n held items) (full : held.order.length = n) (row : Row)
    (seq : Nat) : sort.Keeps n (scratch n held row seq) items := by
  refine keeps.congr rfl List.length_set List.length_set fun other here => ?_
  have inside := keeps.inside other here
  have elsewhere : n ≠ other.row := by omega
  simp only [scratch, Held.item, Held.row, Held.seqAt, getD_set, elsewhere, false_and, if_false]

/-- A row that is written over the worst one takes its place. -/
theorem swapped_keeps (keeps : sort.Keeps n held items) (full : held.order.length = n)
    {row : Row} {seq : Nat} {front : List Entry} {worst : Entry}
    (split : held.order = front ++ [worst]) {swapped : Held}
    (rowsLength : swapped.rows.length = held.rows.length)
    (seqsLength : swapped.seq.length = held.seq.length)
    (same : ∀ number, number < n → number ≠ worst.row →
      swapped.row number = held.row number ∧ swapped.seqAt number = held.seqAt number)
    (new : swapped.row worst.row = row ∧ swapped.seqAt worst.row = seq) :
    sort.Keeps n
      { swapped with
        order := place (sort.entryBefore swapped) ⟨sort.prefixOf row, worst.row⟩ front }
      (place sort.itemBefore (row, seq) items.dropLast) := by
  have rows := keeps.rows_length
  have seqs := keeps.seq_length
  have worstInside := keeps.inside worst (split ▸ List.mem_append_right _ List.mem_cons_self)
  have distinct := keeps.distinct
  rw [if_pos full, full] at rows seqs
  rw [full] at worstInside
  rw [split, List.map_append, List.nodup_append] at distinct
  have frontIn : ∀ other ∈ front, other ∈ held.order := fun other here =>
    split ▸ List.mem_append_left _ here
  have frontItems : items.dropLast = front.map held.item := by
    rw [← keeps.items_eq, split, List.map_append, List.map_singleton, List.dropLast_concat]
  have sameItem : ∀ other ∈ front, swapped.item other = held.item other := by
    intro other here
    have inside := keeps.inside other (frontIn other here)
    have apart : other.row ≠ worst.row := fun equal =>
      distinct.2.2 other.row (List.mem_map_of_mem here) worst.row List.mem_cons_self equal
    obtain ⟨sameRow, sameSeq⟩ := same other.row (full ▸ inside) apart
    rw [Held.item, Held.item, sameRow, sameSeq]
  have newItem : swapped.item ⟨sort.prefixOf row, worst.row⟩ = (row, seq) := by
    rw [Held.item, new.1, new.2]
  have code : sort.Coded swapped ⟨sort.prefixOf row, worst.row⟩ := by
    unfold Coded
    rw [new.1]
  obtain ⟨placed, coded⟩ := place_entry sameItem (fun other here =>
    keeps.coded other (frontIn other here)) code
  have perm := place_perm (sort.entryBefore swapped) ⟨sort.prefixOf row, worst.row⟩ front
  have count : (place (sort.entryBefore swapped) ⟨sort.prefixOf row, worst.row⟩ front).length =
      n := by
    rw [perm.length_eq, ← full, split, List.length_append]
    rfl
  refine ⟨?_, coded, ?_, ?_, ?_, ?_⟩
  · rw [frontItems, ← newItem]
    exact placed
  · rw [(perm.map Entry.row).nodup_iff, List.map_cons, List.nodup_cons]
    exact ⟨fun here => distinct.2.2 _ here worst.row List.mem_cons_self rfl, distinct.1⟩
  · intro entry here
    rw [count]
    rcases List.mem_cons.mp (perm.mem_iff.mp here) with rfl | later
    · exact worstInside
    · exact full ▸ keeps.inside entry (frontIn entry later)
  · dsimp only
    rw [count, if_pos rfl, rowsLength, rows]
  · dsimp only
    rw [count, if_pos rfl, seqsLength, seqs]

/-- The row in the scratch place takes the place of the worst. -/
theorem replace_keeps (keeps : sort.Keeps n held items) (full : held.order.length = n)
    {row : Row} {seq : Nat} {front : List Entry} {worst : Entry}
    (split : held.order = front ++ [worst]) (written : held.row n = row) :
    sort.Keeps n (sort.replace n held (sort.prefixOf row) worst seq)
      (place sort.itemBefore (row, seq) items.dropLast) := by
  have rows := keeps.rows_length
  have seqs := keeps.seq_length
  have inside := keeps.inside worst (split ▸ List.mem_append_right _ List.mem_cons_self)
  rw [if_pos full, full] at rows seqs
  rw [full] at inside
  have dropped : held.order.dropLast = front := by rw [split, List.dropLast_concat]
  unfold replace
  rw [dropped]
  have elsewhere : n ≠ worst.row := by omega
  refine swapped_keeps keeps full split ?_ List.length_set (fun number below other => ?_) ⟨?_, ?_⟩
  · rw [List.length_set, List.length_set]
  · simp only [Held.row, Held.seqAt, getD_set, Nat.ne_of_gt below, Ne.symm other, false_and, if_false,
      and_self]
  · simp only [Held.row]
    rw [getD_set, if_neg fun both => elsewhere both.1, getD_set, if_pos ⟨rfl, by omega⟩]
    exact written
  · simp only [Held.seqAt]
    rw [getD_set, if_pos ⟨rfl, by omega⟩]

private theorem offer_full (keeps : sort.Keeps n held items) (positive : n ≠ 0)
    (full : held.order.length = n) (row : Row) (seq : Nat) :
    sort.Keeps n (sort.offer n held row seq) (keepBest sort.itemBefore n items (row, seq)) := by
  have rows := keeps.rows_length
  have seqs := keeps.seq_length
  rw [if_pos full, full] at rows seqs
  have count : items.length = n := by rw [← keeps.items_eq, List.length_map, full]
  have kept := scratch_keeps keeps full row seq
  have written : (scratch n held row seq).item ⟨sort.prefixOf row, n⟩ = (row, seq) := by
    simp only [scratch, Held.item, Held.row, Held.seqAt]
    rw [getD_set, if_pos ⟨rfl, by omega⟩, getD_set, if_pos ⟨rfl, by omega⟩]
  have rowWritten : (scratch n held row seq).row n = row := congrArg Prod.fst written
  have coded : sort.Coded (scratch n held row seq) ⟨sort.prefixOf row, n⟩ := by
    unfold Coded
    rw [rowWritten]
  have last : items.getLast? =
      (scratch n held row seq).order.getLast?.map (scratch n held row seq).item := by
    rw [← kept.items_eq, List.getLast?_map]
  unfold offer keepBest
  rw [if_neg positive, if_neg positive, if_neg (Nat.not_lt.mpr (Nat.le_of_eq full.symm)),
    if_neg (Nat.not_lt.mpr (Nat.le_of_eq count.symm)), last]
  dsimp only
  cases found : (scratch n held row seq).order.getLast? with
  | none => exact kept
  | some worst =>
    obtain ⟨front, split⟩ := List.getLast?_eq_some_iff.mp found
    rw [Option.map_some]
    dsimp only
    rw [entryBefore_eq coded (kept.coded worst (List.mem_of_getLast? found)), written]
    split
    · exact replace_keeps kept full split rowWritten
    · exact kept

private theorem offer_keeps (keeps : sort.Keeps n held items) (positive : n ≠ 0)
    (few : held.order.length ≤ n) (row : Row) (seq : Nat) :
    sort.Keeps n (sort.offer n held row seq) (keepBest sort.itemBefore n items (row, seq)) := by
  have count : items.length = held.order.length := by rw [← keeps.items_eq, List.length_map]
  by_cases full : held.order.length = n
  · exact offer_full keeps positive full row seq
  · have room : held.order.length < n := Nat.lt_of_le_of_ne few full
    unfold keepBest
    rw [if_neg positive, if_pos (by omega)]
    exact offer_room keeps room row seq

theorem keepBest_length (lt : Row × Nat → Row × Nat → Bool) (item : Row × Nat)
    (few : items.length ≤ n) : (keepBest lt n items item).length ≤ n := by
  unfold keepBest
  split
  · exact few
  · split
    · rw [place_length]
      omega
    · split
      · exact few
      · rename_i worst last
        split
        · obtain ⟨front, rfl⟩ := List.getLast?_eq_some_iff.mp last
          rw [List.length_append, List.length_singleton] at few
          rw [List.dropLast_concat, place_length]
          omega
        · exact few

private theorem foldl_offer_keeps {input : List (Row × Nat)} (positive : n ≠ 0)
    (keeps : sort.Keeps n held items) (few : items.length ≤ n) :
    sort.Keeps n (input.foldl (fun held (row, seq) => sort.offer n held row seq) held)
      (input.foldl (keepBest sort.itemBefore n) items) := by
  induction input generalizing held items with
  | nil => exact keeps
  | cons first rest ih =>
    have count : items.length = held.order.length := by rw [← keeps.items_eq, List.length_map]
    exact ih (offer_keeps keeps positive (count ▸ few) first.1 first.2)
      (keepBest_length _ _ few)

/-- The entries in order, as their items. -/
theorem ordered_of_items {held : Held} (coded : ∀ entry ∈ held.order, sort.Coded held entry) :
    ((sorted (sort.entryBefore held) held.order).map fun entry => held.row entry.row) =
      (sorted sort.itemBefore (held.order.map held.item)).map Prod.fst := by
  rw [← map_sorted held.item held.order fun a aIn b bIn =>
    entryBefore_eq (coded a aIn) (coded b bIn), List.map_map]
  rfl

theorem holdAll_items (sort : SortOp) (rows : List Row) :
    (sort.holdAll rows).order.map (sort.holdAll rows).item = rows.zipIdx ∧
      ∀ entry ∈ (sort.holdAll rows).order, sort.Coded (sort.holdAll rows) entry := by
  have item : ∀ row number, (row, number) ∈ rows.zipIdx →
      (sort.holdAll rows).item ⟨sort.prefixOf row, number⟩ = (row, number) := by
    intro row number here
    have found := List.mem_zipIdx_iff_getElem?.mp here
    have inside := (List.getElem?_eq_some_iff.mp found).1
    simp only [holdAll, Held.item, Held.row, Held.seqAt, List.getD_eq_getElem?_getD, found,
      List.getElem?_range inside, Option.getD_some]
  constructor
  · unfold holdAll at item ⊢
    rw [List.map_map]
    exact (List.map_congr_left fun ⟨row, number⟩ here => item row number here).trans
      (List.map_id _)
  · intro entry here
    obtain ⟨⟨row, number⟩, member, rfl⟩ := List.mem_map.mp here
    have row' : (sort.holdAll rows).row number = row := congrArg Prod.fst (item row number member)
    unfold Coded
    rw [row']

private theorem foldl_offer_zero (input : List (Row × Nat)) (held : Held) :
    input.foldl (fun held (row, seq) => sort.offer 0 held row seq) held = held := by
  induction input generalizing held with
  | nil => rfl
  | cons first rest ih => exact ih held

theorem empty_keeps (positive : n ≠ 0) : sort.Keeps n {} [] := by
  refine ⟨rfl, ?_, List.nodup_nil, ?_, ?_, ?_⟩
  · exact fun entry here => nomatch here
  · exact fun entry here => nomatch here
  · simp [Ne.symm positive]
  · simp [Ne.symm positive]

/-- The items that are held once these rows were read. -/
def kept (sort : SortOp) (rows : List Row) : List (Row × Nat) :=
  match sort.limit with
  | none => rows.zipIdx
  | some n => rows.zipIdx.foldl (keepBest sort.itemBefore n) []

theorem sorted_kept {rows : List Row} (sortable : Sortable sort.keys rows) :
    (sorted sort.itemBefore (sort.kept rows)).map Prod.fst =
      stableRows sort.keys sort.limit rows := by
  have numbered : ∀ item ∈ rows.zipIdx, Numbered rows item := fun item here =>
    List.mem_zipIdx_iff_getElem?.mp here
  have distinct : rows.zipIdx.Nodup := by
    have numbers : (rows.zipIdx.map Prod.snd).Nodup := by
      rw [List.zipIdx_map_snd]
      exact List.nodup_range'
    exact numbers.of_map _
  have strict := itemBefore_strict sortable
  unfold kept stableRows
  rw [← sorted_items sortable]
  cases sort.limit with
  | none => rfl
  | some n =>
    dsimp only
    have inOrder := (sorted_pairwise strict numbered distinct).sublist (List.take_sublist n _)
    have already : sorted sort.itemBefore ((sorted sort.itemBefore rows.zipIdx).take n) =
        (sorted sort.itemBefore rows.zipIdx).take n := by
      refine List.mergeSort_of_pairwise (inOrder.imp_of_mem ?_)
      intro a b aIn bIn ab
      have aItem := numbered a ((List.mergeSort_perm _ _).mem_iff.mp (List.mem_of_mem_take aIn))
      have bItem := numbered b ((List.mergeSort_perm _ _).mem_iff.mp (List.mem_of_mem_take bIn))
      rw [strict.asymm aItem bItem ab]
      rfl
    rw [foldl_keepBest strict n numbered distinct, already, List.map_take]

theorem foldl_keepBest_zero (lt : Row × Nat → Row × Nat → Bool) (input items : List (Row × Nat)) :
    input.foldl (keepBest lt 0) items = items := by
  induction input generalizing items with
  | nil => rfl
  | cons first rest ih => exact ih items

private theorem hold_items (sort : SortOp) (rows : List Row) :
    (sort.hold rows).order.map (sort.hold rows).item = sort.kept rows ∧
      ∀ entry ∈ (sort.hold rows).order, sort.Coded (sort.hold rows) entry := by
  unfold hold kept
  cases sort.limit with
  | none => exact holdAll_items sort rows
  | some n =>
    dsimp only
    by_cases positive : n = 0
    · rw [positive, foldl_offer_zero, foldl_keepBest_zero]
      exact ⟨rfl, nofun⟩
    · have keeps := @foldl_offer_keeps sort {} [] n rows.zipIdx positive (empty_keeps positive)
        (Nat.zero_le n)
      exact ⟨keeps.items_eq, keeps.coded⟩

/-- A sort hands out the rows in a stable order of its keys, or the first `n` of them. -/
theorem ordered_eq {rows : List Row} (sortable : Sortable sort.keys rows) :
    sort.ordered rows = stableRows sort.keys sort.limit rows := by
  obtain ⟨items, coded⟩ := hold_items sort rows
  rw [← sorted_kept sortable, ← items]
  exact ordered_of_items coded

/-- Rows that are already in order stay as they are. -/
theorem ordered_of_pairwise {rows : List Row} (sortable : Sortable sort.keys rows)
    (already : rows.Pairwise fun x y => rowLe sort.keys x y = true) :
    sort.ordered rows =
      match sort.limit with
      | none => rows
      | some n => rows.take n := by
  rw [ordered_eq sortable]
  unfold stableRows
  rw [List.mergeSort_of_pairwise already]

theorem run_delivers {child : RowPath} {rows : List Row} (delivers : child.Delivers rows) :
    (sort.run child).Delivers (sort.ordered rows) := by
  unfold run
  rw [delivers.rows_eq]
  exact rowsPath_delivers _

end SortOp

end Labdb.Query
