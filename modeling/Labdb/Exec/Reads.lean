import Labdb.Exec.Operator
import Labdb.Exec.SelectRows

/-! What one call of an operator over a scan does, by row and by batch: how far the scan has
read after it, and which rows it hands out. -/

namespace Labdb.Exec

open Labdb.Catalog Labdb.Query Labdb.Record

/-- A batch that may be formatted for rows of these types. -/
def Backs (types : List ColType) (batch : Batch) : Prop :=
  ∀ c type, types[c]? = some type → (batch.col c).Backs type

theorem backs_of_ready {types : List ColType} {batch : Batch} (ready : batch.Ready types) :
    Backs types batch := by
  intro c type here
  rw [← ready.types_eq, List.getElem?_map] at here
  obtain ⟨column, found, rfl⟩ := Option.map_eq_some_iff.mp here
  rw [Batch.col, List.getD_eq_getElem?_getD, found]
  exact ready.backs column (List.mem_of_getElem? found)

theorem backs_empty (types : List ColType) : Backs types {} := fun _ _ _ => Nat.zero_le _

/-- Rows of the scan of which the operator makes nothing. -/
def Drops (make : Row → Option Row) (rows : List Row) : Prop := ∀ row ∈ rows, make row = none

section Calls

variable {State : Type} (make : Row → Option Row) (left : State → List Row → Nat → Prop)
  (rows : List Row) (read : Nat)

/-- A call by row, the scan having read `read` rows before and these being left: it reads on to
the next row of which the operator makes something. -/
inductive RowCall : Codec (Option Row × State) → Prop where
  | found {dropped rest : List Row} {row made new : Row} {after : State}
      (split : rows = dropped ++ row :: rest) (drops : Drops make dropped)
      (makes : make row = some made) (same : new.map Field.plain = made)
      (later : left after rest (read + dropped.length + 1)) : RowCall (.ok (some new, after))
  | ended {after : State} (drops : Drops make rows) (later : left after [] (read + rows.length)) :
      RowCall (.ok (none, after))

/-- A call by batch: beyond rows that come to nothing, it reads no more than it was asked for. -/
inductive BatchCall (types : List ColType) (max : Nat) : Codec (Bool × Batch × State) → Prop where
  | found {dropped taken rest : List Row} {out : Batch} {after : State}
      (split : rows = dropped ++ taken ++ rest) (drops : Drops make dropped)
      (few : taken.length ≤ max) (some_ : taken.filterMap make ≠ []) (sound : Sound types out)
      (same : out.rows = taken.filterMap make)
      (later : left after rest (read + dropped.length + taken.length)) :
      BatchCall types max (.ok (true, out, after))
  | ended {out : Batch} {after : State} (drops : Drops make rows) (backs : Backs types out)
      (later : left after [] (read + rows.length)) : BatchCall types max (.ok (false, out, after))

end Calls

/-- An operator of which every call is such a call. -/
structure Reads (types : List ColType) (make : Row → Option Row) (op : Operator)
    (left : Running op → List Row → Nat → Prop) : Prop where
  bound : ∀ {running rows read}, left running rows read → rows.length ≤ op.bound running.state
  typed : ∀ {running rows read}, left running rows read → ∀ row ∈ rows, ∀ made,
    make row = some made → TypedRow types made
  next : ∀ {running rows read}, left running rows read → ∀ out,
    RowCall make left rows read (op.next running out)
  nextBatch : ∀ {running rows read}, left running rows read → ∀ out max, Backs types out → 0 < max →
    BatchCall make left rows read types max (op.nextBatch running out max)

section Counting

variable {make : Row → Option Row} (op : Operator) {left : op.State → List Row → Nat → Prop}
  {rows : List Row} {read : Nat} {running : Running op}

theorem next_call {out : Row} (call : RowCall make left rows read (op.produce running.state out)) :
    RowCall make (fun running : Running op => left running.state) rows read
      (op.next running out) := by
  unfold Operator.next
  generalize op.produce running.state out = result at call
  cases call with
  | found split drops makes same later => exact .found split drops makes same later
  | ended drops later => exact .ended drops later

theorem nextBatch_call {types : List ColType} {out : Batch} {max asked : Nat} (le : asked ≤ max)
    (call : BatchCall make left rows read types asked (op.produceBatch running.state out max)) :
    BatchCall make (fun running : Running op => left running.state) rows read types asked
      (op.nextBatch running out max) := by
  unfold Operator.nextBatch
  generalize op.produceBatch running.state out max = result at call
  cases call with
  | @found dropped taken rest out after split drops few some_ sound same later =>
    have count := length_rows out
    have fewer := List.length_filterMap_le make taken
    have positive := List.length_pos_of_ne_nil some_
    rw [same] at count
    have checked : (decide (0 < out.count) && decide (out.count ≤ max)) = true :=
      Bool.and_eq_true_iff.mpr ⟨decide_eq_true (by omega), decide_eq_true (by omega)⟩
    rw [ok_bind]
    dsimp only
    rw [if_pos rfl, checkThat_true checked, ok_bind]
    exact .found split drops few some_ sound same later
  | ended drops backs later => exact .ended drops backs later

end Counting

theorem Drops.nil (make : Row → Option Row) : Drops make [] := nofun

theorem Drops.append {make : Row → Option Row} {rows more : List Row} (first : Drops make rows)
    (second : Drops make more) : Drops make (rows ++ more) := by
  intro row member
  rcases List.mem_append.mp member with early | late
  · exact first row early
  · exact second row late

private theorem drops_of_filterMap {make : Row → Option Row} {rows : List Row}
    (nothing : rows.filterMap make = []) : Drops make rows :=
  List.filterMap_eq_nil_iff.mp nothing

/-- What is made of a row of other rows' maker and of a filter's terms. -/
def filterMake (make : Row → Option Row) (preds : List BoundComparison) (row : Row) : Option Row :=
  (make row).filter fun made => preds.all (eval · made)

theorem Drops.filter {make : Row → Option Row} {preds : List BoundComparison} {rows : List Row}
    (drops : Drops make rows) : Drops (filterMake make preds) rows := by
  intro row member
  rw [filterMake, drops row member, Option.filter_none]

private theorem filterMap_filterMake (make : Row → Option Row) (preds : List BoundComparison)
    (rows : List Row) : rows.filterMap (filterMake make preds) =
      (rows.filterMap make).filter fun made => preds.all (eval · made) := by
  rw [List.filter_filterMap]
  rfl

section Filter

variable {types : List ColType} {make : Row → Option Row} {child : Operator}
  {left : Running child → List Row → Nat → Prop} {preds : List BoundComparison} {rows : List Row}
  {read : Nat} {running : Running child}

/-- The rows read before a call that goes on are dropped too. -/
theorem RowCall.after {State : Type} {make : Row → Option Row} {left : State → List Row → Nat → Prop}
    {dropped rest : List Row} {read : Nat} {result : Codec (Option Row × State)}
    (drops : Drops make dropped)
    (call : RowCall make left rest (read + dropped.length) result) :
    RowCall make left (dropped ++ rest) read result := by
  cases call with
  | found split drops' makes same later =>
    refine .found (by rw [split, ← List.append_assoc]) (drops.append drops') makes same ?_
    rw [List.length_append, ← Nat.add_assoc]
    exact later
  | ended drops' later =>
    refine .ended (drops.append drops') ?_
    rw [List.length_append, ← Nat.add_assoc]
    exact later

theorem BatchCall.after {State : Type} {make : Row → Option Row} {max : Nat}
    {left : State → List Row → Nat → Prop} {dropped rest : List Row} {read : Nat}
    {result : Codec (Bool × Batch × State)} (drops : Drops make dropped)
    (call : BatchCall make left rest (read + dropped.length) types max result) :
    BatchCall make left (dropped ++ rest) read types max result := by
  cases call with
  | found split drops' few some_ sound same later =>
    refine .found (by rw [split, ← List.append_assoc, ← List.append_assoc]) (drops.append drops')
      few some_ sound same ?_
    rw [List.length_append, ← Nat.add_assoc]
    exact later
  | ended drops' backs later =>
    refine .ended (drops.append drops') backs ?_
    rw [List.length_append, ← Nat.add_assoc]
    exact later

private theorem eval_of_plain {new made : Row} (typed : ∀ pred ∈ preds, Typed types pred)
    (row : TypedRow types made) (same : new.map Field.plain = made) :
    preds.all (eval · new) = preds.all (eval · made) := by
  have types_eq : new.map Field.type = types := by
    rw [← row.types_eq, ← same, List.map_map]
    rfl
  subst same
  rw [Bool.eq_iff_iff, List.all_eq_true, List.all_eq_true]
  exact forall₂_congr fun pred here => by rw [eval_plain (typed pred here) types_eq]

private theorem filterRows_call (reads : Reads types make child left)
    (typed : ∀ pred ∈ preds, Typed types pred) {rounds : Nat} (has : left running rows read)
    (enough : rows.length < rounds) (out : Row) :
    RowCall (filterMake make preds) left rows read (filterRows child preds rounds running out) := by
  induction rounds generalizing running rows read out with
  | zero => exact absurd enough (Nat.not_lt_zero _)
  | succ rounds ih =>
    have call := reads.next has out
    unfold filterRows
    generalize child.next running out = result at call
    cases call with
    | ended drops later => exact .ended drops.filter later
    | @found dropped rest row made new after split drops makes same later =>
      rw [ok_bind]
      dsimp only
      have row_ := reads.typed has row (by simp [split]) made makes
      rw [eval_of_plain typed row_ same]
      cases passes : preds.all (eval · made) with
      | true =>
        rw [if_pos rfl]
        refine .found split drops.filter ?_ same later
        rw [filterMake, makes]
        exact Option.filter_some_pos passes
      | false =>
        rw [if_neg Bool.false_ne_true]
        have more : rows = (dropped ++ [row]) ++ rest := by
          rw [split, List.append_assoc, List.singleton_append]
        have fails : filterMake make preds row = none := by
          rw [filterMake, makes, Option.filter_some, passes]
          rfl
        rw [more] at enough ⊢
        rw [List.length_append, List.length_append, List.length_singleton] at enough
        refine .after (drops.filter.append fun other member => ?_) (ih ?_ (by omega) new)
        · rw [List.mem_singleton.mp member, fails]
        · rw [List.length_append, List.length_singleton, ← Nat.add_assoc]
          exact later

private theorem filterBatches_call (reads : Reads types make child left)
    (typed : ∀ pred ∈ preds, Typed types pred) {rounds max : Nat} (has : left running rows read)
    (enough : rows.length < rounds) {out : Batch} (backs : Backs types out) (positive : 0 < max) :
    BatchCall (filterMake make preds) left rows read types max
      (filterBatches child preds max rounds running out) := by
  induction rounds generalizing running rows read out with
  | zero => exact absurd enough (Nat.not_lt_zero _)
  | succ rounds ih =>
    have call := reads.nextBatch has out max backs positive
    unfold filterBatches
    generalize child.nextBatch running out max = result at call
    cases call with
    | ended drops backs later => exact .ended drops.filter backs later
    | @found dropped taken rest out after split drops few some_ sound same later =>
      have ordered : ∀ row ∈ out.rows, ∀ field ∈ row, field.Ordered := by
        intro made member
        rw [same] at member
        obtain ⟨row, here, makes⟩ := List.mem_filterMap.mp member
        exact (reads.typed has row (by simp [split, here]) made makes).ordered
      obtain ⟨kept, selected, soundKept, rowsKept⟩ := sound.selectAll_eq typed ordered
      rw [same, ← filterMap_filterMake] at rowsKept
      rw [ok_bind]
      dsimp only
      rw [if_pos rfl, selected, ok_bind]
      by_cases some_ : 0 < kept.count
      · rw [if_pos some_]
        refine .found split drops.filter few ?_ soundKept rowsKept later
        rw [← rowsKept]
        exact List.ne_nil_of_length_pos (by rw [length_rows]; exact some_)
      · rw [if_neg some_]
        have nothing : taken.filterMap (filterMake make preds) = [] := by
          rw [← rowsKept]
          exact List.length_eq_zero_iff.mp (by rw [length_rows]; omega)
        have read_ : 0 < taken.length := by
          rcases taken with _ | ⟨row, taken⟩
          · exact absurd rfl ‹[].filterMap make ≠ []›
          · exact Nat.succ_pos _
        rw [split] at enough ⊢
        rw [List.length_append, List.length_append] at enough
        refine .after (drops.filter.append (drops_of_filterMap nothing)) (ih ?_ (by omega)
          (backs_of_ready soundKept.toReady))
        rw [List.length_append, ← Nat.add_assoc]
        exact later

/-- A filter over an operator that reads so. -/
theorem filter_reads (reads : Reads types make child left) (typed : ∀ pred ∈ preds, Typed types pred) :
    Reads types (filterMake make preds) (filter child preds)
      (fun running rows read => left running.state rows read) where
  bound := reads.bound
  typed := by
    intro running rows read has row member made makes
    obtain ⟨before, passes⟩ := Option.filter_eq_some_iff.mp makes
    exact reads.typed has row member made before
  next has out := next_call (filter child preds) (filterRows_call reads typed has
    (Nat.lt_succ_of_le (reads.bound has)) out)
  nextBatch has out max backs positive := nextBatch_call (filter child preds) (Nat.le_refl max)
    (filterBatches_call reads typed has (Nat.lt_succ_of_le (reads.bound has)) backs positive)

end Filter

end Labdb.Exec
