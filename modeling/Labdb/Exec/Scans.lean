import Labdb.Catalog.CursorRuns
import Labdb.Exec.Moved

/-! The scans of a table and of an index read exactly the rows that they hand out. -/

namespace Labdb.Exec

open Labdb.Catalog Labdb.Query Labdb.Record

/-- The rows that a scan has left, as values, and those that it has counted. -/
def ScanLeft {op : Operator} (types : List ColType) (raws : op.State → List Row → Prop)
    (running : Running op) (rows : List Row) (read : Nat) : Prop :=
  running.rowsOut = read ∧ ∃ raw, raws running.state raw ∧ rows = raw.map (List.map Field.plain) ∧
    ∀ row ∈ rows, TypedRow types row

/-- What one call of a scan does to the rows it has left. -/
structure Scans (types : List ColType) (batchRows : Nat) (op : Operator)
    (raws : op.State → List Row → Prop) : Prop where
  bound : ∀ {state rows}, raws state rows → rows.length ≤ op.bound state
  some_ : ∀ {state row rows}, raws state (row :: rows) → ∀ out, ∃ new after,
    op.produce state out = .ok (some new, after) ∧ new.map Field.plain = row.map Field.plain ∧
      raws after rows
  none_ : ∀ {state}, raws state [] → ∀ out,
    ∃ after, op.produce state out = .ok (none, after) ∧ raws after []
  fill : ∀ {state row rows}, raws state (row :: rows) → ∀ out max, Backs types out → 0 < max →
    ∃ filled after, op.produceBatch state out max = .ok (true, filled, after) ∧
      Sound types filled ∧
      filled.rows = ((row :: rows).take (cap batchRows max)).map (List.map Field.plain) ∧
      raws after ((row :: rows).drop (cap batchRows max))
  end_ : ∀ {state}, raws state [] → ∀ out max, Backs types out →
    ∃ left after, op.produceBatch state out max = .ok (false, left, after) ∧ Backs types left ∧
      raws after []

section Scan

variable {types : List ColType} {batchRows : Nat} {op : Operator}
  {raws : op.State → List Row → Prop}

theorem cap_pos {max : Nat} (positive : 0 < batchRows) (some_ : 0 < max) : 0 < cap batchRows max := by
  unfold cap
  split <;> omega

private theorem cap_le (batchRows max : Nat) : cap batchRows max ≤ max := by
  unfold cap
  split <;> omega

/-- A scan reads no row that it does not hand out. -/
theorem Scans.reads (scans : Scans types batchRows op raws) (positive : 0 < batchRows) :
    Reads types some op (ScanLeft types raws) where
  bound := by
    rintro running rows read ⟨-, raw, has, rfl, -⟩
    rw [List.length_map]
    exact scans.bound has
  typed := by
    rintro running rows read ⟨-, raw, -, -, typed⟩ row member made makes
    cases makes
    exact typed row member
  next := by
    rintro running rows read ⟨rfl, raw, has, rfl, typed⟩ out
    unfold Operator.next
    cases raw with
    | nil =>
      obtain ⟨after, ended, rest⟩ := scans.none_ has out
      rw [ended, ok_bind]
      exact .ended (Drops.nil _) ⟨rfl, [], rest, rfl, nofun⟩
    | cons row rows =>
      obtain ⟨new, after, found, same, rest⟩ := scans.some_ has out
      rw [found, ok_bind]
      refine .found (List.nil_append _).symm (Drops.nil _) rfl same ⟨rfl, rows, rest, rfl, ?_⟩
      exact fun other member => typed other (List.mem_cons_of_mem _ member)
  nextBatch := by
    rintro running rows read ⟨rfl, raw, has, rfl, typed⟩ out max backs some_
    unfold Operator.nextBatch
    cases raw with
    | nil =>
      obtain ⟨left, after, ended, backs', rest⟩ := scans.end_ has out max backs
      rw [ended, ok_bind]
      exact .ended (Drops.nil _) backs' ⟨rfl, [], rest, rfl, nofun⟩
    | cons row rows =>
      obtain ⟨filled, after, found, sound, same, rest⟩ := scans.fill has out max backs some_
      have count := length_rows filled
      rw [same, List.length_map, List.length_take, List.length_cons] at count
      have few := cap_le batchRows max
      have some' := cap_pos positive some_
      have checked : (decide (0 < filled.count) && decide (filled.count ≤ max)) = true :=
        Bool.and_eq_true_iff.mpr ⟨decide_eq_true (by omega), decide_eq_true (by omega)⟩
      rw [found, ok_bind]
      dsimp only
      rw [if_pos rfl, checkThat_true checked, ok_bind]
      refine @BatchCall.found _ _ _ _ _ _ _ []
        (((row :: rows).take (cap batchRows max)).map (List.map Field.plain))
        (((row :: rows).drop (cap batchRows max)).map (List.map Field.plain)) _ _ ?_ (Drops.nil _)
        ?_ ?_ sound ?_ ⟨?_, _, rest, rfl, fun other member => typed other ?_⟩
      · rw [List.nil_append, ← List.map_append, List.take_append_drop]
      · rw [List.length_map, List.length_take]
        omega
      · rw [List.filterMap_some]
        refine List.ne_nil_of_length_pos ?_
        rw [List.length_map, List.length_take, List.length_cons]
        omega
      · rw [List.filterMap_some, same]
      · rw [List.length_map, List.length_take, List.length_cons, count]
        rfl
      · obtain ⟨before, here, rfl⟩ := List.mem_map.mp member
        exact List.mem_map_of_mem (List.mem_of_mem_drop here)

end Scan

/-- A batch that a cursor has filled from row 0 on. -/
theorem sound_of_filled {types : List ColType} {out after : Batch} {rows : List Row}
    (ready : after.Ready types) (size : after.size = rows.length)
    (filled : Filled (out.format types 0) after 0 rows) :
    Sound types after ∧ after.rows = rows.map (List.map Field.plain) := by
  have selected : after.selected = false := filled.selected
  have room := filled.room
  have liveRows : after.liveRows = List.range rows.length := by
    refine List.ext_getElem ?_ fun k _ _ => ?_
    · rw [length_liveRows, Batch.count, selected, if_neg Bool.false_ne_true, size,
        List.length_range]
    · simp [Batch.liveRows, Batch.row, selected]
  refine ⟨⟨ready, by omega, fun isSelected => ?_, fun i member => ?_⟩, ?_⟩
  · exact absurd (selected.symm.trans isSelected) Bool.false_ne_true
  · rw [liveRows] at member
    rw [size]
    exact List.mem_range.mp member
  · rw [Batch.rows, liveRows]
    refine List.ext_getElem (by simp) fun k below _ => ?_
    rw [List.length_map, List.length_range] at below
    rw [List.getElem_map, List.getElem_range, filled.rows_eq, if_pos (by omega), Nat.sub_zero,
      List.getElem_map, List.getD_eq_getElem?_getD, List.getElem?_eq_getElem below]
    rfl

section Cursors

variable {schema : Schema} {batchRows : Nat}

private theorem ready_of_backs {types : List ColType} {out : Batch} (backs : Backs types out) :
    (out.format types 0).Ready types :=
  out.ready_format types 0 backs

theorem seqScan_scans (schema : Schema) (batchRows : Nat) (positive : 0 < batchRows) :
    Scans (columnTypes schema) batchRows (seqScan (columnTypes schema) batchRows)
      (TableLeft schema) := by
  refine ⟨?_, fun has out => (table_serves schema).next_some has out,
    fun has out => ⟨_, (table_serves schema).next_none has out, has⟩, ?_, ?_⟩
  · rintro (cursor : TableCursor) rows ⟨rfl, stored⟩
    exact Nat.le_of_eq stored.length_eq.symm
  · rintro (cursor : TableCursor) row rows ⟨rfl, stored⟩ out max backs some_
    obtain ⟨after, pin, filled, ready, size, rows_⟩ :=
      cursor.fill_eq (cap batchRows max) stored (ready_of_backs backs)
    rw [← List.length_take] at size
    obtain ⟨sound, same⟩ := sound_of_filled ready size rows_
    have more : 0 < min (cap batchRows max) (row :: rows).length := by
      rw [List.length_cons]
      exact Nat.lt_min.mpr ⟨cap_pos positive some_, Nat.succ_pos _⟩
    refine ⟨after, { cursor with entries := cursor.entries.drop (cap batchRows max), pin }, ?_,
      sound, same, rfl, List.forall₂_drop (cap batchRows max) stored⟩
    unfold seqScan
    dsimp only
    rw [filled, ok_bind]
    dsimp only
    rw [decide_eq_true more]
    rfl
  · rintro (cursor : TableCursor) ⟨rfl, stored⟩ out max backs
    obtain ⟨after, pin, filled, ready, -, -⟩ :=
      cursor.fill_eq (cap batchRows max) stored (ready_of_backs backs)
    have rest := List.forall₂_drop (cap batchRows max) stored
    rw [List.drop_nil] at rest
    refine ⟨after, { cursor with entries := cursor.entries.drop (cap batchRows max), pin }, ?_,
      backs_of_ready ready, rfl, rest⟩
    unfold seqScan
    dsimp only
    rw [filled, ok_bind, List.length_nil, Nat.min_zero]
    rfl

/-- The rows an index scan has left: none, where its range is empty. -/
def IndexScanLeft (schema : Schema) (cur : Option IndexCursor) (rows : List Row) : Prop :=
  match cur with
  | none => rows = []
  | some cursor => IndexLeft schema cursor rows

private theorem inRange_length_le (entries : List (Key × UInt64)) (hi : Key) :
    (IndexCursor.inRange entries hi).length ≤ entries.length := by
  rw [IndexCursor.inRange, List.length_map]
  exact (List.takeWhile_sublist _).length_le

theorem indexScan_scans (schema : Schema) (batchRows : Nat) (positive : 0 < batchRows) :
    Scans (columnTypes schema) batchRows (indexScan (columnTypes schema) batchRows)
      (IndexScanLeft schema) := by
  refine ⟨?_, ?_, ?_, ?_, ?_⟩
  · rintro (cur : Option IndexCursor) rows has
    cases cur with
    | none =>
      cases has
      exact Nat.le_refl 0
    | some cursor =>
      obtain ⟨-, entries, here, stored⟩ := has
      have bound := inRange_length_le entries cursor.hi
      rw [stored.length_eq] at bound
      simpa [indexScan, here] using bound
  · rintro (cur : Option IndexCursor) row rows has out
    cases cur with
    | none => cases has
    | some cursor =>
      obtain ⟨new, after, found, same, rest⟩ := (index_serves schema).next_some has out
      refine ⟨new, some after, ?_, same, rest⟩
      unfold indexScan
      dsimp only
      rw [found]
      rfl
  · rintro (cur : Option IndexCursor) has out
    cases cur with
    | none => exact ⟨none, rfl, rfl⟩
    | some cursor =>
      refine ⟨some cursor, ?_, has⟩
      unfold indexScan
      dsimp only
      rw [(index_serves schema).next_none has out]
      rfl
  · rintro (cur : Option IndexCursor) row rows has out max backs some_
    cases cur with
    | none => cases has
    | some cursor =>
      obtain ⟨filled, after, ran, ready, size, rows_, rest⟩ :=
        IndexLeft.fill_eq has 0 (cap batchRows max) (ready_of_backs backs) (Nat.zero_le _)
      rw [Nat.zero_add, ← List.length_take] at size
      obtain ⟨sound, same⟩ := sound_of_filled ready size rows_
      have more : 0 < min (cap batchRows max) (row :: rows).length := by
        rw [List.length_cons]
        exact Nat.lt_min.mpr ⟨cap_pos positive some_, Nat.succ_pos _⟩
      refine ⟨filled, some after, ?_, sound, same, rest⟩
      unfold indexScan
      dsimp only
      rw [ran, ok_bind]
      dsimp only
      rw [decide_eq_true more]
      rfl
  · rintro (cur : Option IndexCursor) has out max backs
    cases cur with
    | none => exact ⟨out, none, rfl, backs, rfl⟩
    | some cursor =>
      obtain ⟨filled, after, ran, ready, -, -, rest⟩ :=
        IndexLeft.fill_eq has 0 (cap batchRows max) (ready_of_backs backs) (Nat.zero_le _)
      rw [List.drop_nil] at rest
      refine ⟨filled, some after, ?_, backs_of_ready ready, rest⟩
      unfold indexScan
      dsimp only
      rw [ran, ok_bind, List.length_nil, Nat.min_zero]
      rfl

end Cursors

end Labdb.Exec
