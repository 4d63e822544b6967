import Labdb.Catalog.CursorRows

/-! Successive calls of a cursor, by row and by batch, hand out the same rows in the same
order. -/

namespace Labdb.Catalog

open Labdb.Data Labdb.Heap Labdb.Query Labdb.Record

/-- A call of `fill`: a batch, the row from which it is filled, and how many rows it takes. -/
structure Call where
  out : Batch
  at_ : Nat := 0
  max : Nat

section Calls

variable {Cursor : Type} (next : Cursor → Row → Codec (Option Row × Cursor))
  (fill : Cursor → Call → Codec (Nat × Batch × Cursor))

/-- The rows that so many calls of `next` hand out, each into the row of the call before. -/
def nexts : Nat → Cursor → Row → Codec (List Row)
  | 0, _, _ => pure []
  | calls + 1, cursor, out => do
    let (found, cursor) ← next cursor out
    match found with
    | none => pure []
    | some row => do
      let rows ← nexts calls cursor row
      pure (row :: rows)

/-- What successive calls of `fill` return, and the batches they leave. -/
def fills : List Call → Cursor → Codec (List (Nat × Batch))
  | [], _ => pure []
  | call :: calls, cursor => do
    let (n, out, cursor) ← fill cursor call
    let results ← fills calls cursor
    pure ((n, out) :: results)

end Calls

/-- One call takes rows from the front: `max` of them, or all there are. They lie in the batch
from `at_` on, and what was before them is as it was. -/
structure Takes (call : Call) (rows : List Row) (n : Nat) (after : Batch) : Prop where
  count : n = min call.max rows.length
  size : after.size = call.at_ + n
  rows_eq : ∀ k < n, after.getRow (call.at_ + k) = (rows.getD k []).map Field.plain
  before : ∀ k < call.at_, after.getRow k = call.out.getRow k

/-- Each call takes the rows after those of the calls before. -/
inductive Delivers : List Call → List Row → List (Nat × Batch) → Prop where
  | nil (rows : List Row) : Delivers [] rows []
  | cons {call : Call} {calls : List Call} {rows : List Row} {n : Nat} {after : Batch}
      {results : List (Nat × Batch)} (takes : Takes call rows n after)
      (others : Delivers calls (rows.drop n) results) :
      Delivers (call :: calls) rows ((n, after) :: results)

/-- A batch for rows of the schema, filled up to row `at_` at most. -/
def Call.Fits (schema : Schema) (call : Call) : Prop :=
  call.out.Ready (columnTypes schema) ∧ call.at_ ≤ call.out.room

private theorem takes_of_filled {call : Call} {rows : List Row} {after : Batch}
    (size : after.size = call.at_ + min call.max rows.length)
    (filled : Filled call.out after call.at_ (rows.take call.max)) :
    Takes call rows (min call.max rows.length) after := by
  refine ⟨rfl, size, fun k below => ?_, fun k below => ?_⟩
  · rw [filled.rows_eq, List.length_take, if_pos (by omega), Nat.add_sub_cancel_left,
      List.getD_eq_getElem?_getD, List.getElem?_take_of_lt (by omega),
      ← List.getD_eq_getElem?_getD]
  · rw [filled.rows_eq, if_neg (by omega)]

section Runs

variable {Cursor : Type} {next : Cursor → Row → Codec (Option Row × Cursor)}
  {fill : Cursor → Call → Codec (Nat × Batch × Cursor)} {fits : Call → Prop}

/-- A cursor with rows left, and what one call does to it. -/
structure Serves (next : Cursor → Row → Codec (Option Row × Cursor))
    (fill : Cursor → Call → Codec (Nat × Batch × Cursor)) (fits : Call → Prop)
    (left : Cursor → List Row → Prop) : Prop where
  next_some : ∀ {cursor row rows}, left cursor (row :: rows) → ∀ out, ∃ new after,
    next cursor out = .ok (some new, after) ∧ new.map Field.plain = row.map Field.plain ∧
      left after rows
  next_none : ∀ {cursor}, left cursor [] → ∀ out, next cursor out = .ok (none, cursor)
  fill_takes : ∀ {cursor rows}, left cursor rows → ∀ call, fits call → ∃ n batch after,
    fill cursor call = .ok (n, batch, after) ∧ Takes call rows n batch ∧ left after (rows.drop n)

variable {left : Cursor → List Row → Prop} {cursor : Cursor} {rows : List Row}

private theorem Serves.nexts_eq (serves : Serves next fill fits left) (has : left cursor rows)
    (calls : Nat) (out : Row) :
    ∃ delivered, nexts next calls cursor out = .ok delivered ∧
      delivered.map (List.map Field.plain) = (rows.take calls).map (List.map Field.plain) := by
  induction calls generalizing cursor rows out with
  | zero => exact ⟨[], rfl, rfl⟩
  | succ calls ih =>
    unfold nexts
    cases rows with
    | nil =>
      refine ⟨[], ?_, rfl⟩
      rw [serves.next_none has, ok_bind]
      rfl
    | cons row rows =>
      obtain ⟨new, after, found, same, rest⟩ := serves.next_some has out
      obtain ⟨delivered, others, equal⟩ := ih rest new
      refine ⟨new :: delivered, ?_, ?_⟩
      · rw [found, ok_bind]
        dsimp only
        rw [others, ok_bind]
        rfl
      · rw [List.take_succ_cons, List.map_cons, List.map_cons, same, equal]

private theorem Serves.fills_eq (serves : Serves next fill fits left) (has : left cursor rows)
    (calls : List Call) (each : ∀ call ∈ calls, fits call) :
    ∃ results, fills fill calls cursor = .ok results ∧ Delivers calls rows results := by
  induction calls generalizing cursor rows with
  | nil => exact ⟨[], rfl, .nil rows⟩
  | cons call calls ih =>
    obtain ⟨n, batch, after, filled, takes, rest⟩ :=
      serves.fill_takes has call (each call List.mem_cons_self)
    obtain ⟨results, others, delivers⟩ :=
      ih rest fun other here => each other (List.mem_cons_of_mem call here)
    refine ⟨(n, batch) :: results, ?_, .cons takes delivers⟩
    unfold fills
    rw [filled, ok_bind]
    dsimp only
    rw [others, ok_bind]
    rfl

end Runs

section Cursors

variable {schema : Schema}

/-- The rows that a table's cursor has left. -/
def TableLeft (schema : Schema) (cursor : TableCursor) (rows : List Row) : Prop :=
  cursor.schema = schema ∧ List.Forall₂ (Stored schema cursor.pages) cursor.entries rows

/-- The rows in range that an index's cursor has left. -/
def IndexLeft (schema : Schema) (cursor : IndexCursor) (rows : List Row) : Prop :=
  cursor.schema = schema ∧ ∃ entries, cursor.cur = some entries ∧
    List.Forall₂ (Stored schema cursor.pages) (IndexCursor.inRange entries cursor.hi) rows

/-- One call of an index's cursor, and the rows it has left then. -/
theorem IndexLeft.fill_eq {cursor : IndexCursor} {rows : List Row}
    (has : IndexLeft schema cursor rows) (at_ max : Nat) {out : Batch}
    (ready : out.Ready (columnTypes schema)) (inside : at_ ≤ out.room) :
    ∃ filled after, cursor.fill out at_ max = .ok (min max rows.length, filled, after) ∧
      filled.Ready (columnTypes schema) ∧ filled.size = at_ + min max rows.length ∧
      Filled out filled at_ (rows.take max) ∧ IndexLeft schema after (rows.drop max) := by
  obtain ⟨rfl, entries, here, stored⟩ := has
  obtain ⟨filled, key, pin, ran, readyFilled, size, rows_⟩ :=
    IndexCursor.fill_eq cursor at_ max here stored ready inside
  refine ⟨filled, _, ran, readyFilled, size, rows_, rfl, _, rfl, ?_⟩
  rw [IndexCursor.inRange_drop (by rw [stored.length_eq]; exact Nat.min_le_right _ _),
    @List.drop_eq_drop_min Row rows max]
  exact List.forall₂_drop _ stored

/-- A table's cursor fills a batch from row 0 on. -/
def TableCursor.fillCall (cursor : TableCursor) (call : Call) : Codec (Nat × Batch × TableCursor) :=
  cursor.fill call.out call.max

def IndexCursor.fillCall (cursor : IndexCursor) (call : Call) : Codec (Nat × Batch × IndexCursor) :=
  cursor.fill call.out call.at_ call.max

theorem table_serves (schema : Schema) :
    Serves TableCursor.next TableCursor.fillCall (fun call => call.Fits schema ∧ call.at_ = 0)
      (TableLeft schema) := by
  refine ⟨?_, ?_, ?_⟩
  · rintro cursor row rows ⟨rfl, stored⟩ out
    cases entries : cursor.entries with
    | nil =>
      rw [entries] at stored
      cases stored
    | cons value values =>
      rw [entries] at stored
      obtain ⟨first, others⟩ := List.forall₂_cons.mp stored
      obtain ⟨new, pin, found, same⟩ := TableCursor.next_some entries first out
      exact ⟨new, _, found, same, rfl, others⟩
  · rintro cursor ⟨rfl, stored⟩ out
    exact TableCursor.next_none (List.forall₂_nil_right_iff.mp stored) out
  · rintro cursor rows ⟨rfl, stored⟩ call ⟨⟨ready, -⟩, start⟩
    obtain ⟨after, pin, filled, -, size, rows_⟩ := cursor.fill_eq call.max stored ready
    rw [← start] at rows_
    refine ⟨_, after, _, filled, takes_of_filled (by omega) rows_, rfl, ?_⟩
    rw [← List.drop_eq_drop_min]
    exact List.forall₂_drop call.max stored

private theorem IndexCursor.fetch_eq {cursor : IndexCursor} {value : UInt64} {row : Row}
    (stored : Stored cursor.schema cursor.pages value row) (out : Row) :
    ∃ new pin, cursor.fetch (ridDecode value) out = .ok (new, pin) ∧
      new.map Field.plain = row.map Field.plain := by
  obtain ⟨rec, copied, pinned, fits, encoded, short⟩ := stored.reads
  unfold fetch
  cases cursor.copy with
  | true =>
    refine ⟨row.map Field.plain, cursor.pin, ?_, ?_⟩
    · rw [if_pos rfl, copied, ok_bind, encoded.decode_eq short fits]
      rfl
    · rw [List.map_map]
      exact List.map_congr_left fun field _ => field.plain_plain
  | false =>
    obtain ⟨new, decoded, same⟩ := encoded.decodeInto_eq short fits out
    refine ⟨new, some (ridDecode value).page, ?_, same⟩
    simp only [Bool.false_eq_true, if_false, pinned, ok_bind, look_pinned, layout, decoded]
    rfl

theorem index_serves (schema : Schema) :
    Serves IndexCursor.next IndexCursor.fillCall (fun call => call.Fits schema)
      (IndexLeft schema) := by
  refine ⟨?_, ?_, ?_⟩
  · rintro cursor row rows ⟨rfl, entries, here, stored⟩ out
    cases entries with
    | nil => cases stored
    | cons entry entries =>
      obtain ⟨key, value⟩ := entry
      by_cases inside : key ≤ cursor.hi
      · rw [IndexCursor.inRange_cons_of_le inside] at stored
        obtain ⟨first, others⟩ := List.forall₂_cons.mp stored
        obtain ⟨new, pin, fetched, same⟩ := IndexCursor.fetch_eq first out
        refine ⟨new, { cursor with cur := some entries, key, pin }, ?_, same, rfl, entries, rfl,
          others⟩
        unfold IndexCursor.next
        rw [here]
        dsimp only
        rw [if_neg (UInt64.not_lt.mpr inside), fetched, ok_bind]
        rfl
      · rw [IndexCursor.inRange_cons_of_lt inside] at stored
        cases stored
  · rintro cursor ⟨rfl, entries, here, stored⟩ out
    unfold IndexCursor.next
    rw [here]
    cases entries with
    | nil => rfl
    | cons entry entries =>
      obtain ⟨key, value⟩ := entry
      by_cases inside : key ≤ cursor.hi
      · rw [IndexCursor.inRange_cons_of_le inside] at stored
        cases stored
      · exact if_pos (UInt64.not_le.mp inside)
  · intro cursor rows has call ⟨ready, inside⟩
    obtain ⟨filled, after, ran, -, size, rows_, rest⟩ :=
      has.fill_eq call.at_ call.max ready inside
    refine ⟨_, filled, _, ran, takes_of_filled size rows_, ?_⟩
    rw [← List.drop_eq_drop_min]
    exact rest

end Cursors

/-- By row and by batch, from pinned pages and from copied ones, a cursor hands out its rows in
order: those of the table, or those of the index between two keys. -/
theorem cursors_agree :
    (∀ (cursor : TableCursor) (rows : List Row),
      List.Forall₂ (Stored cursor.schema cursor.pages) cursor.entries rows →
      (∀ calls out, ∃ delivered, nexts TableCursor.next calls cursor out = .ok delivered ∧
        delivered.map (List.map Field.plain) = (rows.take calls).map (List.map Field.plain)) ∧
      ∀ calls : List Call, (∀ call ∈ calls, call.Fits cursor.schema ∧ call.at_ = 0) →
        ∃ results, fills TableCursor.fillCall calls cursor = .ok results ∧
          Delivers calls rows results) ∧
    ∀ (cursor : IndexCursor) (lo hi : Key) (rows : List Row),
      List.Forall₂ (Stored cursor.schema cursor.pages)
        (IndexCursor.inRange (cursor.tree.dropWhile fun entry => entry.1 < lo) hi) rows →
      (∀ calls out, ∃ delivered,
        nexts IndexCursor.next calls (cursor.seek lo hi) out = .ok delivered ∧
        delivered.map (List.map Field.plain) = (rows.take calls).map (List.map Field.plain)) ∧
      ∀ calls : List Call, (∀ call ∈ calls, call.Fits cursor.schema) →
        ∃ results, fills IndexCursor.fillCall calls (cursor.seek lo hi) = .ok results ∧
          Delivers calls rows results := by
  refine ⟨fun cursor rows stored => ?_, fun cursor lo hi rows stored => ?_⟩
  · have has : TableLeft cursor.schema cursor rows := ⟨rfl, stored⟩
    exact ⟨(table_serves cursor.schema).nexts_eq has, (table_serves cursor.schema).fills_eq has⟩
  · have has : IndexLeft cursor.schema (cursor.seek lo hi) rows := ⟨rfl, _, rfl, stored⟩
    exact ⟨(index_serves cursor.schema).nexts_eq has, (index_serves cursor.schema).fills_eq has⟩

/-- Three rows that lie on two pages in turn, taken in two calls. -/
theorem cursors_agree_in_turn :
    let schema : Schema := ⟨[⟨bytes "id", .kInt64, false⟩]⟩
    let pages : Pages := fun page slot =>
      if page = 7 then some [0, slot.toUInt8 + 1, 0, 0, 0, 0, 0, 0, 0]
      else some [0, 9, 0, 0, 0, 0, 0, 0, 0]
    let values := [ridEncode ⟨7, 0⟩, ridEncode ⟨8, 0⟩, ridEncode ⟨7, 1⟩]
    let rows : List Row := [[.ofInt64 1], [.ofInt64 9], [.ofInt64 2]]
    let table : TableCursor := { schema, pages, copy := false, entries := values }
    let index : IndexCursor := { schema, pages, copy := false, tree := [1, 3, 5].zip values }
    let out := ({} : Batch).format (columnTypes schema) 1
    (∃ delivered, nexts TableCursor.next 4 table [] = .ok delivered ∧
      delivered.map (List.map Field.plain) = rows.map (List.map Field.plain)) ∧
    (∃ results, fills TableCursor.fillCall [{ out, max := 2 }, { out, max := 2 }] table =
      .ok results ∧ Delivers [{ out, max := 2 }, { out, max := 2 }] rows results) ∧
    ∃ results, fills IndexCursor.fillCall [{ out, at_ := 1, max := 2 }] (index.seek 2 9) =
      .ok results ∧ Delivers [{ out, at_ := 1, max := 2 }] (rows.drop 1) results := by
  intro schema pages values rows table index out
  have stored : List.Forall₂ (Stored schema pages) values rows := by
    refine .cons ⟨.cons ⟨rfl, ?_, ?_⟩ .nil, [0, 1, 0, 0, 0, 0, 0, 0, 0], ?_, ?_, ?_⟩
      (.cons ⟨.cons ⟨rfl, ?_, ?_⟩ .nil, [0, 9, 0, 0, 0, 0, 0, 0, 0], ?_, ?_, ?_⟩
        (.cons ⟨.cons ⟨rfl, ?_, ?_⟩ .nil, [0, 2, 0, 0, 0, 0, 0, 0, 0], ?_, ?_, ?_⟩ .nil)) <;>
      decide
  have ready : out.Ready (columnTypes schema) := by
    refine Batch.ready_format _ _ _ fun c type _ => ?_
    exact Nat.zero_le _
  obtain ⟨tables, indexes⟩ := cursors_agree
  obtain ⟨nexted, filled⟩ := tables table rows stored
  obtain ⟨-, filledIndex⟩ := indexes index 2 9 (rows.drop 1) (List.forall₂_drop 1 stored)
  refine ⟨nexted 4 [], filled _ ?_, filledIndex _ ?_⟩
  · intro call member
    rcases List.mem_cons.mp member with rfl | member
    · exact ⟨⟨ready, Nat.zero_le _⟩, rfl⟩
    · rw [List.mem_singleton.mp member]
      exact ⟨⟨ready, Nat.zero_le _⟩, rfl⟩
  · intro call member
    rw [List.mem_singleton.mp member]
    exact ⟨ready, Nat.le_refl 1⟩

end Labdb.Catalog
