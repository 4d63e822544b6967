import Labdb.Catalog.Cursor
import Labdb.Record.Decode
import Mathlib.Data.List.GetD

/-! The rows that a cursor writes into batches are those it hands out one by one. -/

namespace Labdb.Catalog

open Labdb.Data Labdb.Heap Labdb.Query Labdb.Record

/-- An entry leads to the record of a row. -/
def Stored (schema : Schema) (pages : Pages) (value : UInt64) (row : Row) : Prop :=
  RowMatches schema row ∧
    ∃ rec, pages (ridDecode value).page (ridDecode value).slot = some rec ∧
      encode schema row = .ok rec ∧ rec.length ≤ kMaxRecordSize

/-- Two batches that hold the same rows, selected or not alike. -/
structure Alike (batch other : Batch) : Prop where
  rows_eq : ∀ k, other.getRow k = batch.getRow k
  selected : other.selected = batch.selected

theorem Alike.refl (batch : Batch) : Alike batch batch := ⟨fun _ => rfl, rfl⟩

theorem Alike.trans {batch other third : Batch} (first : Alike batch other)
    (second : Alike other third) : Alike batch third :=
  ⟨fun k => (second.rows_eq k).trans (first.rows_eq k), second.selected.trans first.selected⟩

/-- Rows from `at_` on are these, and all others as before. -/
structure Filled (before after : Batch) (at_ : Nat) (rows : List Row) : Prop where
  rows_eq : ∀ k, after.getRow k =
    if at_ ≤ k ∧ k < at_ + rows.length then (rows.getD (k - at_) []).map Field.plain
    else before.getRow k
  selected : after.selected = before.selected
  room : at_ + rows.length ≤ after.room

section Filled

variable {before middle after : Batch} {at_ : Nat} {rows more : List Row}

theorem Filled.nil (same : Alike before after) (room : at_ ≤ after.room) :
    Filled before after at_ [] := by
  refine ⟨fun k => ?_, same.selected, room⟩
  rw [same.rows_eq, if_neg]
  rw [List.length_nil]
  omega

theorem Filled.append (first : Filled before middle at_ rows)
    (second : Filled middle after (at_ + rows.length) more) :
    Filled before after at_ (rows ++ more) := by
  refine ⟨fun k => ?_, second.selected.trans first.selected, ?_⟩
  · rw [second.rows_eq k, first.rows_eq k, List.length_append]
    by_cases early : at_ ≤ k ∧ k < at_ + rows.length
    · rw [if_neg (by omega), if_pos early, if_pos (by omega)]
      refine congrArg (List.map Field.plain) ?_
      rw [List.getD_append _ _ _ _ (by omega)]
    · by_cases late : at_ + rows.length ≤ k ∧ k < at_ + rows.length + more.length
      · rw [if_pos late, if_pos (by omega)]
        refine congrArg (List.map Field.plain) ?_
        rw [List.getD_append_right _ _ _ _ (by omega)]
        congr 1
        omega
      · rw [if_neg late, if_neg early, if_neg (by omega)]
  · rw [List.length_append, ← Nat.add_assoc]
    exact second.room

theorem Filled.congr {start : Batch} (filled : Filled before after at_ rows)
    (same : Alike start before) : Filled start after at_ rows := by
  refine ⟨fun k => ?_, filled.selected.trans same.selected, filled.room⟩
  rw [filled.rows_eq k, same.rows_eq k]

/-- The rows that one batch holds beyond another's. -/
theorem Filled.rest (whole : Filled before after at_ (rows ++ more))
    (first : Filled before middle at_ rows) : Filled middle after (at_ + rows.length) more := by
  refine ⟨fun k => ?_, whole.selected.trans first.selected.symm, ?_⟩
  · rw [whole.rows_eq k, first.rows_eq k, List.length_append]
    by_cases early : at_ ≤ k ∧ k < at_ + rows.length
    · rw [if_pos early, if_pos (by omega), if_neg (by omega)]
      refine congrArg (List.map Field.plain) ?_
      rw [List.getD_append _ _ _ _ (by omega)]
    · by_cases late : at_ + rows.length ≤ k ∧ k < at_ + rows.length + more.length
      · rw [if_pos late, if_pos (by omega)]
        refine congrArg (List.map Field.plain) ?_
        rw [List.getD_append_right _ _ _ _ (by omega)]
        congr 1
        omega
      · rw [if_neg late, if_neg early, if_neg (by omega)]
  · rw [Nat.add_assoc, ← List.length_append]
    exact whole.room

end Filled

/-- The types of a table's columns. -/
abbrev columnTypes (schema : Schema) : List ColType := schema.columns.map Column.type

section Reads

variable {schema : Schema} {pages : Pages} {value : UInt64} {row : Row} {values : List UInt64}
  {rows : List Row} {out : Batch} {at_ : Nat}

/-- The record is the same whether its page is copied or pinned. -/
theorem Stored.reads (stored : Stored schema pages value row) :
    ∃ rec, heapGet pages (ridDecode value) = .ok rec ∧
      (∀ message, readPinned pages (some (ridDecode value).page) (ridDecode value).slot message =
        .ok ⟨(ridDecode value).page, rec⟩) ∧
      RowMatches schema row ∧ Encoded schema row rec ∧ rec.length ≤ kMaxRecordSize := by
  obtain ⟨fits, rec, found, wrote, short⟩ := stored
  refine ⟨rec, ?_, fun message => ?_, fits, encoded_of_encode fits wrote, short⟩
  · rw [heapGet, found]
    rfl
  · rw [readPinned, found]
    rfl

theorem look_pinned (page : PageId) (rec : List UInt8) : look (some page) ⟨page, rec⟩ = .ok rec :=
  if_pos rfl

/-- A run whose page is pinned. -/
theorem decodeSpans_eq {page : PageId} {spans : List Span}
    (encoded : EncodedAll schema rows (spans.map Span.bytes))
    (lie : ∀ span ∈ spans, span.page = page) (ready : out.Ready (columnTypes schema))
    (room : at_ + rows.length ≤ out.room) :
    decodeSpans (.ofSchema schema) (some page) spans out at_ = .ok (setRows at_ rows out) := by
  have looked : spans.mapM (look (some page)) = .ok (spans.map Span.bytes) :=
    mapM_map fun span here => if_pos (by rw [lie span here])
  rw [decodeSpans, looked, ok_bind]
  exact decodeRun_eq encoded (formatted_of_room ready room)

/-- Rows that were decoded into a batch with room for them. -/
theorem setRows_spec (fits : ∀ row ∈ rows, RowMatches schema row)
    (ready : out.Ready (columnTypes schema)) (room : at_ + rows.length ≤ out.room) :
    (setRows at_ rows out).Ready (columnTypes schema) ∧ (setRows at_ rows out).room = out.room ∧
      Filled out (setRows at_ rows out) at_ rows :=
  ⟨(setRows_ready ready at_ rows).1, (setRows_ready ready at_ rows).2,
    getRow_setRows (formatted_of_room ready room) fits, rfl,
    (setRows_ready ready at_ rows).2.symm ▸ room⟩

/-- A batch that is full at row `n` is made larger. -/
theorem grown_spec {n room : Nat} (ready : out.Ready (columnTypes schema))
    (looked : room = out.room) (inside : n ≤ room) :
    ∃ larger, (if n = room then (out.ensure (n + 1), (out.ensure (n + 1)).room) else (out, room)) =
        (larger, larger.room) ∧
      larger.Ready (columnTypes schema) ∧ n < larger.room ∧ Alike out larger := by
  subst looked
  by_cases full : n = out.room
  · obtain ⟨readyGrown, roomGrown, -, same⟩ := ready.ensure (n + 1)
    exact ⟨_, if_pos full, readyGrown, roomGrown, same, out.selected_ensure _⟩
  · exact ⟨out, if_neg full, ready, Nat.lt_of_le_of_ne inside full, .refl out⟩

/-- One record into a batch with room for it. -/
theorem copy_spec {rec : List UInt8} {n : Nat} (fits : RowMatches schema row)
    (encoded : Encoded schema row rec) (short : rec.length ≤ kMaxRecordSize)
    (ready : out.Ready (columnTypes schema)) (room : n < out.room) :
    ∃ after, decodeTo (.ofSchema schema) rec out n = .ok after ∧
      after.Ready (columnTypes schema) ∧ after.room = out.room ∧ Filled out after n [row] := by
  have formatted : Formatted schema out n 1 := formatted_of_room ready room
  exact ⟨_, decodeTo_eq (.cons ⟨fits, encoded, short⟩ .nil) formatted,
    setRows_spec (fun other member => List.mem_singleton.mp member ▸ fits) ready room⟩

end Reads

namespace TableCursor

variable {cursor : TableCursor} {value : UInt64} {values : List UInt64} {row : Row}
  {rows : List Row} {out : Batch}

/-- A row of the cursor. -/
theorem next_some (entries : cursor.entries = value :: values)
    (stored : Stored cursor.schema cursor.pages value row) (out : Row) :
    ∃ new pin, cursor.next out = .ok (some new, { cursor with entries := values, pin }) ∧
      new.map Field.plain = row.map Field.plain := by
  obtain ⟨rec, copied, pinned, fits, encoded, short⟩ := stored.reads
  unfold next
  rw [entries]
  dsimp only
  cases copy : cursor.copy with
  | true =>
    refine ⟨row.map Field.plain, cursor.pin, ?_, ?_⟩
    · simp only [if_true, copied, ok_bind, encoded.decode_eq short fits]
      rfl
    · rw [List.map_map]
      exact List.map_congr_left fun field _ => field.plain_plain
  | false =>
    obtain ⟨new, decoded, same⟩ := encoded.decodeInto_eq short fits out
    refine ⟨new, some (ridDecode value).page, ?_, same⟩
    simp only [Bool.false_eq_true, if_false, pinned, ok_bind, look_pinned, layout, decoded]
    rfl

theorem next_none (entries : cursor.entries = []) (out : Row) :
    cursor.next out = .ok (none, cursor) := by
  unfold next
  rw [entries]
  rfl

/-- A run is the records of the next entries. -/
theorem takeRun_eq {page : PageId} (left : Nat)
    (stored : List.Forall₂ (Stored cursor.schema cursor.pages) values rows) :
    ∃ k spans, cursor.takeRun (some page) page left values = .ok (spans, values.drop k) ∧
      k ≤ left ∧ k ≤ values.length ∧ spans.length = k ∧ (∀ span ∈ spans, span.page = page) ∧
      EncodedAll cursor.schema (rows.take k) (spans.map Span.bytes) ∧
      (0 < left → (values.head?.map fun value => (ridDecode value).page) = some page → 0 < k) := by
  induction stored generalizing left with
  | nil =>
    refine ⟨0, [], ?_, Nat.zero_le _, Nat.zero_le _, rfl, nofun, .nil, fun _ head => nomatch head⟩
    cases left <;> rfl
  | @cons value row values rows first rest ih =>
    cases left with
    | zero =>
      exact ⟨0, [], rfl, Nat.zero_le _, Nat.zero_le _, rfl, nofun, .nil,
        fun positive => absurd positive (Nat.lt_irrefl 0)⟩
    | succ left =>
      unfold takeRun
      dsimp only
      by_cases here : (ridDecode value).page = page
      · obtain ⟨rec, -, pinned, fits, encoded, short⟩ := first.reads
        obtain ⟨k, spans, taken, bound, inside, count, lie, each, -⟩ := ih left
        rw [here] at pinned
        refine ⟨k + 1, ⟨page, rec⟩ :: spans, ?_, Nat.succ_le_succ bound, Nat.succ_le_succ inside,
          congrArg Nat.succ count, ?_, .cons ⟨fits, encoded, short⟩ each, fun _ _ => Nat.succ_pos k⟩
        · rw [if_neg (not_not_intro here), pinned, ok_bind, taken]
          rfl
        · intro span member
          rcases List.mem_cons.mp member with rfl | later
          · rfl
          · exact lie span later
      · refine ⟨0, [], ?_, Nat.zero_le _, Nat.zero_le _, rfl, nofun, .nil, fun _ head => ?_⟩
        · rw [if_pos here]
          rfl
        · exact absurd (Option.some.inj head) here

/-- The loop that copies: the room that was looked at is the batch's, and the next row is not
beyond it. -/
theorem fillCopied_eq (max : Nat) {n room : Nat}
    (stored : List.Forall₂ (Stored cursor.schema cursor.pages) values rows)
    (ready : out.Ready (columnTypes cursor.schema)) (looked : room = out.room) (inside : n ≤ room) :
    ∃ after, cursor.fillCopied max values n room out =
        .ok (n + min (max - n) rows.length, after, values.drop (max - n)) ∧
      after.Ready (columnTypes cursor.schema) ∧ Filled out after n (rows.take (max - n)) := by
  induction stored generalizing n room out with
  | nil =>
    refine ⟨out, ?_, ready, ?_⟩
    · rw [List.length_nil, Nat.min_zero, Nat.add_zero, List.drop_nil]
      rfl
    · rw [List.take_nil]
      exact .nil (.refl out) (looked ▸ inside)
  | @cons value row values rows first rest ih =>
    by_cases more : n < max
    · obtain ⟨rec, copied, -, fits, encoded, short⟩ := first.reads
      obtain ⟨larger, grown, readyLarger, roomLarger, sameLarger⟩ := grown_spec ready looked inside
      obtain ⟨next, decoded, readyNext, roomNext, filled⟩ :=
        copy_spec fits encoded short readyLarger roomLarger
      obtain ⟨after, filledRest, readyAfter, filledAfter⟩ :=
        ih readyNext roomNext.symm (Nat.succ_le_of_lt roomLarger)
      have left : max - n = max - (n + 1) + 1 := by omega
      have counted : n + 1 + min (max - (n + 1)) rows.length =
          n + min (max - n) (row :: rows).length := by
        rw [List.length_cons]
        omega
      refine ⟨after, ?_, readyAfter, ?_⟩
      · unfold fillCopied
        dsimp only
        rw [if_pos more, grown, copied, ok_bind]
        dsimp only
        rw [layout, decoded, ok_bind, filledRest, counted, left, List.drop_succ_cons]
      · rw [left, List.take_succ_cons]
        exact (filled.congr sameLarger).append filledAfter
    · have none_ : max - n = 0 := by omega
      refine ⟨out, ?_, ready, ?_⟩
      · rw [none_, Nat.zero_min, Nat.add_zero, List.drop_zero]
        exact if_neg more
      · rw [none_, List.take_zero]
        exact .nil (.refl out) (looked ▸ inside)

/-- The loop that reads pinned pages, which takes an entry or more in each of its rounds. -/
theorem fillPinned_eq {max : Nat} (rounds : Nat) (cursor : TableCursor) {rows : List Row} {n : Nat}
    {out : Batch} (stored : List.Forall₂ (Stored cursor.schema cursor.pages) cursor.entries rows)
    (enough : cursor.entries.length ≤ rounds) (ready : out.Ready (columnTypes cursor.schema))
    (here : n ≤ out.room) :
    ∃ after pin, fillPinned max rounds cursor n out =
        .ok (n + min (max - n) rows.length, after,
          { cursor with entries := cursor.entries.drop (max - n), pin }) ∧
      after.Ready (columnTypes cursor.schema) ∧ Filled out after n (rows.take (max - n)) := by
  induction rounds generalizing cursor rows n out with
  | zero =>
    obtain ⟨schema, pages, copy, entries, pin⟩ := cursor
    cases List.length_eq_zero_iff.mp (Nat.le_zero.mp enough)
    cases stored
    refine ⟨out, pin, ?_, ready, ?_⟩
    · simp only [List.length_nil, Nat.min_zero, Nat.add_zero, List.drop_nil]
      rfl
    · rw [List.take_nil]
      exact .nil (.refl out) here
  | succ rounds ih =>
    obtain ⟨schema, pages, copy, entries, pin⟩ := cursor
    cases entries with
    | nil =>
      cases stored
      refine ⟨out, pin, ?_, ready, ?_⟩
      · simp only [List.length_nil, Nat.min_zero, Nat.add_zero, List.drop_nil]
        rfl
      · rw [List.take_nil]
        exact .nil (.refl out) here
    | cons value values =>
      by_cases more : n < max
      · have count : (value :: values).length = rows.length := stored.length_eq
        obtain ⟨k, spans, taken, bound, inside, length, lie, encoded, positive⟩ :=
          @takeRun_eq ⟨schema, pages, copy, value :: values, pin⟩ (value :: values) rows
            (ridDecode value).page (max - n) stored
        have some_ : 0 < k := positive (by omega) rfl
        have took : (rows.take k).length = k := by
          rw [List.length_take]
          omega
        obtain ⟨readyGrown, roomGrown, -, sameGrown⟩ := ready.ensure (n + spans.length)
        have room : n + (rows.take k).length ≤ (out.ensure (n + spans.length)).room := by omega
        have decoded := decodeSpans_eq encoded lie readyGrown room
        obtain ⟨readySet, -, filled⟩ := setRows_spec encoded.fits readyGrown room
        have roomSet := filled.room
        rw [took] at roomSet
        obtain ⟨after, pin', rest, readyAfter, filledAfter⟩ :=
          ih ⟨schema, pages, copy, (value :: values).drop k, some (ridDecode value).page⟩
            (n := n + k) (List.forall₂_drop k stored) (by
              dsimp only at enough ⊢
              rw [List.length_drop]
              omega) readySet roomSet
        rw [length] at decoded filled
        have left : max - n = k + (max - (n + k)) := by omega
        have counted : n + k + min (max - (n + k)) (rows.drop k).length =
            n + min (max - n) rows.length := by
          rw [List.length_drop]
          rw [List.length_cons] at count inside
          omega
        refine ⟨after, pin', ?_, readyAfter, ?_⟩
        · unfold fillPinned
          dsimp only at rest taken ⊢
          rw [if_pos more, taken, ok_bind]
          dsimp only
          rw [length] at rest ⊢
          rw [layout, decoded, ok_bind, rest, counted, List.drop_drop, ← left]
        · rw [left, List.take_add]
          rw [length] at sameGrown filledAfter
          refine (filled.congr ⟨sameGrown, out.selected_ensure _⟩).append ?_
          rw [took]
          exact filledAfter
      · have none_ : max - n = 0 := by omega
        refine ⟨out, pin, ?_, ready, ?_⟩
        · unfold fillPinned
          rw [none_, Nat.zero_min, Nat.add_zero, List.drop_zero]
          exact if_neg more
        · rw [none_, List.take_zero]
          exact .nil (.refl out) here

/-- One call: the next rows, `max` of them or all there are. -/
theorem fill_eq (cursor : TableCursor) (max : Nat) {rows : List Row} {out : Batch}
    (stored : List.Forall₂ (Stored cursor.schema cursor.pages) cursor.entries rows)
    (ready : out.Ready (columnTypes cursor.schema)) :
    ∃ after pin, cursor.fill out max = .ok (min max rows.length, after,
        { cursor with entries := cursor.entries.drop max, pin }) ∧
      after.Ready (columnTypes cursor.schema) ∧ after.size = min max rows.length ∧
      Filled out after 0 (rows.take max) := by
  unfold fill
  cases copy : cursor.copy with
  | true =>
    obtain ⟨after, filled, readyAfter, rows_⟩ :=
      fillCopied_eq max stored ready rfl (Nat.zero_le _)
    rw [Nat.sub_zero, Nat.zero_add] at filled
    refine ⟨{ after with size := min max rows.length }, cursor.pin, ?_,
      ⟨readyAfter.types_eq, readyAfter.backs⟩, rfl, ⟨rows_.rows_eq, rows_.selected, rows_.room⟩⟩
    rw [if_pos rfl, filled]
    rfl
  | false =>
    obtain ⟨after, pin, filled, readyAfter, rows_⟩ :=
      fillPinned_eq cursor.entries.length cursor (n := 0) stored (Nat.le_refl _) ready
        (Nat.zero_le _)
    rw [Nat.sub_zero, Nat.zero_add] at filled
    refine ⟨{ after with size := min max rows.length }, pin, ?_,
      ⟨readyAfter.types_eq, readyAfter.backs⟩, rfl, ⟨rows_.rows_eq, rows_.selected, rows_.room⟩⟩
    rw [if_neg Bool.false_ne_true, filled, copy]
    rfl

end TableCursor

/-- The batch once the run is decoded. -/
def Filling.decoded (at_ : Nat) (state : Filling) (pending : List Row) : Batch :=
  setRows (at_ + state.n - state.run.length) pending state.out

private theorem setRows_nil (at_ : Nat) (batch : Batch) : setRows at_ [] batch = batch := by
  have same : batch.cols.zipIdx.map (fun item => setCells item.2 at_ [] item.1) = batch.cols :=
    List.zipIdx_map_fst 0 batch.cols
  rw [setRows, same]

namespace IndexCursor

variable {cursor : IndexCursor} {state : Filling} {pending rows : List Row} {row : Row}
  {key : Key} {value : UInt64} {at_ : Nat}

/-- The entries of the range that are left. -/
def inRange (entries : List (Key × UInt64)) (hi : Key) : List UInt64 :=
  (entries.takeWhile fun entry => entry.1 ≤ hi).map Prod.snd

theorem inRange_cons_of_le {hi : Key} (inside : key ≤ hi) (entries : List (Key × UInt64)) :
    inRange ((key, value) :: entries) hi = value :: inRange entries hi := by
  rw [inRange, List.takeWhile_cons, if_pos (decide_eq_true inside)]
  rfl

theorem inRange_cons_of_lt {hi : Key} (beyond : ¬ key ≤ hi) (entries : List (Key × UInt64)) :
    inRange ((key, value) :: entries) hi = [] := by
  rw [inRange, List.takeWhile_cons, if_neg (by simpa using beyond)]
  rfl

/-- The entries in range after some of them. -/
theorem inRange_drop {hi : Key} {k : Nat} {entries : List (Key × UInt64)}
    (inside : k ≤ (inRange entries hi).length) :
    inRange (entries.drop k) hi = (inRange entries hi).drop k := by
  induction entries generalizing k with
  | nil => rw [List.drop_nil, inRange, List.takeWhile_nil, List.map_nil, List.drop_nil]
  | cons entry entries ih =>
    obtain ⟨key, value⟩ := entry
    cases k with
    | zero => rfl
    | succ k =>
      by_cases below : key ≤ hi
      · rw [inRange_cons_of_le below] at inside ⊢
        exact ih (Nat.le_of_succ_le_succ inside)
      · rw [inRange_cons_of_lt below] at inside
        exact absurd inside (Nat.not_succ_le_zero k)

/-- Between two entries: the rows pending are those of the run, which lies on the pinned page. -/
structure Going (cursor : IndexCursor) (at_ : Nat) (state : Filling) (pending : List Row) :
    Prop where
  looked : state.room = state.out.room
  inside : at_ + state.n ≤ state.room
  ready : state.out.Ready (columnTypes cursor.schema)
  run_le : state.run.length ≤ state.n
  encoded : EncodedAll cursor.schema pending (state.run.map Span.bytes)
  lie : ∀ span ∈ state.run, state.pin = some span.page
  copied : cursor.copy = true → state.run = []

theorem Going.length (going : Going cursor at_ state pending) :
    pending.length = state.run.length := by
  have length := going.encoded.length_eq
  rwa [List.length_map] at length

/-- The run is decoded. -/
theorem Going.decodeTheRun_eq (going : Going cursor at_ state pending) :
    cursor.decodeTheRun at_ state =
        .ok { state with out := state.decoded at_ pending, run := [] } ∧
      (state.decoded at_ pending).Ready (columnTypes cursor.schema) ∧
      (state.decoded at_ pending).room = state.out.room ∧
      Filled state.out (state.decoded at_ pending) (at_ + state.n - state.run.length) pending := by
  have length := going.length
  have run_le := going.run_le
  have inside := going.inside
  have looked := going.looked
  have room : at_ + state.n - state.run.length + pending.length ≤ state.out.room := by omega
  refine ⟨?_, setRows_spec going.encoded.fits going.ready room⟩
  unfold decodeTheRun
  by_cases empty : state.run = []
  · have nothing : pending = [] := List.length_eq_zero_iff.mp (by rw [length, empty]; rfl)
    rw [if_pos empty, Filling.decoded, nothing, setRows_nil, ← empty]
    rfl
  · obtain ⟨span, member⟩ := List.exists_mem_of_ne_nil _ empty
    have pinned := going.lie span member
    have one : ∀ other ∈ state.run, other.page = span.page := fun other here =>
      (Option.some.inj ((going.lie other here).symm.trans pinned))
    rw [if_neg empty, pinned, layout, decodeSpans_eq going.encoded one going.ready room, ok_bind]
    rfl

private theorem Going.room_decoded (going : Going cursor at_ state pending) :
    at_ + state.n ≤ (state.decoded at_ pending).room := by
  obtain ⟨-, -, room, -⟩ := going.decodeTheRun_eq
  rw [room, ← going.looked]
  exact going.inside

/-- The batch is made larger before the next entry is taken. -/
theorem Going.grown (going : Going cursor at_ state pending) :
    ∃ larger, (if at_ + state.n = state.room then
          let grown := state.out.ensure (at_ + state.n + 1)
          { state with out := grown, room := grown.room }
        else state) = { state with out := larger, room := larger.room } ∧
      Going cursor at_ { state with out := larger, room := larger.room } pending ∧
      at_ + state.n < larger.room ∧ Alike state.out larger := by
  obtain ⟨larger, grown, ready, room, same⟩ := grown_spec going.ready going.looked going.inside
  refine ⟨larger, ?_, ⟨rfl, Nat.le_of_lt room, ready, going.run_le, going.encoded, going.lie,
    going.copied⟩, room, same⟩
  by_cases full : at_ + state.n = state.room
  · rw [if_pos full] at grown ⊢
    obtain ⟨rfl, -⟩ := Prod.mk.inj grown
    rfl
  · rw [if_neg full] at grown ⊢
    obtain ⟨rfl, looked⟩ := Prod.mk.inj grown
    rw [← looked]

/-- The page of the next entry is pinned: a run on another page was decoded before. -/
theorem Going.turnTo_eq (going : Going cursor at_ state pending) (page : PageId) :
    ∃ next rest, cursor.turnTo at_ page state = .ok next ∧
      Going cursor at_ next rest ∧ next.n = state.n ∧ next.key = state.key ∧
      next.pin = some page ∧ next.out.room = state.out.room ∧
      Alike (state.decoded at_ pending) (next.decoded at_ rest) := by
  by_cases same : state.pin = some page
  · exact ⟨state, pending, if_pos same, going, rfl, rfl, same, rfl, .refl _⟩
  · obtain ⟨decoded, ready, room, -⟩ := going.decodeTheRun_eq
    refine ⟨{ state with out := state.decoded at_ pending, run := [], pin := some page }, [], ?_,
      ⟨going.looked.trans room.symm, going.inside, ready, Nat.zero_le _, .nil, nofun, fun _ => rfl⟩,
      rfl, rfl, rfl, room, ?_⟩
    · rw [turnTo, if_neg same, decoded]
      rfl
    · rw [Filling.decoded, Filling.decoded, setRows_nil]
      exact .refl _

/-- A larger batch holds the same rows once the run is decoded. -/
theorem Going.decoded_congr {other : Filling} (going : Going cursor at_ state pending)
    (after : Going cursor at_ other pending) (n : other.n = state.n) (run : other.run = state.run)
    (same : Alike state.out other.out) :
    Alike (state.decoded at_ pending) (other.decoded at_ pending) := by
  obtain ⟨-, -, -, filled⟩ := going.decodeTheRun_eq
  obtain ⟨-, -, -, filledOther⟩ := after.decodeTheRun_eq
  refine ⟨fun k => ?_, same.selected⟩
  rw [filled.rows_eq k, filledOther.rows_eq k, n, run, same.rows_eq k]

/-- One entry: the row after those that are there. -/
theorem Going.takeEntry_eq (going : Going cursor at_ state pending)
    (stored : Stored cursor.schema cursor.pages value row) (key : Key) :
    ∃ next rest, cursor.takeEntry at_ key (ridDecode value) state = .ok next ∧
      Going cursor at_ next rest ∧ next.n = state.n + 1 ∧
      Filled (state.decoded at_ pending) (next.decoded at_ rest) (at_ + state.n) [row] := by
  obtain ⟨rec, read, found, fits, encoded, short⟩ := stored.reads
  have keyed : Going cursor at_ { state with key } pending :=
    ⟨going.looked, going.inside, going.ready, going.run_le, going.encoded, going.lie,
      going.copied⟩
  obtain ⟨larger, grown, room, inside, same⟩ := keyed.grown
  have kept := going.decoded_congr room rfl rfl same
  unfold takeEntry
  dsimp only at grown ⊢
  rw [grown]
  cases copy : cursor.copy with
  | true =>
    have empty : state.run = [] := going.copied copy
    have nothing : pending = [] := List.length_eq_zero_iff.mp (by rw [going.length, empty]; rfl)
    subst nothing
    obtain ⟨after, decoded, ready, sameRoom, filled⟩ :=
      copy_spec fits encoded short room.ready inside
    refine ⟨{ state with key, out := after, room := larger.room, n := state.n + 1 }, [], ?_,
      ⟨sameRoom.symm, Nat.succ_le_of_lt inside, ready, ?_, ?_, ?_, fun _ => empty⟩, rfl, ?_⟩
    · rw [if_pos rfl, read, ok_bind, layout, decoded]
      rfl
    · exact Nat.le_succ_of_le going.run_le
    · exact going.encoded
    · exact going.lie
    · rw [Filling.decoded, setRows_nil, Filling.decoded, setRows_nil]
      exact filled.congr same
  | false =>
    obtain ⟨next, rest, turned, going', n, -, pin, roomNext, sameNext⟩ :=
      room.turnTo_eq (ridDecode value).page
    have taken : Going cursor at_ { next with
        run := next.run ++ [⟨(ridDecode value).page, rec⟩], n := next.n + 1 } (rest ++ [row]) := by
      refine ⟨going'.looked, ?_, going'.ready, ?_, ?_, ?_, fun copied => ?_⟩
      · have looked := going'.looked
        dsimp only at n inside roomNext ⊢
        omega
      · rw [List.length_append]
        exact Nat.succ_le_succ going'.run_le
      · rw [List.map_append]
        exact List.rel_append going'.encoded (.cons ⟨fits, encoded, short⟩ .nil)
      · intro span member
        rcases List.mem_append.mp member with earlier | last
        · exact going'.lie span earlier
        · rw [List.mem_singleton.mp last]
          exact pin
      · exact absurd (copy.symm.trans copied) Bool.false_ne_true
    refine ⟨_, rest ++ [row], ?_, taken, congrArg Nat.succ n, ?_⟩
    · rw [if_neg Bool.false_ne_true, turned, ok_bind, pin, found indexMessage, ok_bind]
      rfl
    · obtain ⟨-, -, -, whole⟩ := taken.decodeTheRun_eq
      obtain ⟨-, -, -, first⟩ := going'.decodeTheRun_eq
      have length := going'.length
      have run_le := going'.run_le
      have start : at_ + (next.n + 1) - (next.run ++ [Span.mk (ridDecode value).page rec]).length =
          at_ + next.n - next.run.length := by
        rw [List.length_append, List.length_singleton]
        omega
      dsimp only at whole n
      rw [start] at whole
      have last := (whole.rest first).congr (kept.trans sameNext)
      have place : at_ + next.n - next.run.length + rest.length = at_ + state.n := by omega
      rwa [place] at last

/-- The loop: as many of the rows in range as the budget has left. -/
theorem Going.fillEntries_eq (max : Nat) {entries : List (Key × UInt64)}
    (going : Going cursor at_ state pending)
    (stored : List.Forall₂ (Stored cursor.schema cursor.pages) (inRange entries cursor.hi) rows) :
    ∃ next rest, cursor.fillEntries at_ max entries state =
        .ok (next, entries.drop (min (max - state.n) rows.length)) ∧
      Going cursor at_ next rest ∧ next.n = state.n + min (max - state.n) rows.length ∧
      Filled (state.decoded at_ pending) (next.decoded at_ rest) (at_ + state.n)
        (rows.take (max - state.n)) := by
  induction entries generalizing state pending rows with
  | nil =>
    cases stored
    refine ⟨state, pending, ?_, going, ?_, ?_⟩
    · rw [List.drop_nil]
      rfl
    · rw [List.length_nil, Nat.min_zero, Nat.add_zero]
    · rw [List.take_nil]
      exact .nil (.refl _) going.room_decoded
  | cons entry entries ih =>
    obtain ⟨key, value⟩ := entry
    by_cases goes : state.n < max ∧ key ≤ cursor.hi
    · obtain ⟨more, inside⟩ := goes
      rw [inRange_cons_of_le inside] at stored
      cases stored with
      | @cons _ row _ rows first others =>
        obtain ⟨next, rest, taken, going', n, filled⟩ := going.takeEntry_eq first key
        obtain ⟨last, lastRest, looped, goingLast, count, filledLast⟩ := ih going' others
        have left : max - state.n = max - next.n + 1 := by omega
        have counted : min (max - state.n) (row :: rows).length =
            min (max - next.n) rows.length + 1 := by
          rw [List.length_cons]
          omega
        refine ⟨last, lastRest, ?_, goingLast, ?_, ?_⟩
        · unfold fillEntries
          rw [if_pos ⟨more, inside⟩, taken, ok_bind, looped, counted, List.drop_succ_cons]
        · rw [count, counted, n]
          omega
        · rw [left, List.take_succ_cons]
          rw [n] at filledLast ⊢
          exact filled.append filledLast
    · have none_ : min (max - state.n) rows.length = 0 ∧ rows.take (max - state.n) = [] := by
        by_cases more : state.n < max
        · have beyond : ¬ key ≤ cursor.hi := fun inside => goes ⟨more, inside⟩
          rw [inRange_cons_of_lt beyond] at stored
          cases stored
          exact ⟨Nat.min_zero _, List.take_nil⟩
        · rw [show max - state.n = 0 by omega]
          exact ⟨Nat.zero_min _, List.take_zero⟩
      refine ⟨state, pending, ?_, going, ?_, ?_⟩
      · rw [none_.1]
        exact if_neg goes
      · rw [none_.1, Nat.add_zero]
      · rw [none_.2]
        exact .nil (.refl _) going.room_decoded

/-- One call: the next rows in range, from row `at_` of the batch on. -/
theorem fill_eq (cursor : IndexCursor) (at_ max : Nat) {out : Batch}
    {entries : List (Key × UInt64)} (here : cursor.cur = some entries)
    (stored : List.Forall₂ (Stored cursor.schema cursor.pages) (inRange entries cursor.hi) rows)
    (ready : out.Ready (columnTypes cursor.schema)) (inside : at_ ≤ out.room) :
    ∃ after key pin, cursor.fill out at_ max = .ok (min max rows.length, after,
        { cursor with cur := some (entries.drop (min max rows.length)), key, pin }) ∧
      after.Ready (columnTypes cursor.schema) ∧ after.size = at_ + min max rows.length ∧
      Filled out after at_ (rows.take max) := by
  have going : Going cursor at_
      { room := out.room, out, pin := cursor.pin, key := cursor.key } [] :=
    ⟨rfl, inside, ready, Nat.zero_le _, .nil, nofun, fun _ => rfl⟩
  obtain ⟨next, rest, looped, goingNext, n, filled⟩ := going.fillEntries_eq max stored
  obtain ⟨decoded, readyNext, -, -⟩ := goingNext.decodeTheRun_eq
  rw [Filling.decoded, setRows_nil] at filled
  rw [Nat.sub_zero] at looped n filled
  rw [Nat.zero_add] at n
  refine ⟨{ next.decoded at_ rest with size := at_ + min max rows.length }, next.key, next.pin, ?_,
    ⟨readyNext.types_eq, readyNext.backs⟩, rfl, ⟨filled.rows_eq, filled.selected, filled.room⟩⟩
  unfold fill
  rw [here]
  dsimp only
  rw [looped, ok_bind]
  dsimp only
  rw [decoded, ok_bind, n]
  rfl

end IndexCursor

end Labdb.Catalog
