import Labdb.Engine.Backfill

/-! What is read of a table on the disk: a row by its key, rows one after another by a cursor of the
table or of an index, how many entries an index has in a range, and what its ends are. -/

namespace Labdb.Engine

open Labdb.BTree Labdb.Catalog Labdb.Data Labdb.Heap Labdb.Program Labdb.Query Labdb.Record

section Programs

variable (copy : Bool) (table : Text) (column : Nat)

/-- `Catalog::desc_of`. -/
def descOf : DiskM RawDesc := do
  let (_, _, d) ← slotOf table (bytes "no such table")
  pure d

/-- The record at an address: of a copy of its page, or where it lies. -/
def recordAt (message : Text) (rid : RID) : DiskM (List UInt8) :=
  if copy then heapGet rid
  else do
    let pg ← readPage rid.page.toNat
    present message (pg.read rid.slot.toNat)

/-- `Catalog::get_by_key`, with `copy` for `copy_pages_`. -/
def getByKey (key : Key) : DiskM (Option Row) := do
  let d ← descOf table
  match ← onTree d.btreeRoot.toNat nobody (search true (tableKey key.toInt64)) with
  | none => pure none
  | some value => do
    let rec ← recordAt copy (bytes "get_by_key: no live record at this RID") (ridDecode value)
    let row ← checked (decode d.schema rec)
    pure (some row)

/-- `TableCursor`, or `IndexCursor`, which has the last key of its range too: a cursor of the tree at
the root, once it was put at an entry. -/
structure RowCursor where
  schema : Schema
  root : PageNo
  unique : Bool
  copy : Bool
  message : Text
  cur : Option Cursor := none
  hi : Option Key := none
  key : Key := 0

namespace RowCursor

variable (c : RowCursor)

/-- The row of an entry, in the place of one that was read before. -/
def fetch (rid : RID) (out : Row) : DiskM Row := do
  let rec ← recordAt c.copy c.message rid
  checked (if c.copy then decode c.schema rec else decodeInto (.ofSchema c.schema) rec out)

/-- The entry that a cursor is at, if it is in range. -/
def entry : Option (Cursor × Key × Value) :=
  match c.cur with
  | none => none
  | some cur =>
    match cur.current with
    | none => none
    | some (key, value) => if c.hi.any (· < key) then none else some (cur, key, value)

def next (out : Row) : DiskM (Option Row × RowCursor) :=
  match c.entry with
  | none => pure (none, c)
  | some (cur, key, value) => do
    let row ← c.fetch (ridDecode value) out
    let cur ← onTree c.root nobody cur.next
    pure (some row, { c with cur := some cur, key })

/-- `IndexCursor::seek`. -/
def seek (lo hi : Key) : DiskM RowCursor := do
  let cur ← onTree c.root nobody (BTree.seek c.unique lo)
  pure { c with cur := some cur, hi := some hi }

/-- `IndexCursor::max_key`. -/
def maxKey : DiskM (Option Key) := do
  let cur ← onTree c.root nobody BTree.last
  pure (cur.current.map Prod.fst)

/-- The rows that a cursor hands out until it has none left, in that many calls at most. -/
def rows : Nat → RowCursor → Row → DiskM (List Row)
  | 0, _, _ => throw .outside
  | rounds + 1, c, out => do
    match ← c.next out with
    | (none, _) => pure []
    | (some row, c) => do
      let rest ← rows rounds c row
      pure (row :: rest)

end RowCursor

/-- More calls than a cursor can have rows. -/
def scanRounds : DiskM Nat := do
  let s ← get
  pure (s.used.length * kLeafMaxEntries + 1)

/-- All that a cursor hands out. -/
def readAll (opened : DiskM RowCursor) : DiskM (List Row) := do
  let c ← opened
  let rounds ← scanRounds
  c.rows rounds []

/-- `Catalog::open_cursor`. -/
def openCursor : DiskM RowCursor := do
  let d ← descOf table
  let cur ← onTree d.btreeRoot.toNat nobody (seek true 0)
  pure
    { schema := d.schema
      root := d.btreeRoot.toNat
      unique := true
      copy
      message := scanMessage
      cur := some cur }

/-- `Catalog::scan_table`, with the rows visited: the loop of a cursor that copies pages. -/
def scanTable : DiskM (List Row) := readAll (openCursor true table)

/-- `Catalog::index_root`. -/
def indexRoot (d : RawDesc) : PageId :=
  if column = 0 then d.btreeRoot else d.indexRoots.getD column kNullPage

/-- How the calls on an index begin: the table's description, and the root. -/
def indexOf : DiskM (RawDesc × PageNo) := do
  let d ← descOf table
  let root := indexRoot column d
  checked (checkThat (root ≠ kNullPage) (bytes "no index on this column"))
  pure (d, root.toNat)

/-- `Catalog::open_index`. -/
def openIndex : DiskM RowCursor := do
  let (d, root) ← indexOf table column
  pure { schema := d.schema, root, unique := column = 0, copy, message := indexMessage }

/-- An index opened for a range. -/
def openRange (lo hi : Key) : DiskM RowCursor := do
  let c ← openIndex copy table column
  c.seek lo hi

/-- The loop of `count_index`. -/
def countEntries (root : PageNo) (hi : Key) (cap : Nat) : Nat → Cursor → Nat → DiskM Nat
  | 0, _, _ => throw .outside
  | rounds + 1, c, n =>
    match c.current with
    | none => pure n
    | some (key, _) =>
      if key ≤ hi ∧ n < cap then do
        let c ← onTree root nobody c.next
        countEntries root hi cap rounds c (n + 1)
      else pure n

/-- `Catalog::count_index`. -/
def countIndex (lo hi : Key) (cap : Nat) : DiskM Nat := do
  let (_, root) ← indexOf table column
  let c ← onTree root nobody (seek (decide (column = 0)) lo)
  let rounds ← scanRounds
  countEntries root hi cap rounds c 0

/-- `Catalog::index_bounds`: the first key and the last. -/
def indexBounds : DiskM (Option (Key × Key)) := do
  let (_, root) ← indexOf table column
  let first ← onTree root nobody (seek (decide (column = 0)) 0)
  let last ← onTree root nobody last
  match first.current, last.current with
  | none, _ => pure none
  | some (lo, _), some (hi, _) => pure (some (lo, hi))
  | some _, none => throw .outside

end Programs

variable {d : Disk} {schema : Schema} {desc : RawDesc} {g : Estate} {c : RowCursor} {cur : Cursor}
  {out row : Row} {e : (Key × Value) × Row} {todo : List ((Key × Value) × Row)}

/-- A row with nothing in its fields but their values. -/
def plainRow (row : Row) : Row := row.map Field.plain

section Cursors

/-- An entry at whose address the record of the row lies. -/
def Filed (d : Disk) (schema : Schema) (entry : Key × Value) (row : Row) : Prop :=
  Fileable schema row ∧ (d.records (ridDecode entry.2).page.toNat).read
    (ridDecode entry.2).slot.toNat = some (recordOf schema row)

theorem Filed.recordAt {entry : Key × Value} (filed : Filed d schema entry row) (copy : Bool)
    (message : Text) :
    (recordAt copy message (ridDecode entry.2)).runOn d = (.ok (recordOf schema row), d) := by
  have looked := filed.2
  cases copy with
  | true =>
    change (heapGet (ridDecode entry.2)).runOn d = _
    unfold heapGet
    rw [Stateful.runOn_bind_ok (runOn_readPage _ d), looked]
    rfl
  | false =>
    change (readPage (ridDecode entry.2).page.toNat >>= fun pg =>
      present message (pg.read (ridDecode entry.2).slot.toNat) : DiskM _).runOn d = _
    rw [Stateful.runOn_bind_ok (runOn_readPage _ d), looked]
    rfl

/-- A row is read as it was filed, whichever way its record is reached. -/
theorem Filed.fetch {entry : Key × Value} (filed : Filed d c.schema entry row) (out : Row) :
    ∃ got, (c.fetch (ridDecode entry.2) out).runOn d = (.ok got, d) ∧ plainRow got = plainRow row := by
  obtain ⟨fits, -, encodes, -, short⟩ := filed.1
  have encoded := encoded_of_encode fits encodes
  unfold RowCursor.fetch
  rw [Stateful.runOn_bind_ok (filed.recordAt c.copy c.message)]
  cases c.copy with
  | true =>
    refine ⟨plainRow row, runOn_checked_ok (encoded.decode_eq short fits) d, ?_⟩
    unfold plainRow
    rw [List.map_map]
    exact List.map_congr_left fun field _ => field.plain_plain
  | false =>
    obtain ⟨got, decoded, same⟩ := encoded.decodeInto_eq short fits out
    exact ⟨got, runOn_checked_ok decoded d, same⟩

/-- A cursor that has those entries ahead of it, each with its row. -/
structure Facing (d : Disk) (c : RowCursor) (todo : List ((Key × Value) × Row)) : Prop where
  reads : ∃ cur, c.cur = some cur ∧ Reads (d.view c.root) cur (todo.map Prod.fst)
  filed : ∀ e ∈ todo, Filed d c.schema e.1 e.2

/-- Whether a key is in range. -/
def RowCursor.within (c : RowCursor) (key : Key) : Bool := !c.hi.any (· < key)

private theorem RowCursor.within_mono (c : RowCursor) {key key' : Key} (before : key ≤ key')
    (inside : c.within key' = true) : c.within key = true := by
  unfold within at inside ⊢
  cases isHi : c.hi with
  | none => rfl
  | some hi =>
    rw [isHi] at inside
    simp only [Option.any_some, Bool.not_eq_true', decide_eq_false_iff_not] at inside ⊢
    exact fun past => inside (UInt64.lt_of_lt_of_le past before)

theorem Facing.ends (facing : Facing d c todo) (past : ∀ e ∈ todo.head?, c.within e.1.1 = false)
    (out : Row) : (c.next out).runOn d = (.ok (none, c), d) := by
  obtain ⟨cur, isCur, reads⟩ := facing.reads
  have current := reads.current
  have nothing : c.entry = none := by
    unfold RowCursor.entry
    rw [isCur]
    dsimp only
    rw [current]
    cases todo with
    | nil => rfl
    | cons e rest =>
      have beyond := past e rfl
      unfold RowCursor.within at beyond
      rw [Bool.not_eq_false'] at beyond
      exact if_pos beyond
  unfold RowCursor.next
  rw [nothing]
  rfl

theorem Facing.next (facing : Facing d c (e :: todo)) (inside : c.within e.1.1 = true) (out : Row) :
    ∃ got c', (c.next out).runOn d = (.ok (some got, c'), d) ∧ plainRow got = plainRow e.2 ∧
      Facing d c' todo ∧ c'.hi = c.hi ∧ c'.key = e.1.1 := by
  obtain ⟨cur, isCur, reads⟩ := facing.reads
  have current := reads.current
  have here : c.entry = some (cur, e.1) := by
    unfold RowCursor.entry
    rw [isCur]
    dsimp only
    rw [current]
    unfold RowCursor.within at inside
    rw [Bool.not_eq_true'] at inside
    exact if_neg (Bool.eq_false_iff.mp inside)
  obtain ⟨got, fetched, same⟩ := (facing.filed e List.mem_cons_self).fetch out
  obtain ⟨cur', moved, reads'⟩ := reads.next
  have stepped : (onTree c.root nobody cur.next).runOn d = (.ok cur', d) := runOn_onTree_read moved
  refine ⟨got, { c with cur := some cur', key := e.1.1 }, ?_, same, ⟨⟨cur', rfl, reads'⟩, ?_⟩, rfl, rfl⟩
  · unfold RowCursor.next
    rw [here]
    dsimp only
    rw [Stateful.runOn_bind_ok fetched, Stateful.runOn_bind_ok stepped]
    rfl
  · exact fun other member => facing.filed other (List.mem_cons_of_mem _ member)

/-- The rows that a cursor hands out are those ahead of it up to the end of its range. -/
theorem Facing.rows {rounds : Nat} (facing : Facing d c todo) (enough : todo.length < rounds)
    (out : Row) :
    ∃ got, (RowCursor.rows rounds c out).runOn d = (.ok got, d) ∧
      got.map plainRow = (todo.takeWhile fun e => c.within e.1.1).map fun e => plainRow e.2 := by
  induction todo generalizing c rounds out with
  | nil =>
    obtain ⟨rounds, rfl⟩ := Nat.exists_eq_succ_of_ne_zero (Nat.ne_of_gt enough)
    have done := facing.ends (fun e none_ => by cases none_) out
    refine ⟨[], ?_, rfl⟩
    unfold RowCursor.rows
    rw [Stateful.runOn_bind_ok done]
    rfl
  | cons e todo ih =>
    obtain ⟨rounds, rfl⟩ := Nat.exists_eq_succ_of_ne_zero
      (Nat.ne_of_gt (Nat.zero_lt_of_lt enough))
    unfold RowCursor.rows
    cases inside : c.within e.1.1 with
    | false =>
      have done := facing.ends (fun other isHead => by cases isHead; exact inside) out
      refine ⟨[], ?_, ?_⟩
      · rw [Stateful.runOn_bind_ok done]
        rfl
      · rw [List.takeWhile_cons, inside]
        rfl
    | true =>
      obtain ⟨got, c', stepped, same, facing', hi, -⟩ := facing.next inside out
      obtain ⟨rest, ran, others⟩ := ih facing' (Nat.lt_of_succ_lt_succ enough) got
      refine ⟨got :: rest, ?_, ?_⟩
      · rw [Stateful.runOn_bind_ok stepped]
        dsimp only
        rw [Stateful.runOn_bind_ok ran]
        rfl
      · have range : c'.within = c.within := by
          funext key
          unfold RowCursor.within
          rw [hi]
        rw [range] at others
        rw [List.takeWhile_cons, inside, if_pos rfl, List.map_cons, List.map_cons, same, others]

end Cursors

section Shelves

variable {unique : Bool} {root : PageNo} {entry : RID × Row → Key × Value}
  {rows sorted : List (RID × Row)} {lo : Key}

/-- The head of a list up to where a predicate fails is all of it that satisfies the predicate, where
no later item does after one that fails. -/
theorem takeWhile_sorted {α : Type} {p : α → Bool} {items : List α}
    (falls : items.Pairwise fun a b => p b = true → p a = true) : items.takeWhile p = items.filter p := by
  induction falls with
  | nil => rfl
  | @cons a items behind _ ih =>
    cases holds : p a with
    | true => rw [List.takeWhile_cons, List.filter_cons, holds, if_pos rfl, if_pos rfl, ih]
    | false =>
      rw [List.takeWhile_cons, List.filter_cons, holds, if_neg Bool.false_ne_true,
        if_neg Bool.false_ne_true]
      refine (List.filter_eq_nil_iff.mpr fun b member later => ?_).symm
      rw [behind b member later] at holds
      cases holds

/-- The tree at the root holds the entries of those rows, in their order. -/
def Shelved (d : Disk) (unique : Bool) (root : PageNo) (entry : RID × Row → Key × Value)
    (sorted : List (RID × Row)) : Prop :=
  ∃ h : Nat, ∃ t : BTree.Tree h, Tenant unique (d.view root) t ∧ entriesOf t.items = sorted.map entry

theorem Shelved.few (shelved : Shelved d unique root entry sorted) :
    sorted.length ≤ d.used.length * kLeafMaxEntries := by
  obtain ⟨h, t, tenant, entries⟩ := shelved
  have few := tenant.few
  rw [entries, List.length_map] at few
  exact few

theorem Shelved.ascending (shelved : Shelved d unique root entry sorted) :
    sorted.Pairwise fun a b => (entry a).1 ≤ (entry b).1 := by
  obtain ⟨h, t, tenant, entries⟩ := shelved
  have inOrder := tenant.inOrder.entries
  rw [entries, List.pairwise_map] at inOrder
  refine inOrder.imp fun before => ?_
  cases unique with
  | true =>
    have strict : (entry _).1 < (entry _).1 := before
    exact UInt64.le_of_lt strict
  | false => exact before

/-- From `lo` on, the entries ahead up to the end of a range are all of those in it. -/
theorem Shelved.upTo (shelved : Shelved d unique root entry sorted) {inside : Key → Bool}
    (falls : ∀ key key', key ≤ key' → inside key' = true → inside key = true) (lo : Key) :
    (sorted.filter fun e => decide (lo ≤ (entry e).1)).takeWhile (fun e => inside (entry e).1) =
      sorted.filter fun e => decide (lo ≤ (entry e).1) && inside (entry e).1 := by
  rw [takeWhile_sorted ((shelved.ascending.filter _).imp fun before => falls _ _ before),
    List.filter_filter]
  exact List.filter_congr fun e _ => Bool.and_comm _ _

/-- A cursor that was put before the first entry from `lo` on. -/
theorem Shelved.seek (shelved : Shelved d unique root entry sorted) (lo : Key)
    (filed : ∀ e ∈ sorted, Filed d schema (entry e) e.2) :
    ∃ cur, (onTree root nobody (BTree.seek unique lo)).runOn d = (.ok cur, d) ∧
      ∀ c : RowCursor, c.schema = schema → c.root = root → c.cur = some cur →
        Facing d c ((sorted.filter fun e => lo ≤ (entry e).1).map fun e => (entry e, e.2)) := by
  obtain ⟨h, t, tenant, entries⟩ := shelved
  obtain ⟨cur, sought, reads⟩ := tenant.seek lo
  rw [entries, List.filter_map] at reads
  refine ⟨cur, runOn_onTree_read sought, fun c isSchema isRoot isCur => ⟨⟨cur, isCur, ?_⟩, ?_⟩⟩
  · rw [isRoot, List.map_map]
    exact reads
  · intro e member
    obtain ⟨e', inRange, rfl⟩ := List.mem_map.mp member
    rw [isSchema]
    exact filed e' (List.mem_filter.mp inRange).1

/-- What such a cursor hands out. -/
theorem Shelved.handsOut (shelved : Shelved d unique root entry sorted)
    (facing : Facing d c ((sorted.filter fun e => lo ≤ (entry e).1).map fun e => (entry e, e.2))) :
    ∃ got, (readAll (pure c)).runOn d = (.ok got, d) ∧
      got.map plainRow = (sorted.filter fun e => decide (lo ≤ (entry e).1) && c.within (entry e).1).map
        fun e => plainRow e.2 := by
  have few := shelved.few
  have length := List.length_filter_le (fun e => decide (lo ≤ (entry e).1)) sorted
  have rounds : scanRounds.runOn d = (.ok (d.used.length * kLeafMaxEntries + 1), d) := rfl
  obtain ⟨got, ran, rows⟩ := @Facing.rows d c _ (d.used.length * kLeafMaxEntries + 1) facing
    (by rw [List.length_map]; exact Nat.lt_succ_of_le (length.trans few)) []
  have opened : (pure c : DiskM RowCursor).runOn d = (.ok c, d) := rfl
  have read : (readAll (pure c)).runOn d = (.ok got, d) := by
    unfold readAll
    rw [Stateful.runOn_bind_ok opened, Stateful.runOn_bind_ok rounds]
    exact ran
  refine ⟨got, read, rows.trans ?_⟩
  have range := shelved.upTo (fun _ _ before => c.within_mono before) lo
  rw [List.takeWhile_map, List.map_map]
  exact congrArg (List.map fun e => plainRow e.2) range

end Shelves

end Labdb.Engine
