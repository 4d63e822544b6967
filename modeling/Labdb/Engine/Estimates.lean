import Labdb.Engine.Shown

/-! What the planner asks of an index to estimate by: the entries in a range, counted, and its ends. -/

namespace Labdb.Engine

open Labdb.BTree Labdb.Catalog Labdb.Data Labdb.Heap Labdb.Program Labdb.Query Labdb.Record

variable {d : Disk} {home root : PageNo} {db : List Relation} {desc : RawDesc} {t : Relation}
  {column slot : Nat} {sorted : List (RID × Row)} {tables : List RawDesc} {c : Cursor}
  {todo : List (Key × Value)} {hi : Key}

section Counting

/-- The loop counts the entries ahead of it up to the end of the range, as far as the cap. -/
theorem countEntries_spec {cap n rounds : Nat} (reads : Reads (d.view root) c todo)
    (enough : todo.length < rounds) (within : n ≤ cap) :
    (countEntries root hi cap rounds c n).runOn d =
      (.ok (min (n + (todo.takeWhile fun e => e.1 ≤ hi).length) cap), d) := by
  induction todo generalizing c n rounds with
  | nil =>
    obtain ⟨rounds, rfl⟩ := Nat.exists_eq_succ_of_ne_zero (Nat.ne_of_gt enough)
    have current : c.current = none := reads.current
    unfold countEntries
    rw [current]
    exact congrArg (fun n => (Except.ok n, d)) (Nat.min_eq_left within).symm
  | cons e todo ih =>
    obtain ⟨rounds, rfl⟩ := Nat.exists_eq_succ_of_ne_zero
      (Nat.ne_of_gt (Nat.zero_lt_of_lt enough))
    have current : c.current = some e := reads.current
    unfold countEntries
    rw [current]
    dsimp only
    by_cases inRange : e.1 ≤ hi
    · rw [List.takeWhile_cons, if_pos (decide_eq_true inRange), List.length_cons]
      by_cases room : n < cap
      · obtain ⟨c', moved, reads'⟩ := reads.next
        have stepped : (onTree root nobody c.next).runOn d = (.ok c', d) := runOn_onTree_read moved
        rw [if_pos ⟨inRange, room⟩, Stateful.runOn_bind_ok stepped,
          ih reads' (Nat.lt_of_succ_lt_succ enough) room, Nat.succ_add_eq_add_succ]
      · have full : n = cap := Nat.le_antisymm within (Nat.le_of_not_lt room)
        rw [if_neg (fun both : e.1 ≤ hi ∧ n < cap => room both.2), full,
          Nat.min_eq_right (Nat.le_add_right _ _)]
        rfl
    · rw [List.takeWhile_cons, if_neg (mt of_decide_eq_true inRange),
        if_neg (fun both : e.1 ≤ hi ∧ n < cap => inRange both.1),
        List.length_nil, Nat.add_zero, Nat.min_eq_left within]
      rfl

variable
  (shelved : Shelved d (decide (column = 0)) (indexRoot column desc).toNat (columnEntry column)
    sorted)
  (listed : Listed d.catalog tables slot desc) (real : indexRoot column desc ≠ kNullPage)

include shelved listed real

/-- The count of a range is that of the entries in it, or the cap. -/
theorem Shelved.counted (lo hi : Key) (cap : Nat) :
    (countIndex desc.name column lo hi cap).runOn d =
      (.ok (min (sorted.filter fun e => decide (lo ≤ (columnEntry column e).1) &&
        decide ((columnEntry column e).1 ≤ hi)).length cap), d) := by
  have few := shelved.few
  have falls : ∀ key key' : Key, key ≤ key' → decide (key' ≤ hi) = true → decide (key ≤ hi) = true :=
    fun key key' before inside =>
      decide_eq_true (UInt64.le_trans before (of_decide_eq_true inside))
  have range := shelved.upTo falls lo
  obtain ⟨h, t, tenant, entries⟩ := shelved
  obtain ⟨cur, sought, reads⟩ := tenant.seek lo
  rw [entries, List.filter_map] at reads
  have opened : (onTree (indexRoot column desc).toNat nobody
      (BTree.seek (decide (column = 0)) lo)).runOn d = (.ok cur, d) := runOn_onTree_read sought
  have rounds : scanRounds.runOn d = (.ok (d.used.length * kLeafMaxEntries + 1), d) := rfl
  unfold countIndex
  rw [Stateful.runOn_bind_ok (listed.runOn_indexOf real)]
  dsimp only
  rw [Stateful.runOn_bind_ok opened, Stateful.runOn_bind_ok rounds,
    countEntries_spec reads ?_ (Nat.zero_le _)]
  · rw [List.takeWhile_map, List.length_map, Nat.zero_add]
    exact congrArg (fun rows : List (RID × Row) => (Except.ok (min rows.length cap), d)) range
  · rw [List.length_map]
    exact Nat.lt_succ_of_le ((List.length_filter_le _ _).trans few)

/-- The ends of an index: its first key and its last. -/
theorem Shelved.bounds :
    ∃ bounds, (indexBounds desc.name column).runOn d = (.ok bounds, d) ∧
      (bounds = none ↔ sorted = []) ∧ ∀ lo hi, bounds = some (lo, hi) →
        (∃ e ∈ sorted, (columnEntry column e).1 = lo) ∧
        (∃ e ∈ sorted, (columnEntry column e).1 = hi) ∧
        ∀ e ∈ sorted, lo ≤ (columnEntry column e).1 ∧ (columnEntry column e).1 ≤ hi := by
  have ascending := shelved.ascending
  obtain ⟨h, t, tenant, entries⟩ := shelved
  obtain ⟨first, sought, reads⟩ := tenant.seek 0
  obtain ⟨last, ended, readsLast⟩ := tenant.last
  have every : (entriesOf t.items).filter (fun e => decide ((0 : Key) ≤ e.1)) = entriesOf t.items :=
    List.filter_eq_self.mpr fun e _ => decide_eq_true UInt64.zero_le
  have opened : (onTree (indexRoot column desc).toNat nobody
      (BTree.seek (decide (column = 0)) 0)).runOn d = (.ok first, d) := runOn_onTree_read sought
  have closed : (onTree (indexRoot column desc).toNat nobody BTree.last).runOn d = (.ok last, d) :=
    runOn_onTree_read ended
  have isFirst := reads.current
  have isLast := readsLast.current
  rw [every, entries] at isFirst
  rw [entries] at isLast
  unfold indexBounds
  rw [Stateful.runOn_bind_ok (listed.runOn_indexOf real)]
  dsimp only
  rw [Stateful.runOn_bind_ok opened, Stateful.runOn_bind_ok closed, isFirst, isLast]
  cases sorted with
  | nil =>
    exact ⟨none, rfl, Iff.intro (fun _ => rfl) fun _ => rfl, fun lo hi never => by cases never⟩
  | cons e rest =>
    obtain ⟨front, z, split⟩ : ∃ front z, e :: rest = front ++ [z] :=
      ⟨_, _, (List.dropLast_append_getLast (List.cons_ne_nil e rest)).symm⟩
    have lastIs : ((e :: rest).map (columnEntry column)).getLast?.toList.head? =
        some (columnEntry column z) := by
      rw [split, List.map_append, List.map_singleton, List.getLast?_concat]
      rfl
    rw [lastIs]
    refine ⟨some ((columnEntry column e).1, (columnEntry column z).1), rfl,
      Iff.intro (fun never => by cases never) (fun never => by cases never), fun lo hi same => ?_⟩
    cases same
    have isLast : z ∈ e :: rest := split ▸ List.mem_append_right front (List.mem_singleton_self z)
    refine ⟨⟨e, List.mem_cons_self, rfl⟩, ⟨z, isLast, rfl⟩, fun x member => ⟨?_, ?_⟩⟩
    · obtain rfl | later := List.mem_cons.mp member
      · exact UInt64.le_refl _
      · exact (List.pairwise_cons.mp ascending).1 x later
    · rw [split] at ascending member
      obtain ⟨-, -, across⟩ := List.pairwise_append.mp ascending
      obtain inFront | isZ := List.mem_append.mp member
      · exact across x inFront z (List.mem_singleton_self z)
      · obtain rfl := List.mem_singleton.mp isZ
        exact UInt64.le_refl _

end Counting

section Estimates

/-- Over an indexed column the numbers are those of the table's rows, and the ends are the least of
their keys and the greatest, as long as the rows are too few for an index to lose its order. -/
theorem estimates_exact (represents : Represents home d db) (member : t ∈ db)
    (few : t.rows.length ≤ kTieFreeEntries)
    (isIndexed : (flags t.schema t.indexed).getD column false = true) :
    (∀ lo hi cap, (countIndex t.name column lo hi cap).runOn d =
      (.ok (min ((t.rows.map plainRow).countP (IndexWalk.between column lo hi)) cap), d)) ∧
    ∃ bounds, (indexBounds t.name column).runOn d = (.ok bounds, d) ∧
      (bounds = none ↔ ∀ row ∈ t.rows, (Row.at row column).isNull = true) ∧
      ∀ lo hi, bounds = some (lo, hi) →
        (∃ row ∈ t.rows, (Row.at row column).isNull = false ∧ orderKey (Row.at row column) = lo) ∧
        (∃ row ∈ t.rows, (Row.at row column).isNull = false ∧ orderKey (Row.at row column) = hi) ∧
        ∀ row ∈ t.rows, (Row.at row column).isNull = false →
          lo ≤ orderKey (Row.at row column) ∧ orderKey (Row.at row column) ≤ hi := by
  obtain ⟨stores, slot, desc, h, consistent, here, rfl⟩ := represents.stored member
  have listed := consistent.listed here
  have held := consistent.held _ (List.mem_of_getElem? here)
  rw [length_depicted] at few
  obtain ⟨order, real, perm, walk⟩ := held.shelf few isIndexed
  have placed : ∀ e, e ∈ order ↔ e ∈ h.rows ∧ (Row.at e.2 column).isNull = false := by
    intro e
    rw [perm.mem_iff, known, List.mem_filter, decide_eq_true_iff]
  have rows : (depicted (desc, h)).rows = h.rows.map Prod.snd := rfl
  constructor
  · intro lo hi cap
    have counted := walk.counted listed real lo hi cap
    have length := (@perm_between _ _ lo hi order perm).length_eq.trans
      List.countP_eq_length_filter.symm
    rw [List.length_map] at length
    rw [length] at counted
    rw [plain_depicted]
    exact counted
  · obtain ⟨bounds, ran, empty, ends⟩ := walk.bounds listed real
    refine ⟨bounds, ran, ?_, fun lo hi isEnds => ?_⟩
    · rw [empty, List.eq_nil_iff_forall_not_mem, rows, List.forall_mem_map]
      refine forall_congr' fun e => ?_
      rw [placed, not_and, Bool.not_eq_false]
    · obtain ⟨⟨e, isE, isLo⟩, ⟨z, isZ, isHi⟩, between⟩ := ends lo hi isEnds
      obtain ⟨inRows, known⟩ := (placed e).mp isE
      obtain ⟨inRows', known'⟩ := (placed z).mp isZ
      refine ⟨⟨e.2, List.mem_map_of_mem inRows, known, isLo⟩,
        ⟨z.2, List.mem_map_of_mem inRows', known', isHi⟩, fun row isRow isKnown => ?_⟩
      obtain ⟨x, inRows, rfl⟩ := List.mem_map.mp isRow
      exact between x ((placed x).mpr ⟨inRows, isKnown⟩)

/-- Of the five members three have names from A to F, which is more than the cap; the ends are the
keys of the names that come first and last. -/
theorem estimates_exact_members :
    let d := founded callsAbove (fresh 1)
    let key := fun name => orderKey (.ofText (bytes name))
    (countIndex (bytes "members") 1 (key "A") (key "F") 5).runOn d = (.ok 3, d) ∧
      (countIndex (bytes "members") 1 (key "A") (key "F") 2).runOn d = (.ok 2, d) ∧
      (indexBounds (bytes "members") 1).runOn d = (.ok (some (key "Ada", key "Zoe")), d) := by
  intro d key
  obtain ⟨counts, bounds, ran, empty, ends⟩ :=
    @estimates_exact _ _ _ members 1 represents_founded mem_founded (by decide) (by decide)
  have inRange : (members.rows.map plainRow).countP
      (IndexWalk.between 1 (key "A") (key "F")) = 3 := by decide
  have below := counts (key "A") (key "F") 5
  have cut := counts (key "A") (key "F") 2
  rw [inRange] at below cut
  refine ⟨below, cut, ?_⟩
  cases bounds with
  | none =>
    have known : ¬ ∀ row ∈ members.rows, (Row.at row 1).isNull = true := by decide
    exact absurd (empty.mp rfl) known
  | some pair =>
    obtain ⟨⟨row, isRow, known, isLo⟩, ⟨row', isRow', known', isHi⟩, between⟩ := ends _ _ rfl
    have least : ∀ row ∈ members.rows, (Row.at row 1).isNull = false →
        key "Ada" ≤ orderKey (Row.at row 1) ∧ orderKey (Row.at row 1) ≤ key "Zoe" := by decide
    have low := between (memberRow 3 (.ofText (bytes "Ada"))) (by decide) rfl
    have high := between (memberRow 4 (.ofText (bytes "Zoe"))) (by decide) rfl
    have isLeast : pair.1 = key "Ada" :=
      UInt64.le_antisymm low.1 (isLo ▸ (least row isRow known).1)
    have isGreatest : pair.2 = key "Zoe" :=
      UInt64.le_antisymm (isHi ▸ (least row' isRow' known').2) high.2
    obtain rfl : pair = (key "Ada", key "Zoe") := Prod.ext isLeast isGreatest
    exact ran

end Estimates

end Labdb.Engine
