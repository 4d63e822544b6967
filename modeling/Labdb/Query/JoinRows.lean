import Labdb.Query.Join

/-! What each of the joins hands out, as a list of its inputs' rows. -/

namespace Labdb.Query

namespace Probe

variable {probe : Probe} {outer : Row} {rows : List Row}

theorem Finds.skip {search next : probe.Search}
    (same : probe.advance outer search = probe.advance outer next)
    (finds : probe.Finds outer next rows) : probe.Finds outer search rows := by
  cases finds with
  | nil ended => exact .nil (same.trans ended)
  | cons found rest => exact .cons (same.trans found) rest

private theorem matches_none (idle : probe.start outer = none) : probe.Matches outer [] := by
  simp only [Matches, idle]

private theorem matches_some {search : probe.Search} (started : probe.start outer = some search)
    (finds : probe.Finds outer search rows) : probe.Matches outer rows := by
  simpa only [Matches, started] using finds

end Probe

section NestedLoop

variable {on : List BoundComparison} {nleft : Nat}

private theorem nestedLoop_finds {inner rest : List Row} {outer : Row} {j : Nat}
    (at_ : inner.drop j = rest) :
    (nestedLoopProbe on nleft inner).Finds outer j (rest.filterMap (pair on nleft outer)) := by
  induction rest generalizing j with
  | nil =>
    refine @Probe.Finds.nil _ _ _ (j : Nat) ?_
    simp only [nestedLoopProbe, at_, pairUp]
  | cons first rest ih =>
    have next : inner.drop (j + 1) = rest := by
      rw [← List.drop_drop, at_, List.drop_one, List.tail_cons]
    rw [List.filterMap_cons]
    cases joined : pair on nleft outer first with
    | some row =>
      refine .cons ?_ (ih next)
      simp only [nestedLoopProbe, at_, pairUp, joined]
    | none =>
      refine .skip ?_ (ih next)
      simp only [nestedLoopProbe, at_, next, pairUp, joined]

theorem nestedLoopJoin_delivers {left right : RowPath} {lrows rrows : List Row}
    (fromLeft : left.Delivers lrows) (fromRight : right.Delivers rrows) :
    (nestedLoopJoin left right on nleft).Delivers
      (lrows.flatMap fun l => rrows.filterMap (pair on nleft l)) := by
  rw [← fromRight.rows_eq]
  exact Probe.run_yields fromLeft fun outer _ =>
    Probe.matches_some rfl (nestedLoop_finds List.drop_zero)

end NestedLoop

namespace HashJoin

variable (join : HashJoin)

private theorem seek_finds {table : JoinHashTable} {outer : Row} {left : Nat} {search : Search}
    (here : search.end_ - search.position = left) :
    (join.probe table).Finds outer search
      (((List.range' search.position left).map table.idAt).filterMap
        (join.joinId table outer search.hash)) := by
  induction left generalizing search with
  | zero =>
    refine @Probe.Finds.nil _ _ _ search ?_
    simp only [probe, here, seek]
  | succ left ih =>
    have next : search.end_ - (search.position + 1) = left := by omega
    have later := @ih { search with position := search.position + 1 } next
    rw [List.range'_succ, List.map_cons, List.filterMap_cons]
    cases joined : join.joinId table outer search.hash (table.idAt search.position) with
    | some row =>
      refine .cons ?_ later
      simp only [probe, here, seek, joined]
    | none =>
      refine .skip ?_ later
      simp only [probe, here, next, seek, joined]

private theorem filterMap_eq_range {α β : Type} (items : List α) (f : α → Option β) :
    items.filterMap f = (List.range items.length).filterMap fun i => items[i]?.bind f := by
  induction items with
  | nil => rfl
  | cons item items ih =>
    rw [List.length_cons, List.range_succ_eq_map, List.filterMap_cons, List.filterMap_cons,
      List.filterMap_map, ih]
    rfl

/-- The rows of the build side that are filed. -/
def filed (rows : List Row) : List Row := rows.filter fun row => !nullKey row join.bkeys

private theorem foldl_file (rows : List Row) (table : JoinHashTable) :
    rows.foldl join.file table =
      { table with
        hashes := table.hashes ++ (join.filed rows).map (join.keyHash · join.bkeys)
        rows := table.rows ++ join.filed rows } := by
  induction rows generalizing table with
  | nil => simp [filed]
  | cons row rows ih =>
    rw [List.foldl_cons, ih, file]
    cases null : nullKey row join.bkeys with
    | true => simp [filed, null]
    | false => simp [filed, null, JoinHashTable.add]

private theorem build_hashes (rows : List Row) :
    (join.build rows).hashes = (join.filed rows).map (join.keyHash · join.bkeys) := by
  rw [build, JoinHashTable.finish_hashes, foldl_file]
  rfl

private theorem build_rows (rows : List Row) : (join.build rows).rows = join.filed rows := by
  rw [build, JoinHashTable.finish_rows, foldl_file]
  rfl

private theorem keyHash_lkeys (row : Row) : join.keyHash row join.lkeys =
    mixValues (join.keys.map fun key => keyValue key.text (Row.at row key.l)) := by
  rw [keyHash, lkeys, List.zipWith_map_left, List.zipWith_self]

private theorem keyHash_rkeys (row : Row) : join.keyHash row join.rkeys =
    mixValues (join.keys.map fun key => keyValue key.text (Row.at row key.r)) := by
  rw [keyHash, rkeys, List.zipWith_map_left, List.zipWith_self]

/-- Equal keys have equal hashes. -/
theorem keyHash_eq {l r : Row} (equal : join.keysEqual l r = true) :
    join.keyHash l join.lkeys = join.keyHash r join.rkeys := by
  rw [keyHash_lkeys, keyHash_rkeys]
  refine congrArg mixValues (List.map_congr_left fun key member => ?_)
  have same := List.all_eq_true.mp equal key member
  cases text : key.text with
  | true =>
    have texts : (Row.at l key.l).text = (Row.at r key.r).text := by simpa [text] using same
    simp only [keyValue, if_true, texts]
  | false =>
    have values : (Row.at l key.l).i64 = (Row.at r key.r).i64 := by simpa [text] using same
    simp only [keyValue, Bool.false_eq_true, if_false, values]

/-- The joined row of a probe row and a built one. -/
def joinPair (outer inner : Row) : Option Row :=
  let (l, r) := join.sides outer inner
  if join.keysEqual l r && join.residual.all (evalPair · l r join.nleft) then some (joinRows l r)
  else none

/-- A probe row and a built one with equal keys have equal hashes. -/
theorem keyHash_sides {outer inner : Row}
    (equal : join.keysEqual (join.sides outer inner).1 (join.sides outer inner).2 = true) :
    join.keyHash inner join.bkeys = join.keyHash outer join.pkeys := by
  have same := join.keyHash_eq equal
  cases side : join.buildLeft with
  | true => simpa [sides, bkeys, pkeys, side] using same
  | false => simpa [sides, bkeys, pkeys, side] using same.symm

/-- The checks of the bucket walk pass exactly for the rows that join. -/
theorem joinId_build {rows : List Row} {outer inner : Row} {id : Nat}
    (here : (join.filed rows)[id]? = some inner) :
    (if (join.build rows).bucketOf ((join.build rows).hashOf id) =
        (join.build rows).bucketOf (join.keyHash outer join.pkeys) then
      join.joinId (join.build rows) outer (join.keyHash outer join.pkeys) id
    else none) = join.joinPair outer inner := by
  have hash : (join.build rows).hashOf id = join.keyHash inner join.bkeys := by
    rw [JoinHashTable.hashOf, build_hashes, List.getD_eq_getElem?_getD, List.getElem?_map, here]
    rfl
  have row : (join.build rows).row id = inner := by
    rw [JoinHashTable.row, build_rows, List.getD_eq_getElem?_getD, here]
    rfl
  rw [joinId, joinPair, hash, row]
  cases equal : join.keysEqual (join.sides outer inner).1 (join.sides outer inner).2 with
  | true =>
    rw [join.keyHash_sides equal, if_pos rfl]
    simp only [equal, ne_eq, not_true_eq_false, Bool.not_true, Bool.false_eq_true, if_false,
      Bool.true_and]
    cases join.residual.all fun c =>
        evalPair c (join.sides outer inner).1 (join.sides outer inner).2 join.nleft with
    | true => rfl
    | false => rfl
  | false => simp [equal]

/-- A probe row meets the rows that it joins, in the order in which they were filed. -/
theorem walk_joins (rows : List Row) (outer : Row) :
    ((join.build rows).walk (join.keyHash outer join.pkeys)).filterMap
        (join.joinId (join.build rows) outer (join.keyHash outer join.pkeys)) =
      (join.filed rows).filterMap (join.joinPair outer) := by
  have walked : (join.build rows).walk (join.keyHash outer join.pkeys) = _ :=
    JoinHashTable.walk_finish (join.keyHash outer join.pkeys)
  have count : (rows.foldl join.file { mix := join.mix }).hashes.length =
      (join.filed rows).length := by
    rw [← JoinHashTable.finish_hashes, ← build, build_hashes, List.length_map]
  rw [walked, count, List.filterMap_filter, filterMap_eq_range (join.filed rows)]
  refine List.filterMap_congr fun id inside => ?_
  have here := List.getElem?_eq_getElem (List.mem_range.mp inside)
  rw [here, Option.bind_some, ← join.joinId_build here]
  simp only [decide_eq_true_eq]
  rfl

/-- A probe row with a NULL key joins nothing, another one the filed rows that it joins. -/
def matches_ (rows : List Row) (outer : Row) : List Row :=
  if nullKey outer join.pkeys then [] else (join.filed rows).filterMap (join.joinPair outer)

theorem matches_eq (rows : List Row) (outer : Row) :
    join.matches_ rows outer = rows.filterMap fun inner =>
      if nullKey outer join.pkeys || nullKey inner join.bkeys then none
      else join.joinPair outer inner := by
  unfold matches_ filed
  cases nullKey outer join.pkeys with
  | true => simp
  | false =>
    rw [List.filterMap_filter, if_neg Bool.false_ne_true]
    refine List.filterMap_congr fun inner _ => ?_
    cases nullKey inner join.bkeys <;> rfl

private theorem probe_matches (rows : List Row) (outer : Row) :
    (join.probe (join.build rows)).Matches outer (join.matches_ rows outer) := by
  unfold matches_
  split
  · rename_i null
    exact Probe.matches_none (if_pos null)
  · rename_i present
    rw [← join.walk_joins]
    exact Probe.matches_some (if_neg present) (join.seek_finds rfl)

theorem run_delivers {left right : RowPath} {builds probes : List Row}
    (fromBuild : (if join.buildLeft then left else right).Delivers builds)
    (fromProbe : (if join.buildLeft then right else left).Delivers probes) :
    (join.run left right).Delivers (probes.flatMap (join.matches_ builds)) := by
  unfold run
  rw [fromBuild.rows_eq]
  exact Probe.run_yields fromProbe fun outer _ => join.probe_matches builds outer

end HashJoin

namespace IndexNestedLoopJoin

variable (join : IndexNestedLoopJoin)

private theorem sift_finds {index : IndexWalk} {outer : Row} {inner : List Row} :
    (join.probe index).Finds outer inner (inner.filterMap (join.joinFound outer)) := by
  induction inner with
  | nil => exact .nil rfl
  | cons first rest ih =>
    rw [List.filterMap_cons]
    cases joined : join.joinFound outer first with
    | some row =>
      refine .cons ?_ ih
      simp only [probe, sift, joined]
    | none =>
      refine .skip ?_ ih
      simp only [probe, sift, joined]

/-- The joined rows of one outer row. -/
def matches_ (index : IndexWalk) (outer : Row) : List Row :=
  if (Row.at outer join.outerCol).isNull then []
  else
    let key := orderKey (Row.at outer join.outerCol)
    (index.rows key key).filterMap (join.joinFound outer)

theorem run_delivers {index : IndexWalk} {outer : RowPath} {outers : List Row}
    (fromOuter : outer.Delivers outers) :
    (join.run outer index).Delivers (outers.flatMap (join.matches_ index)) := by
  refine Probe.run_yields fromOuter fun row _ => ?_
  unfold matches_
  split
  · rename_i null
    exact Probe.matches_none (if_pos null)
  · rename_i present
    exact Probe.matches_some (if_neg present) join.sift_finds

end IndexNestedLoopJoin

end Labdb.Query
