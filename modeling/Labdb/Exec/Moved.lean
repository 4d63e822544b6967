import Labdb.Exec.Reads

/-! A list of columns moves them out of its input's batch: what the rows become, and what
is left behind for the next batch. -/

namespace Labdb.Exec

open Labdb.Catalog Labdb.Query Labdb.Record

/-- The types of the columns that are listed. -/
def listedTypes (types : List ColType) (cols : List Nat) : List ColType :=
  cols.map fun col => types.getD col .kInt64

section Move

variable {types : List ColType} {cols : List Nat} {before : Batch}

private theorem setCol_eq {batch : Batch} {c : Nat} (inside : c < batch.cols.length)
    (column : ColumnVector) :
    setCol batch c column = .ok { batch with cols := batch.cols.set c column } := by
  rw [setCol, setAt, if_pos inside]
  rfl

/-- Between two columns: those done are in the output, and the input has, in place of those that
were taken, columns that back its types. -/
structure Moving (types : List ColType) (cols done : List Nat) (before out inBatch : Batch) :
    Prop where
  length : out.cols.length = cols.length
  moved : ∀ (j col : Nat), done[j]? = some col → out.cols[j]? = before.cols[col]?
  outBacks : ∀ (j col : Nat) (column : ColumnVector), cols[j]? = some col → done.length ≤ j →
    out.cols[j]? = some column → column.Backs (types.getD col .kInt64)
  inLength : inBatch.cols.length = types.length
  kept : ∀ col : Nat, col ∉ done → inBatch.cols[col]? = before.cols[col]?
  inBacks : ∀ (col : Nat) (column : ColumnVector), inBatch.cols[col]? = some column → column.Backs (types.getD col .kInt64)

/-- One more column is done: it was put in its place, and others in the input changed. -/
theorem Moving.step {done rest : List Nat} {col : Nat} {out inBatch : Batch}
    {column : ColumnVector} {inCols : List ColumnVector}
    (moving : Moving types cols done before out inBatch) (split : cols = done ++ col :: rest)
    (here : before.cols[col]? = some column) (inLength : inCols.length = types.length)
    (kept : ∀ other : Nat, other ∉ done ++ [col] → inCols[other]? = inBatch.cols[other]?)
    (inBacks : ∀ (other : Nat) (column : ColumnVector), inCols[other]? = some column →
      column.Backs (types.getD other .kInt64)) :
    Moving types cols (done ++ [col]) before
      { out with cols := out.cols.set done.length column } { inBatch with cols := inCols } := by
  have inside : done.length < out.cols.length := by
    rw [moving.length, split, List.length_append, List.length_cons]
    omega
  refine ⟨?_, fun j other isDone => ?_, fun j other column' isCol past found => ?_, inLength,
    fun other isNew => ?_, inBacks⟩
  · rw [List.length_set]
    exact moving.length
  · by_cases last : j = done.length
    · subst last
      rw [List.getElem?_concat_length] at isDone
      cases isDone
      rw [List.getElem?_set_self inside, here]
    · have below : j < done.length := by
        have bound := (List.getElem?_eq_some_iff.mp isDone).1
        rw [List.length_append, List.length_singleton] at bound
        omega
      rw [List.getElem?_append_left below] at isDone
      rw [List.getElem?_set_ne (Ne.symm last)]
      exact moving.moved j other isDone
  · rw [List.length_append, List.length_singleton] at past
    rw [List.getElem?_set_ne (by omega)] at found
    exact moving.outBacks j other column' isCol (by omega) found
  · rw [kept other isNew]
    exact moving.kept other fun early => isNew (List.mem_append_left _ early)

private theorem moveCols_eq (inside : ∀ col ∈ cols, col < types.length) (done rest : List Nat)
    {out inBatch : Batch} (split : cols = done ++ rest)
    (moving : Moving types cols done before out inBatch) :
    ∃ outCols inCols, moveCols cols done.length rest out inBatch =
        .ok ({ out with cols := outCols }, { inBatch with cols := inCols }) ∧
      Moving types cols cols before { out with cols := outCols }
        { inBatch with cols := inCols } := by
  induction rest generalizing done out inBatch with
  | nil =>
    rw [List.append_nil] at split
    subst split
    exact ⟨out.cols, inBatch.cols, rfl, moving⟩
  | cons col rest ih =>
    have isCol : cols[done.length]? = some col := by
      rw [split, List.getElem?_append_right (Nat.le_refl _), Nat.sub_self]
      rfl
    have place : done.length < out.cols.length := by
      rw [moving.length]
      exact (List.getElem?_eq_some_iff.mp isCol).1
    have below : col < inBatch.cols.length := by
      rw [moving.inLength]
      exact inside col (List.mem_of_getElem? isCol)
    have further : cols = (done ++ [col]) ++ rest := by
      rw [split, List.append_assoc, List.singleton_append]
    have next := fun (out inBatch : Batch) => @ih (done ++ [col]) out inBatch further
    simp only [List.length_append, List.length_singleton] at next
    unfold moveCols
    dsimp only
    by_cases seen : col ∈ done
    · have found : done.findIdx (fun other => decide (other = col)) < done.length :=
        List.findIdx_lt_length_of_exists ⟨col, seen, decide_eq_true rfl⟩
      have first : cols.findIdx (fun other => decide (other = col)) =
          done.findIdx fun other => decide (other = col) := by
        rw [split, List.findIdx_append, if_pos found]
      have isFirst : done[done.findIdx fun other => decide (other = col)]? = some col := by
        rw [List.getElem?_eq_getElem found]
        exact congrArg some (of_decide_eq_true
          (@List.findIdx_getElem _ (fun other => decide (other = col)) done found))
      have same := moving.moved _ col isFirst
      obtain ⟨column, here⟩ : ∃ column,
          out.cols[done.findIdx fun other => decide (other = col)]? = some column :=
        ⟨_, List.getElem?_eq_getElem (by omega)⟩
      rw [first, if_neg (Nat.ne_of_lt found), within_some here, ok_bind, setCol_eq place, ok_bind]
      exact next _ inBatch (moving.step split (same.symm.trans here) moving.inLength (fun _ _ => rfl)
        moving.inBacks)
    · have first : cols.findIdx (fun other => decide (other = col)) = done.length := by
        have none_ : done.findIdx (fun other => decide (other = col)) = done.length :=
          List.findIdx_eq_length.mpr fun other member =>
            decide_eq_false fun same => seen (same ▸ member)
        rw [split, List.findIdx_append, if_neg (by omega), List.findIdx_cons, decide_eq_true rfl]
        exact Nat.zero_add _
      obtain ⟨mine, isMine⟩ : ∃ column, out.cols[done.length]? = some column :=
        ⟨_, List.getElem?_eq_getElem place⟩
      obtain ⟨other, isOther⟩ : ∃ column, inBatch.cols[col]? = some column :=
        ⟨_, List.getElem?_eq_getElem below⟩
      have mineBacks := moving.outBacks _ col mine isCol (Nat.le_refl _) isMine
      rw [first, if_pos rfl, within_some isMine, ok_bind, within_some isOther, ok_bind,
        setCol_eq place, ok_bind, setCol_eq below, ok_bind]
      refine next _ { inBatch with cols := inBatch.cols.set col mine }
        (moving.step split ((moving.kept col seen).symm.trans isOther) ?_ (fun other isNew => ?_)
          fun other column found => ?_)
      · rw [List.length_set]
        exact moving.inLength
      · refine List.getElem?_set_ne fun same => isNew ?_
        exact List.mem_append_right _ (List.mem_singleton.mpr same.symm)
      · by_cases same : col = other
        · subst same
          rw [List.getElem?_set_self below] at found
          cases found
          exact mineBacks
        · rw [List.getElem?_set_ne same] at found
          exact moving.inBacks other column found

private theorem backs_of_cols {batch : Batch} (each : ∀ (col : Nat) (column : ColumnVector),
    batch.cols[col]? = some column → column.Backs (types.getD col .kInt64)) : Backs types batch := by
  intro c type isType
  rw [Batch.col, List.getD_eq_getElem?_getD]
  cases here : batch.cols[c]? with
  | none => exact Nat.zero_le _
  | some column =>
    have backs := each c column here
    rw [List.getD_eq_getElem?_getD, isType] at backs
    exact backs

theorem Moving.start {out : Batch} (sound : Sound types before)
    (backs : Backs (listedTypes types cols) out) :
    Moving types cols [] before (resizeCols out cols.length) before := by
  have length := congrArg List.length sound.types_eq
  rw [List.length_map] at length
  refine ⟨?_, nofun, fun j col column isCol _ found => ?_, length, fun _ _ => rfl,
    fun col column found => ?_⟩
  · simp only [resizeCols, List.length_append, List.length_take, List.length_replicate]
    omega
  · have below := (List.getElem?_eq_some_iff.mp isCol).1
    have isType : (listedTypes types cols)[j]? = some (types.getD col .kInt64) := by
      rw [listedTypes, List.getElem?_map, isCol]
      rfl
    have same : column = out.col j := by
      unfold resizeCols at found
      rw [Batch.col, List.getD_eq_getElem?_getD]
      by_cases old : j < out.cols.length
      · rw [List.getElem?_append_left (by rw [List.length_take]; omega),
          List.getElem?_take_of_lt below] at found
        rw [found]
        rfl
      · rw [List.getElem?_append_right (by rw [List.length_take]; omega)] at found
        rw [List.getElem?_eq_none (by omega)]
        exact (List.eq_of_mem_replicate (List.mem_of_getElem? found))
    rw [same]
    exact backs j _ isType
  · have type : column.type = types.getD col .kInt64 := by
      rw [← sound.types_eq, List.getD_eq_getElem?_getD, List.getElem?_map, found]
      rfl
    rw [← type]
    exact sound.backs column (List.mem_of_getElem? found)

/-- The columns that were moved are the rows' columns that are listed. -/
theorem Moving.sound {out inBatch : Batch} (sound : Sound types before)
    (moving : Moving types cols cols before out inBatch) (inside : ∀ col ∈ cols, col < types.length)
    {after : Batch} (columns : after.cols = out.cols) (size : after.size = before.size)
    (selected : after.selected = before.selected) (live : after.live = before.live)
    (sel : after.sel = before.sel) :
    Sound (listedTypes types cols) after ∧ after.rows = before.rows.map (projectRow cols) := by
  have each : ∀ (j col : Nat), cols[j]? = some col → ∃ column, after.cols[j]? = some column ∧
      column ∈ before.cols ∧ column.type = types.getD col .kInt64 ∧
      ∀ i, Row.at (before.getRow i) col = column.get i := by
    intro j col isCol
    obtain ⟨column, here, member, type, field⟩ :=
      sound.column (inside col (List.mem_of_getElem? isCol))
    exact ⟨column, by rw [columns, moving.moved j col isCol, here], member, type, field⟩
  have length : after.cols.length = cols.length := by rw [columns, moving.length]
  have all : ∀ column ∈ after.cols, column ∈ before.cols := by
    intro column member
    obtain ⟨j, here⟩ := List.mem_iff_getElem?.mp member
    have below := (List.getElem?_eq_some_iff.mp here).1
    obtain ⟨column', found, inBefore, -⟩ :=
      each j cols[j] (List.getElem?_eq_getElem (by omega))
    cases here.symm.trans found
    exact inBefore
  have liveRows : after.liveRows = before.liveRows := by
    have row : after.row = before.row := by
      funext k
      rw [Batch.row, Batch.row, selected, sel]
    rw [Batch.liveRows, Batch.liveRows, row, Batch.count, Batch.count, selected, live, size]
  have mapped : ∀ {β : Type} (f : ColumnVector → β) (g : Nat → β), (∀ (j col : Nat) column,
      cols[j]? = some col → after.cols[j]? = some column → f column = g col) →
      after.cols.map f = cols.map g := by
    intro β f g same
    refine List.ext_getElem? fun j => ?_
    rw [List.getElem?_map, List.getElem?_map]
    cases isCol : cols[j]? with
    | none =>
      have past := List.getElem?_eq_none_iff.mp isCol
      rw [List.getElem?_eq_none (by omega)]
      rfl
    | some col =>
      obtain ⟨column, here, -⟩ := each j col isCol
      rw [here]
      exact congrArg some (same j col column isCol here)
  have read : ∀ i, after.getRow i = projectRow cols (before.getRow i) := by
    intro i
    refine mapped _ _ fun j col column isCol here => ?_
    obtain ⟨column', here', -, -, field⟩ := each j col isCol
    cases here.symm.trans here'
    exact (field i).symm
  refine ⟨⟨⟨?_, fun column member => sound.backs column (all column member)⟩, ?_, ?_, ?_⟩, ?_⟩
  · refine mapped _ _ fun j col column isCol here => ?_
    obtain ⟨column', here', -, type, -⟩ := each j col isCol
    cases here.symm.trans here'
    exact type
  · have room := sound.room
    rw [Batch.room_eq] at room ⊢
    have least := foldl_min_le (before.cols.map fun column => column.nulls.length) before.sel.length
    rw [size, sel]
    refine le_foldl_min _ _ _ (Nat.le_trans room least.1) fun length member => ?_
    obtain ⟨column, here, rfl⟩ := List.mem_map.mp member
    exact Nat.le_trans room (least.2 _ (List.mem_map_of_mem (all column here)))
  · rw [selected, live, sel]
    exact sound.listed
  · rw [liveRows, size]
    exact sound.inside
  · rw [Batch.rows, Batch.rows, liveRows, List.map_map]
    exact List.map_congr_left fun i _ => read i

end Move

section Project

variable {types : List ColType} {cols : List Nat} {make : Row → Option Row} {child : Operator}
  {left : Running child → List Row → Nat → Prop} {rows : List Row} {read : Nat}

/-- What is made of a row by a list of columns. -/
def projectMake (make : Row → Option Row) (cols : List Nat) (row : Row) : Option Row :=
  (make row).map (projectRow cols)

/-- A `Project` whose batch may be formatted for its input's rows. -/
def ProjectLeft (types : List ColType) (left : Running child → List Row → Nat → Prop)
    (state : Projecting child) (rows : List Row) (read : Nat) : Prop :=
  left state.input rows read ∧ Backs types state.inBatch

theorem Drops.project {rows : List Row} (drops : Drops make rows) :
    Drops (projectMake make cols) rows := by
  intro row member
  rw [projectMake, drops row member, Option.map_none]

theorem filterMap_projectMake (make : Row → Option Row) (cols : List Nat) (rows : List Row) :
    rows.filterMap (projectMake make cols) = (rows.filterMap make).map (projectRow cols) :=
  List.map_filterMap.symm

private theorem projectRow_plain (cols : List Nat) (row : Row) :
    (projectRow cols row).map Field.plain = projectRow cols (row.map Field.plain) := by
  rw [projectRow, projectRow, List.map_map]
  refine List.map_congr_left fun col _ => ?_
  rw [Function.comp, Row.at, Row.at, List.getD_eq_getElem?_getD, List.getD_eq_getElem?_getD,
    List.getElem?_map]
  cases row[col]? with
  | none => rfl
  | some field => rfl

private theorem project_produce (reads : Reads types make child left) {state : Projecting child}
    (has : ProjectLeft types left state rows read) (out : Row) :
    RowCall (projectMake make cols) (ProjectLeft types left) rows read
      ((project child cols).produce state out) := by
  obtain ⟨input, backs⟩ := has
  have call := reads.next input state.inRow
  unfold project
  dsimp only
  generalize child.next state.input state.inRow = result at call
  cases call with
  | ended drops later => exact .ended drops.project ⟨later, backs⟩
  | @found dropped rest row made new after split drops makes same later =>
    have makes' : projectMake make cols row = some (projectRow cols made) := by
      rw [projectMake, makes]
      rfl
    exact .found split drops.project makes' (by rw [projectRow_plain, same]) ⟨later, backs⟩

private theorem project_produceBatch (reads : Reads types make child left)
    (inside : ∀ col ∈ cols, col < types.length) {state : Projecting child}
    (has : ProjectLeft types left state rows read) {out : Batch} {max : Nat}
    (backs : Backs (listedTypes types cols) out) (positive : 0 < max) :
    BatchCall (projectMake make cols) (ProjectLeft types left) rows read (listedTypes types cols) max
      ((project child cols).produceBatch state out max) := by
  obtain ⟨input, inBacks⟩ := has
  have call := reads.nextBatch input state.inBatch max inBacks positive
  unfold project
  dsimp only
  generalize child.nextBatch state.input state.inBatch max = result at call
  cases call with
  | ended drops inBacks later => exact .ended drops.project backs ⟨later, inBacks⟩
  | @found dropped taken rest inBatch after split drops few some_ sound same later =>
    obtain ⟨outCols, inCols, moved, moving⟩ :=
      moveCols_eq inside [] cols rfl (Moving.start sound backs)
    obtain ⟨soundOut, rowsOut⟩ := @Moving.sound types cols inBatch _ _ sound moving inside
      { cols := outCols, size := inBatch.size, selected := inBatch.selected
        sel := inBatch.sel, live := inBatch.live } rfl rfl rfl rfl rfl
    rw [ok_bind]
    dsimp only
    rw [if_pos rfl]
    rw [List.length_nil] at moved
    rw [moved, ok_bind]
    refine .found split drops.project few ?_ soundOut ?_ ⟨later, backs_of_cols moving.inBacks⟩
    · rw [filterMap_projectMake]
      exact fun nothing => some_ (List.map_eq_nil_iff.mp nothing)
    · rw [filterMap_projectMake, ← same]
      exact rowsOut

/-- A list of columns over an operator that reads so. -/
theorem project_reads (reads : Reads types make child left)
    (inside : ∀ col ∈ cols, col < types.length) :
    Reads (listedTypes types cols) (projectMake make cols) (project child cols)
      (fun running => ProjectLeft types left running.state) where
  bound has := reads.bound has.1
  typed := by
    intro running rows read has row member made makes
    obtain ⟨before, makesBefore, rfl⟩ := Option.map_eq_some_iff.mp makes
    have typed := reads.typed has.1 row member before makesBefore
    have at_ : ∀ col ∈ cols, before[col]? = some (Row.at before col) := by
      intro col listed
      have below : col < before.length := by
        have bound := inside col listed
        rwa [← typed.types_eq, List.length_map] at bound
      rw [Row.at, List.getD_eq_getElem?_getD, List.getElem?_eq_getElem below]
      rfl
    refine ⟨?_, fun field member => ?_⟩
    · rw [projectRow, List.map_map]
      refine List.map_congr_left fun col listed => ?_
      rw [← typed.types_eq, List.getD_eq_getElem?_getD, List.getElem?_map, at_ col listed]
      rfl
    · obtain ⟨col, listed, rfl⟩ := List.mem_map.mp member
      exact typed.ordered _ (List.mem_of_getElem? (at_ col listed))
  next has out := next_call (project child cols) (project_produce reads has out)
  nextBatch has out max backs positive := nextBatch_call (project child cols) (Nat.le_refl max)
    (project_produceBatch reads inside has backs positive)

end Project

end Labdb.Exec
