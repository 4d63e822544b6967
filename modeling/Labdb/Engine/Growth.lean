import Labdb.Engine.Disk
import Labdb.Program.Climbs

/-! No call gives a page back: whatever the pages hold, those in use stay in use. -/

namespace Labdb.Engine

open Labdb.BTree Labdb.Catalog Labdb.Data Labdb.Heap Labdb.Program Labdb.Query Labdb.Record

section Trees

variable {α β : Type} {alloc : Allocator} {unique overwrite : Bool} {key : Key} {value : Value}

/-- An operation of a tree that gives no page back. -/
def TreeGrows (operation : TreeM α) : Prop :=
  ∀ s out s', operation s = some (out, s') → s.used ⊆ s'.used

theorem TreeGrows.pure (value : α) : TreeGrows (Pure.pure value : TreeM α) := by
  rintro s out s' ⟨⟩
  exact fun _ member => member

theorem TreeGrows.fail : TreeGrows (failure : TreeM α) := by
  rintro s out s' ⟨⟩

theorem TreeGrows.bind {operation : TreeM α} {next : α → TreeM β} (first : TreeGrows operation)
    (then_ : ∀ value, TreeGrows (next value)) : TreeGrows (operation >>= next) := by
  intro s out s' ran
  rw [bind_apply] at ran
  obtain ⟨⟨value, between⟩, here, rest⟩ := Option.bind_eq_some_iff.mp ran
  exact fun id member => then_ value _ _ _ rest (first _ _ _ here member)

theorem TreeGrows.get : TreeGrows (MonadState.get : TreeM Store) := by
  rintro s out s' ⟨⟩
  exact fun _ member => member

private theorem treeGrows_readPage (id : PageNo) : TreeGrows (BTree.readPage id) := by
  rintro s out s' ⟨⟩
  exact fun _ member => member

theorem treeGrows_writePage (id : PageNo) (node : Node) : TreeGrows (BTree.writePage id node) := by
  rintro s out s' ⟨⟩
  exact fun _ member => member

theorem treeGrows_allocatePage (alloc : Allocator) : TreeGrows (BTree.allocatePage alloc) := by
  rintro s out s' ⟨⟩
  exact fun _ member => List.mem_cons_of_mem _ member

private theorem treeGrows_persistRoot (root : PageNo) : TreeGrows (persistRoot root) := by
  rintro s out s' ⟨⟩
  exact fun _ member => member

theorem TreeGrows.withRoot {operation : TreeM α} (grows : TreeGrows operation) :
    TreeGrows (withRoot operation) :=
  grows.bind fun value => .bind .get fun s => .pure (value, s.root)

private theorem treeGrows_insertLeaf (id : PageNo) (leaf : LeafNode) :
    TreeGrows (insertLeaf alloc unique id leaf key value overwrite) := by
  unfold insertLeaf
  dsimp only
  split
  · split
    · exact (treeGrows_writePage _ _).bind fun _ => .pure _
    · exact .pure _
  · split
    · exact (treeGrows_writePage _ _).bind fun _ => .pure _
    · exact (treeGrows_allocatePage alloc).bind fun right =>
        (treeGrows_writePage _ _).bind fun _ => (treeGrows_writePage _ _).bind fun _ => .pure _

theorem treeGrows_insertSplit (id : PageNo) (node : InternalNode) (ci : Nat) (split_ : Split) :
    TreeGrows (insertSplit alloc id node ci split_) := by
  unfold insertSplit
  split
  · exact (treeGrows_writePage _ _).bind fun _ => .pure _
  · exact (treeGrows_allocatePage alloc).bind fun right =>
      (treeGrows_writePage _ _).bind fun _ => (treeGrows_writePage _ _).bind fun _ => .pure _

private theorem treeGrows_insertRec (rounds : Nat) (id : PageNo) :
    TreeGrows (insertRec alloc unique rounds id key value overwrite) := by
  induction rounds generalizing id with
  | zero => exact .fail
  | succ rounds ih =>
    apply (treeGrows_readPage id).bind
    intro node
    cases node with
    | leaf leaf => exact treeGrows_insertLeaf id leaf
    | internal node =>
      apply (ih _).bind
      rintro ⟨childSplit, inserted⟩
      cases childSplit with
      | none => exact .pure _
      | some split_ => exact (treeGrows_insertSplit _ _ _ _).bind fun up => .pure (up, inserted)

theorem treeGrows_insertWith : TreeGrows (insertWith alloc unique key value overwrite) := by
  apply TreeGrows.get.bind
  intro s
  apply (treeGrows_insertRec _ _).bind
  rintro ⟨split_, inserted⟩
  cases split_ with
  | none => exact .pure _
  | some split_ =>
    exact (treeGrows_allocatePage alloc).bind fun newRoot =>
      (treeGrows_writePage _ _).bind fun _ => (treeGrows_persistRoot _).bind fun _ => .pure _

private theorem treeGrows_settle (rounds : Nat) (c : Cursor) : TreeGrows (settle rounds c) := by
  induction rounds generalizing c with
  | zero => exact .fail
  | succ rounds ih =>
    unfold settle
    split
    · exact .pure _
    · split
      · exact .pure _
      · split
        · exact .pure _
        · apply (treeGrows_readPage _).bind
          intro node
          cases node with
          | leaf leaf => exact ih _
          | internal node => exact .fail

theorem treeGrows_next (c : Cursor) : TreeGrows c.next :=
  TreeGrows.get.bind fun _ => treeGrows_settle _ _

private theorem treeGrows_descend (rule : InternalNode → Nat) (rounds : Nat) (id : PageNo) :
    TreeGrows (descend rule rounds id) := by
  induction rounds generalizing id with
  | zero => exact .fail
  | succ rounds ih =>
    apply (treeGrows_readPage id).bind
    intro node
    cases node with
    | leaf leaf => exact .pure _
    | internal node => exact ih _

theorem treeGrows_seek (lo : Key) : TreeGrows (seek unique lo) :=
  TreeGrows.get.bind fun _ => (treeGrows_descend _ _ _).bind fun _ => treeGrows_settle _ _

end Trees

section Calls

variable {α β : Type} {alloc : Allocator} {scratch : Memory}

/-- A call that gives no page back, whether it returns or not. -/
abbrev Grows (program : DiskM α) : Prop :=
  Stateful.Climbs (fun d d' : Disk => d.used ⊆ d'.used) program

theorem Grows.pure (value : α) : Grows (Pure.pure value : DiskM α) :=
  Stateful.Climbs.pure (fun _ _ member => member) value

theorem Grows.throw (fault : Fault) : Grows (MonadExcept.throw fault : DiskM α) :=
  Stateful.Climbs.throw (fun _ _ member => member) fault

theorem Grows.bind {program : DiskM α} {next : α → DiskM β} (first : Grows program)
    (then_ : ∀ value, Grows (next value)) : Grows (program >>= next) :=
  Stateful.Climbs.bind (fun ab bc _ member => bc (ab member)) first then_

theorem Grows.get : Grows (MonadState.get : DiskM Disk) := fun _ _ member => member

theorem grows_checked (codec : Codec α) : Grows (checked codec : DiskM α) := by
  cases codec with
  | ok value => exact .pure value
  | error fault => exact .throw fault

private theorem grows_present (message : Text) (found : Option α) :
    Grows (present message found : DiskM α) := by
  cases found with
  | some value => exact .pure value
  | none => exact .throw _

private theorem grows_readPage (id : PageNo) : Grows (readPage id) := fun _ _ member => member

private theorem grows_writePage (id : PageNo) (p : Image) : Grows (writePage id p) :=
  fun _ _ member => member

theorem grows_onCatalog (program : CatalogM α) : Grows (onCatalog program) :=
  fun _ _ member => member

private theorem grows_forM {onRootChanged : PageNo → DiskM Unit}
    (tells : ∀ root, Grows (onRootChanged root)) (roots : List PageNo) :
    Grows (roots.forM onRootChanged) := by
  induction roots with
  | nil => exact .pure ()
  | cons root rest ih => exact (tells root).bind fun _ => ih

theorem grows_onTree {root : PageNo} {onRootChanged : PageNo → DiskM Unit} {operation : TreeM α}
    (tells : ∀ root, Grows (onRootChanged root)) (grows : TreeGrows operation) :
    Grows (onTree root onRootChanged operation) := by
  intro d
  unfold onTree
  have got : ∀ next : Disk → DiskM α, ((MonadState.get : DiskM Disk) >>= next).leaves d =
      (next d).leaves d := fun next => rfl
  rw [got]
  cases ran : operation (d.view root) with
  | none => exact fun _ member => member
  | some out =>
    obtain ⟨value, s⟩ := out
    have rest : Grows (do s.reported.forM onRootChanged; Pure.pure value : DiskM α) :=
      (grows_forM tells s.reported).bind fun _ => .pure value
    exact fun id member => rest (d.take s) (grows _ _ _ ran member)

theorem grows_nobody (root : PageNo) : Grows (nobody root) := .pure ()

private theorem grows_heapGet (rid : RID) : Grows (heapGet rid) :=
  (grows_readPage _).bind fun _ => grows_present _ _

theorem grows_heapErase (rid : RID) : Grows (heapErase rid) := by
  apply (grows_readPage _).bind
  intro pg
  split
  · exact (grows_writePage _ _).bind fun _ => .pure _
  · exact .pure _

private theorem grows_fileInIndex (table : Text) (column : Nat) (root : PageNo) (field : Field)
    (value : Value) : Grows (fileInIndex alloc table column root field value) :=
  (grows_onTree (fun _ => grows_onCatalog _) treeGrows_insertWith.withRoot).bind fun out => .pure out.2

theorem grows_fileInIndexes (table : Text) (roots : List PageId) (row : Row) (rid : RID)
    (columns : List Nat) : Grows (fileInIndexes alloc table roots row rid columns) := by
  induction columns with
  | nil => exact .pure ()
  | cons c rest ih =>
    unfold fileInIndexes
    split
    · exact ih
    · exact (grows_fileInIndex _ _ _ _ _).bind fun _ => ih

theorem grows_fileRow (table : Text) (i : Nat) (d : RawDesc) (row : Row) (rid : RID) :
    Grows (fileRow alloc table i d row rid) := by
  apply (grows_onTree (fun _ => grows_onCatalog _) treeGrows_insertWith).bind
  intro isNew
  split
  · exact (grows_heapErase rid).bind fun _ => .pure _
  · exact (grows_fileInIndexes _ _ _ _ _).bind fun _ => (grows_onCatalog _).bind fun _ => .pure _

theorem grows_fileRows (table : Text) (d : RawDesc) (column rounds : Nat) (c : Cursor)
    (root : PageNo) (filed : Nat) : Grows (fileRows alloc table d column rounds c root filed) := by
  induction rounds generalizing c root filed with
  | zero => exact .throw _
  | succ rounds ih =>
    unfold fileRows
    split
    · exact .pure _
    · apply (grows_heapGet _).bind
      intro rec
      apply (grows_checked _).bind
      intro v
      split
      · exact (grows_onTree grows_nobody (treeGrows_next c)).bind fun c => ih c root filed
      · exact (grows_fileInIndex _ _ _ _ _).bind fun root =>
          (grows_onTree grows_nobody (treeGrows_next c)).bind fun c => ih c root (filed + 1)

end Calls

end Labdb.Engine
