import Labdb.Pool.BufferPool
import Labdb.Storage.Recovery

/-! What ties the frames of a pool to the pager below: each page that is resident lies
over the pager's version of it, and a clean one is that version. -/

namespace Labdb.Pool.BufferPool

open Labdb.Program Labdb.Storage

section Frames

variable {pool : BufferPool} {fi other : Nat} {frame : Frame}

theorem frame_beyond (beyond : pool.frames.length ≤ fi) : pool.frame fi = {} := by
  simp [BufferPool.frame, List.getD_eq_getElem?_getD, List.getElem?_eq_none beyond]

theorem inside_of_id (some : (pool.frame fi).id ≠ kNullPage) : fi < pool.frames.length := by
  by_contra beyond
  rw [frame_beyond (by omega)] at some
  exact some rfl

theorem frame_set (inside : fi < pool.frames.length) :
    (pool.frames.set fi frame).getD other {} = if fi = other then frame else pool.frame other := by
  simp only [BufferPool.frame, List.getD_eq_getElem?_getD]
  split
  · subst other
    rw [List.getElem?_set_self inside, Option.getD_some]
  · rw [List.getElem?_set_ne ‹_›]

theorem frame_put (inside : fi < pool.frames.length) :
    (pool.put fi frame).frame other = if fi = other then frame else pool.frame other :=
  frame_set inside

theorem put_frame (inside : fi < pool.frames.length) : pool.put fi (pool.frame fi) = pool := by
  have same : pool.frame fi = pool.frames[fi] := by
    simp [BufferPool.frame, List.getD_eq_getElem?_getD, inside]
  rw [BufferPool.put, same, List.set_getElem_self]

end Frames

/-- How often a page is pinned. -/
def pinsOf (pool : BufferPool) (id : PageId) : Nat :=
  match pool.table.lookup id with
  | some fi => (pool.frame fi).pins
  | none => 0

/-- The table finds the frame of every resident page, and every dirty frame is listed. -/
structure Linked (pool : BufferPool) : Prop where
  hand : pool.hand < pool.frames.length
  table : ∀ id fi, pool.table.lookup id = some fi ↔ id ≠ kNullPage ∧ (pool.frame fi).id = id
  listed : ∀ fi, (pool.frame fi).dirty = true → fi ∈ pool.dirtyList
  empty : ∀ fi, (pool.frame fi).id = kNullPage →
    (pool.frame fi).dirty = false ∧ (pool.frame fi).pins = 0

/-- The pool shows `current` over the pager's `staged`. Only frames that are dirty, or
changed under a pin that is still held, differ from what lies below. -/
structure Layered (pool : BufferPool) (files : Files) (acked staged current : Database)
    (changed : List PageId) : Prop extends Linked pool where
  shows : pool.pager.Shows files acked staged
  fields : current.fields = staged.fields
  resident : ∀ fi, (pool.frame fi).id ≠ kNullPage →
    (pool.frame fi).page = current.page (pool.frame fi).id
  absent : ∀ id, pool.table.lookup id = none → current.page id = staged.page id
  clean : ∀ fi, (pool.frame fi).id ≠ kNullPage → (pool.frame fi).dirty = false →
    (pool.frame fi).id ∉ changed → (pool.frame fi).page = staged.page (pool.frame fi).id
  held : ∀ id ∈ changed, 0 < pool.pinsOf id

/-- What any failure of a call leaves: a clean frame that the transaction has not
written holds the page as it was committed last. -/
structure Keeps (pool : BufferPool) (files : Files) (acked : Database)
    (changed : List PageId) : Prop extends Linked pool where
  keeps : pool.pager.Keeps files acked
  settled : ∀ fi, (pool.frame fi).id ≠ kNullPage → (pool.frame fi).dirty = false →
    (pool.frame fi).id ∉ changed → (pool.frame fi).id ∉ pool.pager.wal.pending →
    (pool.frame fi).page = acked.page (pool.frame fi).id

/-- The transaction has changed the page, whether or not that has reached the log. -/
def Touched (pool : BufferPool) (id : PageId) : Prop :=
  (∃ fi, (pool.frame fi).id = id ∧ (pool.frame fi).dirty = true) ∨ id ∈ pool.pager.wal.pending

/-- Two pools that differ only in what the clock reads. -/
structure Alike (pool pool' : BufferPool) : Prop where
  size : pool'.frames.length = pool.frames.length
  hand : pool'.hand < pool'.frames.length
  frames : ∀ fi, (pool'.frame fi).page = (pool.frame fi).page ∧
    (pool'.frame fi).id = (pool.frame fi).id ∧ (pool'.frame fi).pins = (pool.frame fi).pins ∧
    (pool'.frame fi).dirty = (pool.frame fi).dirty
  table : pool'.table = pool.table
  dirtyList : pool'.dirtyList = pool.dirtyList
  pager : pool'.pager = pool.pager

/-- What the handling of frames changes of no page: pins stay, only some pages become
resident, and what the transaction has changed stays known. -/
structure Manages (added : PageId → Prop) (pool pool' : BufferPool) : Prop where
  size : pool'.frames.length = pool.frames.length
  pins : ∀ id, pool'.pinsOf id = pool.pinsOf id
  resident : ∀ id, ¬ added id → pool.table.lookup id = none → pool'.table.lookup id = none
  touched : ∀ id, pool.Touched id → pool'.Touched id

theorem Manages.refl (added : PageId → Prop) (pool : BufferPool) : Manages added pool pool :=
  ⟨rfl, fun _ => rfl, fun _ _ => id, fun _ => id⟩

theorem Manages.trans {added : PageId → Prop} {pool pool' pool'' : BufferPool}
    (first : Manages added pool pool') (second : Manages added pool' pool'') :
    Manages added pool pool'' :=
  ⟨second.size.trans first.size, fun id => (second.pins id).trans (first.pins id),
    fun id other none => second.resident id other (first.resident id other none),
    fun id touched => second.touched id (first.touched id touched)⟩

section Alike

variable {pool pool' : BufferPool} {files : Files} {acked staged current : Database}
variable {changed : List PageId}

theorem Alike.pinsOf (alike : Alike pool pool') (id : PageId) :
    pool'.pinsOf id = pool.pinsOf id := by
  simp only [BufferPool.pinsOf, alike.table, (alike.frames _).2.2.1]

theorem Linked.alike (linked : pool.Linked) (alike : Alike pool pool') : pool'.Linked := by
  refine ⟨alike.hand, ?_, ?_, ?_⟩
  · intro id fi
    rw [alike.table, (alike.frames fi).2.1]
    exact linked.table id fi
  · intro fi dirty
    rw [alike.dirtyList]
    exact linked.listed fi ((alike.frames fi).2.2.2 ▸ dirty)
  · intro fi none
    rw [(alike.frames fi).2.2.2, (alike.frames fi).2.2.1]
    exact linked.empty fi ((alike.frames fi).2.1 ▸ none)

theorem Layered.alike (layered : pool.Layered files acked staged current changed)
    (alike : Alike pool pool') : pool'.Layered files acked staged current changed := by
  refine ⟨layered.toLinked.alike alike, alike.pager ▸ layered.shows, layered.fields, ?_, ?_, ?_,
    ?_⟩
  · intro fi
    rw [(alike.frames fi).1, (alike.frames fi).2.1]
    exact layered.resident fi
  · rw [alike.table]
    exact layered.absent
  · intro fi
    rw [(alike.frames fi).1, (alike.frames fi).2.1, (alike.frames fi).2.2.2]
    exact layered.clean fi
  · intro id member
    rw [alike.pinsOf]
    exact layered.held id member

theorem Manages.alike {added : PageId → Prop} (alike : Alike pool pool') :
    Manages added pool pool' := by
  refine ⟨alike.size, alike.pinsOf, ?_, ?_⟩ <;> intro id
  · rw [alike.table]
    exact fun _ none => none
  · simp only [Touched, alike.pager, (alike.frames _).2.1, (alike.frames _).2.2.2]
    exact fun touched => touched

end Alike

section Layers

variable {pool : BufferPool} {files : Files} {acked staged current : Database}
variable {changed : List PageId} {fi : Nat} {id : PageId}

/-- A page is in one frame at most. -/
theorem Linked.one (linked : pool.Linked) {other : Nat} (some : (pool.frame fi).id ≠ kNullPage)
    (same : (pool.frame other).id = (pool.frame fi).id) : other = fi := by
  have here := (linked.table _ fi).mpr ⟨some, rfl⟩
  have there := (linked.table _ other).mpr ⟨some, same⟩
  exact Option.some.inj (there.symm.trans here)

theorem Linked.frame_id (linked : pool.Linked) (found : pool.table.lookup id = some fi) :
    (pool.frame fi).id = id ∧ id ≠ kNullPage ∧ fi < pool.frames.length := by
  obtain ⟨some, same⟩ := (linked.table id fi).mp found
  exact ⟨same, some, inside_of_id (same ▸ some)⟩

theorem Linked.pinsOf_frame (linked : pool.Linked) (some : (pool.frame fi).id ≠ kNullPage) :
    pool.pinsOf (pool.frame fi).id = (pool.frame fi).pins := by
  rw [pinsOf, (linked.table _ fi).mpr ⟨some, rfl⟩]

theorem Linked.absent (linked : pool.Linked) (none : pool.table.lookup id = none)
    (some : id ≠ kNullPage) : ∀ fi, (pool.frame fi).id ≠ id := by
  intro fi same
  rw [(linked.table id fi).mpr ⟨some, same⟩] at none
  cases none

end Layers

end Labdb.Pool.BufferPool

namespace Labdb.Storage.Pager

variable {pager : Pager} {files : Files} {acked current : Database}

/-- A page that the transaction has not written is as it was committed last. -/
theorem Shows.settled (shows : pager.Shows files acked current) {id : PageId}
    (inside : id ≠ kNullPage) (settled : id ∉ pager.wal.pending) :
    current.page id = acked.page id := by
  have now := shows.pages id inside
  have before := shows.stores.pages id inside
  rw [← now, ← before, shows.holds.redo_eq]
  have none : pager.wal.pending.lookup id = none := AList.lookup_eq_none.mpr settled
  simp [Wal.version, none]

end Labdb.Storage.Pager

namespace Labdb.Storage.Database

variable {database : Database} {id other : PageId} {page : Page}

/-- The database with another version of one page. -/
def set (database : Database) (id : PageId) (page : Page) : Database :=
  { database with page := Function.update database.page id page }

@[simp] theorem set_fields : (database.set id page).fields = database.fields := rfl

@[simp] theorem set_page_self : (database.set id page).page id = page := Function.update_self ..

theorem set_page_ne (different : other ≠ id) :
    (database.set id page).page other = database.page other :=
  Function.update_of_ne different _ _

@[simp] theorem set_same : database.set id (database.page id) = database := by
  rw [set, Function.update_eq_self]

theorem set_set (page' : Page) : (database.set id page).set id page' = database.set id page' := by
  simp [set]

theorem write_eq_some (covers : database.Covers id) (own : page.id = id) :
    database.write id page = some (database.set id page) :=
  if_pos ⟨covers, own⟩

end Labdb.Storage.Database

namespace Labdb.Pool.BufferPool

open Labdb.Program Labdb.Storage

variable {pool : BufferPool} {files : Files} {acked staged current : Database}
variable {changed : List PageId}

theorem Layered.keeps (layered : pool.Layered files acked staged current changed) :
    pool.Keeps files acked changed := by
  refine ⟨layered.toLinked, layered.shows.toKeeps, ?_⟩
  intro fi some clean unchanged settled
  rw [layered.clean fi some clean unchanged]
  exact layered.shows.settled some settled

end Labdb.Pool.BufferPool
