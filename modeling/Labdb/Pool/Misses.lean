import Labdb.Pool.Transparent
import Labdb.Storage.PageCount

/-! Where a miss ends: with its page in a frame that was not pinned, or with an exception that
has a cause. -/

namespace Labdb.Pool.BufferPool

open Labdb.Program Labdb.Storage

variable {pool pool' : BufferPool} {disk disk' : Disk} {fi : Nat} {id : PageId} {size : Nat}

section Misses

/-- The pager once it has taken back a victim's page, if there was one to take back. -/
def Cleared (pool : BufferPool) (disk : Disk) (pager : Pager) (disk' : Disk) : Prop :=
  pager = pool.pager ∧ disk' = disk ∨
    ∃ fi, (pool.frame fi).pins = 0 ∧ (pool.frame fi).dirty = true ∧
      (Pager.writePage (pool.frame fi).id (pool.frame fi).page).Ends pool.pager disk
        (.returned () pager) disk'

/-- Why a miss raises an exception: every frame is pinned, or the pager does not take back
the page of one that is not, or it does not read the page. -/
inductive Refuses (pool : BufferPool) (disk : Disk) (id : PageId) (error : Error) : Prop where
  | crowded (pinned : pool.Crowded) (same : error = exhausted)
  | victim (fi : Nat) (free : (pool.frame fi).pins = 0) (dirty : (pool.frame fi).dirty = true)
      (pager : Pager) (disk' : Disk)
      (raised : (Pager.writePage (pool.frame fi).id (pool.frame fi).page).Ends pool.pager disk
        (.raised error pager) disk')
  | page (pager pager' : Pager) (disk' disk'' : Disk) (cleared : pool.Cleared disk pager disk')
      (raised : (Pager.readPage id).Ends pager disk' (.raised error pager') disk'')

/-- A miss has ended with its page in a frame that was not pinned, as no empty one is. The
frames that were pinned are as they were. -/
structure Placed (pool : BufferPool) (id : PageId) (fi : Nat) (pool' : BufferPool) : Prop where
  inside : fi < pool.frames.length
  free : (pool.frame fi).pins = 0
  page : (pool'.frame fi).id = id
  once : (pool'.frame fi).pins = 1
  found : pool'.table.lookup id = some fi
  kept : ∀ other, 0 < (pool.frame other).pins → pool'.frame other = pool.frame other

/-- The pool of so many frames, whatever the pager does. -/
structure Orderly (size : Nat) (pool : BufferPool) : Prop extends Linked pool where
  size : pool.frames.length = size

theorem Orderly.pager (orderly : Orderly size pool) (pager : Pager) :
    Orderly size { pool with pager } :=
  ⟨⟨orderly.hand, orderly.table, orderly.listed, orderly.empty⟩, orderly.size⟩

theorem Orderly.alike (orderly : Orderly size pool) (alike : Alike pool pool') :
    Orderly size pool' :=
  ⟨orderly.toLinked.alike alike, alike.size.trans orderly.size⟩

theorem Orderly.dropped (orderly : Orderly size pool) (real : (pool.frame fi).id ≠ kNullPage)
    (free : (pool.frame fi).pins = 0) : Orderly size (pool.dropped fi) :=
  ⟨orderly.toLinked.dropped real free, List.length_set.trans orderly.size⟩

theorem Orderly.put {frame : Frame} (orderly : Orderly size pool)
    (real : (pool.frame fi).id ≠ kNullPage) (same : frame.id = (pool.frame fi).id)
    (listed : frame.dirty = true → fi ∈ pool.dirtyList) : Orderly size (pool.put fi frame) :=
  ⟨orderly.toLinked.put real same listed, List.length_set.trans orderly.size⟩

theorem Cleared.alike {pager : Pager} (alike : Alike pool pool')
    (cleared : pool'.Cleared disk pager disk') : pool.Cleared disk pager disk' := by
  rcases cleared with ⟨same, still⟩ | ⟨fi, free, dirty, wrote⟩
  · exact .inl ⟨same.trans alike.pager, still⟩
  · obtain ⟨page, id, pins, marked⟩ := alike.frames fi
    rw [page, id, alike.pager] at wrote
    exact .inr ⟨fi, pins ▸ free, marked ▸ dirty, wrote⟩

theorem Refuses.alike {error : Error} (alike : Alike pool pool')
    (refuses : pool'.Refuses disk id error) : pool.Refuses disk id error := by
  cases refuses with
  | crowded pinned same =>
    refine .crowded (fun fi inside => ?_) same
    rw [← (alike.frames fi).2.2.1]
    exact pinned fi (alike.size ▸ inside)
  | victim fi free dirty pager disk' raised =>
    obtain ⟨page, id, pins, marked⟩ := alike.frames fi
    rw [page, id, alike.pager] at raised
    exact .victim fi (pins ▸ free) (marked ▸ dirty) pager disk' raised
  | page pager pager' disk' disk'' cleared raised =>
    exact .page pager pager' disk' disk'' (cleared.alike alike) raised

/-- A frame that was not pinned is empty now. -/
structure Vacated (size : Nat) (pool : BufferPool) (disk : Disk) (fi : Nat) (pool' : BufferPool)
    (disk' : Disk) : Prop extends Orderly size pool' where
  inside : fi < pool.frames.length
  free : (pool.frame fi).pins = 0
  vacant : (pool'.frame fi).id = kNullPage
  cleared : pool.Cleared disk pool'.pager disk'
  kept : ∀ other, 0 < (pool.frame other).pins → pool'.frame other = pool.frame other
  absent : ∀ id, pool.table.lookup id = none → pool'.table.lookup id = none

theorem Vacated.swept {pool'' : BufferPool} (swept : Swept pool pool')
    (vacated : Vacated size pool' disk fi pool'' disk') : Vacated size pool disk fi pool'' disk' := by
  have pins := fun fi => (swept.frames fi).2.2.1
  refine ⟨vacated.toOrderly, swept.size ▸ vacated.inside, pins fi ▸ vacated.free, vacated.vacant,
    vacated.cleared.alike swept.toAlike, ?_, ?_⟩
  · intro other held
    rw [vacated.kept other (pins other ▸ held), swept.pinned other held]
  · intro id none
    exact vacated.absent id (swept.table ▸ none)

theorem Vacated.dropped {pager : Pager} (orderly : Orderly size pool)
    (real : (pool.frame fi).id ≠ kNullPage) (free : (pool.frame fi).pins = 0)
    (cleared : pool.Cleared disk pager disk') :
    Vacated size pool disk fi (BufferPool.dropped { pool with pager } fi) disk' := by
  have inside := inside_of_id real
  have frames := fun other =>
    @frame_dropped { pool with pager } fi inside other
  refine ⟨(orderly.pager pager).dropped real free, inside, free, ?_, cleared, ?_, ?_⟩
  · rw [frames, if_pos rfl]
  · intro other held
    have apart : fi ≠ other := by
      intro same
      rw [← same, free] at held
      exact absurd held (Nat.lt_irrefl 0)
    rw [frames, if_neg apart]
    rfl
  · intro id none
    rw [lookup_dropped]
    split
    · rfl
    · exact none

/-- What an exception leaves on the way to a frame for the page. -/
def Stopped (size : Nat) (pool : BufferPool) (disk : Disk) (id : PageId) (error : Error)
    (pool' : BufferPool) : Prop :=
  Orderly size pool' ∧ pool.Refuses disk id error

private theorem always_evict (orderly : Orderly size pool) (free : (pool.frame fi).pins = 0)
    (inside : fi < pool.frames.length) :
    (evict fi).Always (fun _ => Vacated size pool disk fi)
      (fun error pool' _ => Stopped size pool disk id error pool') pool disk := by
  unfold evict
  rw [Prog.Always, Prog.wp_bind, Prog.wp_get, Prog.wp_ite]
  split
  · rename_i vacant
    exact ⟨orderly, inside, free, vacant, .inl ⟨rfl, rfl⟩, fun _ _ => rfl, fun _ none => none⟩
  · rename_i real
    rw [Prog.wp_bind, Prog.wp_when]
    split
    · rename_i dirty
      rw [onPager, Prog.wp_zoom]
      apply Prog.wp_mono Prog.wp_ends
      · intro _ pager disk' wrote
        rw [wp_drop]
        exact .dropped orderly real free (.inr ⟨fi, free, dirty, wrote⟩)
      · intro error pager disk' raised
        exact ⟨orderly.pager pager, .victim fi free dirty pager disk' raised⟩
      · exact fun _ _ asked => asked
    · rw [wp_drop]
      exact .dropped orderly real free (.inl ⟨rfl, rfl⟩)

private theorem always_freeFrame (orderly : Orderly size pool) :
    freeFrame.Always (Vacated size pool disk)
      (fun error pool' _ => Stopped size pool disk id error pool') pool disk := by
  unfold freeFrame
  rw [Prog.Always, Prog.wp_bind, Prog.wp_get]
  split
  · rename_i fi found
    obtain ⟨inside, empty, _⟩ := List.findIdx?_eq_some_iff_getElem.mp found
    have empty := of_decide_eq_true empty
    have same : pool.frames[fi] = pool.frame fi := by
      simp [BufferPool.frame, List.getD_eq_getElem?_getD, inside]
    rw [same] at empty
    exact ⟨orderly, inside, empty.2, empty.1, .inl ⟨rfl, rfl⟩, fun _ _ => rfl, fun _ none => none⟩
  · obtain ⟨result, pool', chosen, swept, result_⟩ := chooseVictim_eq orderly.hand
    rw [Prog.wp_bind, Prog.wp, chosen]
    have orderly' := orderly.alike swept.toAlike
    cases result with
    | ok fi =>
      have free : (pool'.frame fi).pins = 0 := by
        rw [(swept.frames fi).2.2.1]
        exact result_.2
      dsimp only [Action.wp]
      rw [Prog.wp_bind]
      apply Prog.wp_mono (always_evict orderly' free (swept.size ▸ result_.1))
      · exact fun _ _ _ vacated => vacated.swept swept
      · exact fun _ _ _ stopped => ⟨stopped.1, stopped.2.alike swept.toAlike⟩
      · exact fun _ _ asked => asked
    | error error => exact ⟨orderly', .crowded result_.1 result_.2⟩

/-- A miss ends with the page in a frame, or with an exception that has a cause. -/
theorem always_miss {loadFromDisk : Bool} (orderly : Orderly size pool)
    (absent : pool.table.lookup id = none) (real : loadFromDisk = false → id ≠ kNullPage) :
    (obtain id loadFromDisk).Always
      (fun fi pool' _ => Orderly size pool' ∧ Placed pool id fi pool')
      (fun error pool' _ => Stopped size pool disk id error pool') pool disk := by
  have placed : ∀ {fi pool' disk'} {pager : Pager} {page : Page}, Vacated size pool disk fi pool' disk' →
      id ≠ kNullPage → Orderly size (BufferPool.filled { pool' with pager } fi id page) ∧
        Placed pool id fi (BufferPool.filled { pool' with pager } fi id page) := by
    intro fi pool' disk' pager page vacated real
    have orderly' := vacated.toOrderly.pager pager
    have inside : fi < pool'.frames.length := by
      rw [vacated.size, ← orderly.size]
      exact vacated.inside
    have frames := @frame_filled { pool' with pager } fi id inside page
    refine ⟨⟨orderly'.toLinked.filled inside vacated.vacant (vacated.absent id absent) real page,
      List.length_set.trans vacated.size⟩, vacated.inside, vacated.free, ?_, ?_,
      AList.lookup_insert .., ?_⟩
    · rw [frames, if_pos rfl]
    · rw [frames, if_pos rfl]
    · intro other held
      have apart : fi ≠ other := by
        intro same
        rw [← same, vacated.free] at held
        exact absurd held (Nat.lt_irrefl 0)
      rw [frames, if_neg apart]
      exact vacated.kept other held
  unfold obtain
  rw [Prog.Always, Prog.wp_bind, Prog.wp_get, absent]
  dsimp only
  rw [Prog.wp_bind]
  apply Prog.wp_mono (always_freeFrame orderly)
  · intro fi pool' disk' vacated
    cases loadFromDisk with
    | false =>
      rw [if_neg Bool.false_ne_true]
      exact placed vacated (real rfl)
    | true =>
      rw [if_pos rfl, Prog.wp_bind, onPager, Prog.wp_zoom]
      apply Prog.wp_mono (Prog.wp_and Prog.wp_ends Pager.always_readPage)
      · exact fun page pager disk'' read => placed vacated read.2
      · intro error pager disk'' raised
        exact ⟨vacated.toOrderly.pager pager, .page _ pager disk' disk'' vacated.cleared raised.1⟩
      · exact fun _ _ _ => trivial
  · exact fun _ _ _ stopped => stopped
  · exact fun _ _ asked => asked

end Misses

end Labdb.Pool.BufferPool
