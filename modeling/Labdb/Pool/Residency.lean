import Labdb.Pool.Misses

/-! Which page is in which frame: no call on the pool, however it ends, puts two pages into
one frame or one page into two. -/

namespace Labdb.Pool.BufferPool

open Labdb.Program Labdb.Storage

variable {pool pool' : BufferPool} {disk disk' : Disk} {fi : Nat} {id : PageId} {size : Nat}

section Calls

/-- A page in a frame: pinned once more where it is, or loaded. -/
theorem always_obtain {loadFromDisk : Bool} (orderly : Orderly size pool)
    (real : loadFromDisk = false → pool.table.lookup id = none → id ≠ kNullPage) :
    (obtain id loadFromDisk).Always
      (fun fi pool' _ => Orderly size pool' ∧ pool'.table.lookup id = some fi)
      (fun _ pool' _ => Orderly size pool') pool disk := by
  cases found : pool.table.lookup id with
  | some fi =>
    obtain ⟨same, some, inside⟩ := orderly.frame_id found
    rw [Prog.Always, wp_obtain_resident found]
    exact ⟨orderly.put (same ▸ some) rfl (orderly.listed fi), found⟩
  | none =>
    apply Prog.wp_mono (always_miss orderly found fun load => real load found)
    · exact fun fi pool' _ ended => ⟨ended.1, ended.2.found⟩
    · exact fun _ _ _ stopped => stopped.1
    · exact fun _ _ asked => asked

private theorem always_load (orderly : Orderly size pool) :
    (obtain id true).Always
      (fun fi pool' _ => Orderly size pool' ∧ pool'.table.lookup id = some fi)
      (fun _ pool' _ => Orderly size pool') pool disk :=
  always_obtain orderly fun same => absurd same.symm Bool.false_ne_true

theorem Orderly.released (orderly : Orderly size pool) (found : pool.table.lookup id = some fi) :
    Orderly size (pool.released fi) := by
  obtain ⟨same, real, inside⟩ := orderly.frame_id found
  exact orderly.put (same ▸ real) rfl (orderly.listed fi)

theorem Orderly.marked (orderly : Orderly size pool) (found : pool.table.lookup id = some fi) :
    Orderly size (pool.marked fi) :=
  ⟨orderly.toLinked.marked found, length_marked.trans orderly.size⟩

theorem Orderly.dirtied (orderly : Orderly size pool) (found : pool.table.lookup id = some fi) :
    Orderly size ((pool.marked fi).released fi) :=
  (orderly.marked found).released ((lookup_marked id).trans found)

private theorem orderly_readPage : Prog.Preserves (Orderly size) (readPage id) := by
  intro pool disk orderly
  unfold readPage
  rw [Prog.Always, Prog.wp_bind]
  apply Prog.wp_mono (always_load orderly)
  · intro fi pool' disk' held
    rw [Prog.wp_bind, Prog.wp_get, Prog.wp_bind, wp_release]
    exact held.1.released held.2
  · exact fun _ _ _ orderly => orderly
  · exact fun _ _ asked => asked

private theorem orderly_fetchPin : Prog.Preserves (Orderly size) (fetchPin id) := by
  intro pool disk orderly
  unfold fetchPin
  rw [Prog.Always, Prog.wp_bind]
  apply Prog.wp_mono (always_load orderly)
  · exact fun fi pool' disk' held => held.1
  · exact fun _ _ _ orderly => orderly
  · exact fun _ _ asked => asked

private theorem orderly_assign {page : Page} : Prog.Preserves (Orderly size) (assign id page) := by
  intro pool disk orderly
  unfold assign
  rw [Prog.Always, Prog.wp_bind, Prog.wp_get]
  split
  · rename_i fi found
    obtain ⟨same, real, inside⟩ := orderly.frame_id found
    exact orderly.put (same ▸ real) rfl (orderly.listed fi)
  · exact orderly

private theorem orderly_unpin {dirty : Bool} : Prog.Preserves (Orderly size) (unpin id dirty) := by
  intro pool disk orderly
  unfold unpin
  rw [Prog.Always, Prog.wp_bind, Prog.wp_get]
  split
  · exact orderly
  · rename_i fi found
    rw [Prog.wp_bind, wp_checkThat]
    split
    · rw [Prog.wp_bind, Prog.wp_when]
      split
      · rw [wp_markDirty, wp_release]
        exact orderly.dirtied found
      · rw [wp_release]
        exact orderly.released found
    · exact orderly

private theorem orderly_writePage {page : Page} (real : id ≠ kNullPage) :
    Prog.Preserves (Orderly size) (writePage id page) := by
  intro pool disk orderly
  unfold writePage
  rw [Prog.Always, Prog.wp_bind, Prog.wp_get, Prog.wp_bind]
  apply Prog.wp_mono (always_obtain orderly fun _ _ => real)
  · intro fi pool' disk' held
    obtain ⟨same, some, inside⟩ := held.1.frame_id held.2
    rw [Prog.wp_bind, Prog.wp_modify, Prog.wp_bind, wp_markDirty, wp_release]
    have put : Orderly size (pool'.put fi { pool'.frame fi with page }) :=
      held.1.put (same ▸ some) rfl (held.1.listed fi)
    exact put.dirtied held.2
  · exact fun _ _ _ orderly => orderly
  · exact fun _ _ asked => asked

theorem always_allocatePage (orderly : Orderly size pool) (counted : pool.pager.Counted) :
    allocatePage.Always (fun _ pool' _ => Orderly size pool') (fun _ pool' _ => Orderly size pool')
      pool disk := by
  unfold allocatePage
  rw [Prog.Always, Prog.wp_bind, onPager, Prog.wp_zoom]
  apply Prog.wp_mono (Pager.always_allocatePage counted)
  · intro id pager disk' real
    rw [Prog.wp_bind]
    apply Prog.wp_mono (always_obtain (orderly.pager pager) fun _ _ => real)
    · intro fi pool' disk'' held
      rw [Prog.wp_bind, wp_markDirty, Prog.wp_bind, wp_release]
      exact held.1.dirtied held.2
    · exact fun _ _ _ orderly => orderly
    · exact fun _ _ asked => asked
  · exact fun _ pager _ _ => orderly.pager pager
  · exact fun _ _ asked => asked

private theorem orderly_onPager {α : Type} {program : PagerM α} :
    Prog.Preserves (Orderly size) (onPager program) :=
  .zoom fun pager _ orderly => orderly.pager pager

private theorem orderly_freePage : Prog.Preserves (Orderly size) (freePage id) := by
  intro pool disk orderly
  unfold freePage
  rw [Prog.Always, Prog.wp_bind, Prog.wp_get]
  dsimp only
  split
  · rename_i fi found
    obtain ⟨same, real, inside⟩ := orderly.frame_id found
    rw [Prog.wp_bind, wp_checkThat]
    split
    · rename_i free
      have free := of_decide_eq_true free
      rw [Prog.wp_bind, Prog.wp_set, Prog.wp_bind, wp_drop]
      have blank : Orderly size (pool.put fi { pool.frame fi with page := {} }) :=
        orderly.put (same ▸ real) rfl (orderly.listed fi)
      have frame := @frame_put pool fi fi { pool.frame fi with page := {} } inside
      rw [if_pos rfl] at frame
      refine orderly_onPager _ _ (blank.dropped ?_ ?_)
      · rw [frame]
        exact same ▸ real
      · rw [frame]
        exact free
    · exact orderly
  · exact orderly_onPager _ _ orderly

/-- Frames of a list are clean now, if they were not before. -/
structure Cleaned (size : Nat) (frames : List Nat) (pool pool' : BufferPool) : Prop
    extends Orderly size pool' where
  clean : ∀ fi, (pool'.frame fi).dirty = true → (pool.frame fi).dirty = true ∧ fi ∉ frames

theorem Cleaned.cons {pool'' : BufferPool} {rest : List Nat} (first : Cleaned size [fi] pool pool')
    (later : Cleaned size rest pool' pool'') : Cleaned size (fi :: rest) pool pool'' := by
  refine ⟨later.toOrderly, fun other dirty => ?_⟩
  obtain ⟨still, apart⟩ := later.clean other dirty
  obtain ⟨before, different⟩ := first.clean other still
  exact ⟨before, List.not_mem_cons_of_ne_of_not_mem (List.ne_of_not_mem_cons different) apart⟩

/-- A frame that is empty or clean needs nothing. -/
theorem Cleaned.skip (orderly : Orderly size pool)
    (clean : ¬ ((pool.frame fi).id ≠ kNullPage ∧ (pool.frame fi).dirty = true)) :
    Cleaned size [fi] pool pool := by
  refine ⟨orderly, fun other dirty => ⟨dirty, fun member => ?_⟩⟩
  obtain rfl := List.mem_singleton.mp member
  apply clean
  constructor
  · intro vacant
    rw [(orderly.empty other vacant).1] at dirty
    exact Bool.false_ne_true dirty
  · exact dirty

theorem Cleaned.put {pager : Pager} (orderly : Orderly size pool)
    (real : (pool.frame fi).id ≠ kNullPage) :
    Cleaned size [fi] pool
      (BufferPool.put { pool with pager } fi { pool.frame fi with dirty := false }) := by
  refine ⟨(orderly.pager pager).put real rfl (absurd · Bool.false_ne_true), fun other dirty => ?_⟩
  rw [@frame_put { pool with pager } fi other _ (inside_of_id real)] at dirty
  split at dirty
  · exact absurd dirty Bool.false_ne_true
  · rename_i apart
    exact ⟨dirty, fun member => apart (List.mem_singleton.mp member).symm⟩

theorem Cleaned.dropped (orderly : Orderly size pool) (real : (pool.frame fi).id ≠ kNullPage)
    (free : (pool.frame fi).pins = 0) : Cleaned size [fi] pool (pool.dropped fi) := by
  refine ⟨orderly.dropped real free, fun other dirty => ?_⟩
  rw [frame_dropped (inside_of_id real)] at dirty
  split at dirty
  · exact absurd dirty Bool.false_ne_true
  · rename_i apart
    exact ⟨dirty, fun member => apart (List.mem_singleton.mp member).symm⟩

/-- Once all that is listed is clean, nothing need be. -/
theorem Cleaned.unlisted (cleaned : Cleaned size pool.dirtyList pool pool')
    (orderly : Orderly size pool) : Orderly size { pool' with dirtyList := [] } := by
  refine ⟨cleaned.toLinked.unlisted fun fi => ?_, cleaned.size⟩
  by_contra dirty
  obtain ⟨before, unlisted⟩ := cleaned.clean fi (by simpa using dirty)
  exact unlisted (orderly.listed fi before)

private theorem always_writeBack (listed : List Nat) (orderly : Orderly size pool) :
    (writeBack listed).Always (fun _ pool' _ => Cleaned size listed pool pool')
      (fun _ pool' _ => Orderly size pool') pool disk := by
  induction listed generalizing pool disk with
  | nil => exact ⟨orderly, fun _ dirty => ⟨dirty, List.not_mem_nil⟩⟩
  | cons fi rest ih =>
    have later : ∀ {pool' disk'}, Cleaned size [fi] pool pool' →
        (writeBack rest).Always (fun _ pool'' _ => Cleaned size (fi :: rest) pool pool'')
          (fun _ pool'' _ => Orderly size pool'') pool' disk' := by
      intro pool' disk' first
      apply Prog.wp_mono (ih first.toOrderly)
      · exact fun _ _ _ later => first.cons later
      · exact fun _ _ _ orderly => orderly
      · exact fun _ _ asked => asked
    unfold writeBack
    rw [Prog.Always, Prog.wp_bind, Prog.wp_get, Prog.wp_bind, Prog.wp_when]
    split
    · rename_i listed
      rw [Prog.wp_bind, onPager, Prog.wp_zoom]
      apply Prog.wp_mono Prog.wp_ends
      · exact fun _ pager _ _ => later (.put orderly listed.1)
      · exact fun _ pager _ _ => orderly.pager pager
      · exact fun _ _ asked => asked
    · exact later (.skip orderly ‹_›)

private theorem orderly_commit : Prog.Preserves (Orderly size) commit := by
  intro pool disk orderly
  unfold commit
  rw [Prog.Always, Prog.wp_bind, Prog.wp_get, Prog.wp_bind]
  apply Prog.wp_mono (always_writeBack _ orderly)
  · intro _ pool' disk' cleaned
    rw [Prog.wp_bind, Prog.wp_modify]
    exact orderly_onPager _ _ (cleaned.unlisted orderly)
  · exact fun _ _ _ orderly => orderly
  · exact fun _ _ asked => asked

private theorem always_dropDirty (listed : List Nat) (orderly : Orderly size pool) :
    (dropDirty listed).Always (fun _ pool' _ => Cleaned size listed pool pool')
      (fun _ pool' _ => Orderly size pool') pool disk := by
  induction listed generalizing pool disk with
  | nil => exact ⟨orderly, fun _ dirty => ⟨dirty, List.not_mem_nil⟩⟩
  | cons fi rest ih =>
    have later : ∀ {pool' disk'}, Cleaned size [fi] pool pool' →
        (dropDirty rest).Always (fun _ pool'' _ => Cleaned size (fi :: rest) pool pool'')
          (fun _ pool'' _ => Orderly size pool'') pool' disk' := by
      intro pool' disk' first
      apply Prog.wp_mono (ih first.toOrderly)
      · exact fun _ _ _ later => first.cons later
      · exact fun _ _ _ orderly => orderly
      · exact fun _ _ asked => asked
    unfold dropDirty
    rw [Prog.Always, Prog.wp_bind, Prog.wp_get, Prog.wp_bind, Prog.wp_when]
    split
    · rename_i listed
      rw [Prog.wp_bind, wp_checkThat]
      split
      · rename_i free
        rw [wp_drop]
        exact later (.dropped orderly listed.1 (of_decide_eq_true free))
      · exact orderly
    · exact later (.skip orderly ‹_›)

private theorem orderly_dropPending (ids : List PageId) :
    Prog.Preserves (Orderly size) (dropPending ids) := by
  induction ids with
  | nil => exact .ret ()
  | cons id rest ih =>
    intro pool disk orderly
    unfold dropPending
    rw [Prog.Always, Prog.wp_bind, Prog.wp_get]
    dsimp only
    split
    · exact ih _ _ orderly
    · rename_i fi found
      obtain ⟨same, real, inside⟩ := orderly.frame_id found
      rw [Prog.wp_bind, wp_checkThat]
      split
      · rename_i free
        rw [Prog.wp_bind, wp_drop]
        exact ih _ _ (orderly.dropped (same ▸ real) (of_decide_eq_true free))
      · exact orderly

private theorem orderly_rollback : Prog.Preserves (Orderly size) rollback := by
  intro pool disk orderly
  unfold rollback
  rw [Prog.Always, Prog.wp_bind, Prog.wp_get, Prog.wp_bind]
  apply Prog.wp_mono (always_dropDirty _ orderly)
  · intro _ pool' disk' cleaned
    rw [Prog.wp_bind, Prog.wp_modify, Prog.wp_bind, Prog.wp_get, Prog.wp_bind]
    apply Prog.wp_mono (orderly_dropPending _ _ _ (cleaned.unlisted orderly))
    · exact fun _ _ _ orderly => orderly_onPager _ _ orderly
    · exact fun _ _ _ orderly => orderly
    · exact fun _ _ asked => asked
  · exact fun _ _ _ orderly => orderly
  · exact fun _ _ asked => asked

end Calls

section Paged

/-- The pager below counts page 0. -/
def Paged (pool : BufferPool) : Prop := pool.pager.Counted

private theorem paged_onPager {α : Type} {program : PagerM α}
    (keeps : Prog.Preserves Pager.Counted program) : Prog.Preserves Paged (onPager program) := by
  intro pool disk paged
  rw [Prog.Always, onPager, Prog.wp_zoom]
  exact keeps pool.pager disk paged

private theorem paged_checkThat {ok : Bool} {what : String} :
    Prog.Preserves Paged (checkThat ok what : PoolM Unit) := by
  unfold checkThat
  split
  · exact .ret ()
  · exact .raise _

private theorem paged_chooseVictim : Prog.Preserves Paged chooseVictim := by
  unfold chooseVictim
  apply Prog.Preserves.get
  intro pool paged
  dsimp only
  apply Prog.Preserves.bind
  · exact .set paged
  · intro _
    split
    · exact .ret _
    · exact .raise _

private theorem paged_drop : Prog.Preserves Paged (drop fi) := by
  unfold drop
  apply Prog.Preserves.get
  intro pool paged
  exact .set paged

private theorem paged_freeFrame : Prog.Preserves Paged freeFrame := by
  have evicts : ∀ fi, Prog.Preserves Paged (evict fi) := by
    intro fi
    unfold evict
    apply Prog.Preserves.get
    intro pool _
    dsimp only
    split
    · exact .ret ()
    · exact (paged_onPager Pager.counted_writePage).when.bind fun _ => paged_drop
  unfold freeFrame
  apply Prog.Preserves.get
  intro pool _
  split
  · exact .ret _
  · exact paged_chooseVictim.bind fun fi => (evicts fi).bind fun _ => .ret fi

theorem paged_obtain {loadFromDisk : Bool} : Prog.Preserves Paged (obtain id loadFromDisk) := by
  have fills : ∀ fi page, Prog.Preserves Paged (do
      Prog.modify fun pool => { pool with
        frames := pool.frames.set fi { page, id, pins := 1, dirty := false, ref := true }
        table := pool.table.insert id fi }
      pure fi : PoolM Nat) := by
    intro fi page
    apply Prog.Preserves.bind
    · exact .modify fun _ paged => paged
    · exact fun _ => .ret fi
  unfold obtain
  apply Prog.Preserves.get
  intro pool paged
  split
  · apply Prog.Preserves.bind
    · exact .set paged
    · exact fun _ => .ret _
  · apply paged_freeFrame.bind
    intro fi
    dsimp only
    split
    · exact (paged_onPager Pager.counted_readPage).bind (fills fi)
    · have blank : Prog.Preserves Paged (pure { id } : PoolM Page) := .ret _
      exact blank.bind (fills fi)

private theorem paged_release : Prog.Preserves Paged (release fi) := .modify fun _ paged => paged

private theorem paged_markDirty : Prog.Preserves Paged (markDirty fi) := by
  unfold markDirty
  apply Prog.Preserves.get
  intro pool paged
  apply Prog.Preserves.when
  exact .set paged

private theorem paged_fetchPin : Prog.Preserves Paged (fetchPin id) := by
  unfold fetchPin
  exact paged_obtain.bind fun _ => .get fun _ _ => .ret _

private theorem paged_assign {page : Page} : Prog.Preserves Paged (assign id page) := by
  unfold assign
  apply Prog.Preserves.get
  intro pool paged
  split
  · exact .set paged
  · exact .ret ()

private theorem paged_unpin {dirty : Bool} : Prog.Preserves Paged (unpin id dirty) := by
  unfold unpin
  apply Prog.Preserves.get
  intro pool _
  split
  · exact .raise _
  · apply paged_checkThat.bind
    intro _
    exact paged_markDirty.when.bind fun _ => paged_release

private theorem paged_readPage : Prog.Preserves Paged (readPage id) := by
  unfold readPage
  apply paged_obtain.bind
  intro fi
  apply Prog.Preserves.get
  intro pool _
  exact paged_release.bind fun _ => .ret _

private theorem paged_writePage {page : Page} : Prog.Preserves Paged (writePage id page) := by
  unfold writePage
  apply Prog.Preserves.get
  intro pool _
  apply paged_obtain.bind
  intro fi
  apply Prog.Preserves.bind
  · exact .modify fun _ paged => paged
  · exact fun _ => paged_markDirty.bind fun _ => paged_release

private theorem paged_allocatePage (paged : pool.Paged) (fits : pool.pager.meta_.Fits) :
    allocatePage.Always (fun _ pool' _ => pool'.Paged) (fun _ pool' _ => pool'.Paged) pool disk := by
  have enters : ∀ id, Prog.Preserves Paged (do
      let fi ← obtain id false
      markDirty fi
      release fi
      pure id : PoolM PageId) := by
    intro id
    apply paged_obtain.bind
    intro fi
    exact paged_markDirty.bind fun _ => paged_release.bind fun _ => .ret id
  unfold allocatePage
  rw [Prog.Always, Prog.wp_bind, onPager, Prog.wp_zoom]
  apply Prog.wp_mono (Pager.counted_allocatePage paged fits)
  · exact fun id pager disk' counted => enters id _ _ counted
  · exact fun _ _ _ counted => counted
  · exact fun _ _ asked => asked

private theorem paged_freePage : Prog.Preserves Paged (freePage id) := by
  unfold freePage
  apply Prog.Preserves.get
  intro pool paged
  dsimp only
  split
  · apply paged_checkThat.bind
    intro _
    apply Prog.Preserves.bind
    · exact .set paged
    · exact fun _ => paged_drop.bind fun _ => paged_onPager Pager.counted_freePage
  · exact paged_onPager Pager.counted_freePage

private theorem paged_commit : Prog.Preserves Paged commit := by
  have writes : ∀ listed, Prog.Preserves Paged (writeBack listed) := by
    intro listed
    induction listed with
    | nil => exact .ret ()
    | cons fi rest ih =>
      unfold writeBack
      apply Prog.Preserves.get
      intro pool _
      apply Prog.Preserves.bind
      · apply Prog.Preserves.when
        exact (paged_onPager Pager.counted_writePage).bind fun _ => .modify fun _ paged => paged
      · exact fun _ => ih
  unfold commit
  apply Prog.Preserves.get
  intro pool _
  apply (writes _).bind
  intro _
  apply Prog.Preserves.bind
  · exact .modify fun _ paged => paged
  · exact fun _ => paged_onPager Pager.counted_commit

private theorem paged_rollback : Prog.Preserves Paged rollback := by
  have dirty : ∀ listed, Prog.Preserves Paged (dropDirty listed) := by
    intro listed
    induction listed with
    | nil => exact .ret ()
    | cons fi rest ih =>
      unfold dropDirty
      apply Prog.Preserves.get
      intro pool _
      exact (paged_checkThat.bind fun _ => paged_drop).when.bind fun _ => ih
  have pending : ∀ ids, Prog.Preserves Paged (dropPending ids) := by
    intro ids
    induction ids with
    | nil => exact .ret ()
    | cons id rest ih =>
      unfold dropPending
      apply Prog.Preserves.get
      intro pool _
      dsimp only
      split
      · exact ih
      · exact paged_checkThat.bind fun _ => paged_drop.bind fun _ => ih
  unfold rollback
  apply Prog.Preserves.get
  intro pool _
  apply (dirty _).bind
  intro _
  apply Prog.Preserves.bind
  · exact .modify fun _ paged => paged
  · intro _
    apply Prog.Preserves.get
    intro pool _
    exact (pending _).bind fun _ => paged_onPager Pager.counted_rollback

end Paged

section Runs

/-- A call on a pool; `assign` is a caller's write through the reference of a pinned page. -/
inductive Call where
  | fetchPin (id : PageId)
  | assign (id : PageId) (page : Page)
  | unpin (id : PageId) (dirty : Bool)
  | readPage (id : PageId)
  | writePage (id : PageId) (page : Page)
  | allocatePage
  | freePage (id : PageId)
  | commit
  | rollback
  | sync
  deriving DecidableEq, Repr

def Call.program : Call → PoolM Unit
  | .fetchPin id => do let _ ← BufferPool.fetchPin id
  | .assign id page => BufferPool.assign id page
  | .unpin id dirty => BufferPool.unpin id dirty
  | .readPage id => do let _ ← BufferPool.readPage id
  | .writePage id page => BufferPool.writePage id page
  | .allocatePage => do let _ ← BufferPool.allocatePage
  | .freePage id => BufferPool.freePage id
  | .commit => BufferPool.commit
  | .rollback => BufferPool.rollback
  | .sync => BufferPool.sync

/-- The id that is written is a page's. -/
def Call.Real : Call → Prop
  | .writePage id _ => id ≠ kNullPage
  | _ => True

/-- Every frame can be pinned once more: an `int` counts its pins. -/
def PinsFit (pool : BufferPool) : Prop := ∀ frame ∈ pool.frames, frame.pins < intMax

instance : Decidable pool.PinsFit := inferInstanceAs (Decidable (∀ _ ∈ _, _))

/-- The call counts no further than its numbers go: the pins of a frame, the ids of pages. -/
def Call.Fits (pool : BufferPool) : Call → Prop
  | .fetchPin _ | .readPage _ | .writePage _ _ => pool.PinsFit
  | .allocatePage => pool.PinsFit ∧ pool.pager.meta_.Fits
  | _ => True

instance Call.decidableFits (pool : BufferPool) : (call : Call) → Decidable (call.Fits pool)
  | .fetchPin _ | .readPage _ | .writePage _ _ => inferInstanceAs (Decidable pool.PinsFit)
  | .allocatePage => inferInstanceAs (Decidable (_ ∧ _))
  | .assign _ _ | .unpin _ _ | .freePage _ | .commit | .rollback | .sync => isTrue trivial

/-- The pool after calls, each under its own schedule of fates. An exception leaves the
pool to the next call, a death leaves none. -/
def runCalls : List (Call × List Fate) → BufferPool → Disk → Option BufferPool × Disk
  | [], pool, disk => (some pool, disk)
  | (call, fates) :: rest, pool, disk =>
    match call.program.run fates pool disk with
    | (.returned _ pool, disk) => runCalls rest pool disk
    | (.raised _ pool, disk) => runCalls rest pool disk
    | (.died, disk) => (none, disk)

/-- Every call counts no further than its numbers go when it is made. -/
def CallsFit : List (Call × List Fate) → BufferPool → Disk → Prop
  | [], _, _ => True
  | (call, fates) :: rest, pool, disk =>
    call.Fits pool ∧
      match call.program.run fates pool disk with
      | (.returned _ pool, disk) => CallsFit rest pool disk
      | (.raised _ pool, disk) => CallsFit rest pool disk
      | (.died, _) => True

instance decidableCallsFit :
    (calls : List (Call × List Fate)) → (pool : BufferPool) → (disk : Disk) →
      Decidable (CallsFit calls pool disk)
  | [], _, _ => isTrue trivial
  | (call, fates) :: rest, pool, disk => by
    unfold CallsFit
    have := decidableCallsFit rest
    split <;> infer_instance

/-- What holds between the calls. -/
structure Seated (size : Nat) (pool : BufferPool) : Prop extends Orderly size pool where
  paged : pool.Paged

theorem seated_of {α : Type} {program : PoolM α} (orderly : Prog.Preserves (Orderly size) program)
    (paged : Prog.Preserves Paged program) : Prog.Preserves (Seated size) program := by
  intro pool disk seated
  apply Prog.wp_mono
    (Prog.wp_and (orderly pool disk seated.toOrderly) (paged pool disk seated.paged))
  · exact fun _ _ _ both => ⟨both.1, both.2⟩
  · exact fun _ _ _ both => ⟨both.1, both.2⟩
  · exact fun _ _ _ => trivial

private theorem seated_call (call : Call) (real : call.Real) (fits : call.Fits pool)
    (seated : Seated size pool) :
    call.program.Always (fun _ pool' _ => Seated size pool') (fun _ pool' _ => Seated size pool')
      pool disk := by
  have served : ∀ {program : PoolM Unit}, Prog.Preserves (Seated size) program →
      program.Always (fun _ pool' _ => Seated size pool') (fun _ pool' _ => Seated size pool')
        pool disk := fun keeps => keeps pool disk seated
  cases call with
  | fetchPin id =>
    exact served <| (seated_of orderly_fetchPin paged_fetchPin).bind fun _ => .ret ()
  | assign id page => exact served (seated_of orderly_assign paged_assign)
  | unpin id dirty => exact served (seated_of orderly_unpin paged_unpin)
  | readPage id =>
    exact served <| (seated_of orderly_readPage paged_readPage).bind fun _ => .ret ()
  | writePage id page => exact served (seated_of (orderly_writePage real) paged_writePage)
  | allocatePage =>
    rw [Call.program, Prog.Always, Prog.wp_bind]
    apply Prog.wp_mono (Prog.wp_and (always_allocatePage seated.toOrderly seated.paged)
      (paged_allocatePage seated.paged fits.2))
    · exact fun _ _ _ both => ⟨both.1, both.2⟩
    · exact fun _ _ _ both => ⟨both.1, both.2⟩
    · exact fun _ _ _ => trivial
  | freePage id => exact served (seated_of orderly_freePage paged_freePage)
  | commit => exact served (seated_of orderly_commit paged_commit)
  | rollback => exact served (seated_of orderly_rollback paged_rollback)
  | sync =>
    have commits := @seated_of size _ _ orderly_commit paged_commit
    exact served <| commits.bind fun _ =>
      seated_of orderly_onPager (paged_onPager Pager.counted_sync)

private theorem run_seated {calls : List (Call × List Fate)} (real : ∀ call ∈ calls, call.1.Real)
    (fits : CallsFit calls pool disk) (seated : Seated size pool)
    (ran : runCalls calls pool disk = (some pool', disk')) : Seated size pool' := by
  induction calls generalizing pool disk with
  | nil =>
    cases ran
    exact seated
  | cons call rest ih =>
    obtain ⟨call, fates⟩ := call
    obtain ⟨fits, later⟩ := fits
    have kept : Prog.Meets (fun _ pool _ => Seated size pool) (fun _ pool _ => Seated size pool)
        (fun _ => True) (call.program.run fates pool disk) :=
      Prog.run_of_wp_any (seated_call call (real (call, fates) List.mem_cons_self) fits seated)
    replace real : ∀ call ∈ rest, call.1.Real :=
      fun call member => real call (List.mem_cons_of_mem _ member)
    rw [runCalls] at ran
    rcases ended : call.program.run fates pool disk with ⟨⟨_, next⟩ | ⟨_, next⟩ | _, after⟩ <;>
      rw [ended] at kept ran later
    · exact ih real later kept ran
    · exact ih real later kept ran
    · exact absurd ran (by simp)

private theorem seated_construct {pager : Pager} {capacity : Nat} (room : 1 ≤ capacity)
    (counted : pager.Counted) : Seated capacity (construct pager capacity) :=
  ⟨⟨linked_construct room, List.length_replicate⟩, counted⟩

end Runs

section Residency

/-- The table finds each page that is in a frame, and a frame holds the page it is found by. -/
structure Resident (pool : BufferPool) : Prop where
  frame : ∀ id fi, pool.table.lookup id = some fi →
    fi < pool.frames.length ∧ (pool.frame fi).id = id
  page : ∀ fi, (pool.frame fi).id ≠ kNullPage →
    pool.table.lookup (pool.frame fi).id = some fi

theorem Linked.resident (linked : pool.Linked) : pool.Resident := by
  constructor
  · intro id fi found
    obtain ⟨same, _, inside⟩ := linked.frame_id found
    exact ⟨inside, same⟩
  · intro fi real
    exact (linked.table _ fi).mpr ⟨real, rfl⟩

/-- Every pager that a history of processes leaves open counts page 0, where page ids fit in
32 bits. -/
theorem counted_of_history {history : List Step} (calm : ∀ step ∈ history, step.Calm)
    (fits : System.Fits {} history) {pager : Pager} (opened : (history.foldl System.step {}).pager = some pager) :
    pager.Counted := by
  have valid := System.run_valid calm fits
  clear fits
  generalize history.foldl System.step {} = system at *
  obtain ⟨disk, open_, ledger⟩ := system
  cases opened
  exact valid.2.isCounted

/-- What the clock chooses, where a miss ends, and where the pages are after any calls. -/
theorem victims_and_residents {pager : Pager} (counted : pager.Counted) {capacity : Nat}
    (room : 1 ≤ capacity) {calls : List (Call × List Fate)}
    (real : ∀ call ∈ calls, call.1.Real) (fits : CallsFit calls (construct pager capacity) disk)
    (ran : runCalls calls (construct pager capacity) disk = (some pool, disk')) :
    (∀ pool : BufferPool, pool.hand < pool.frames.length →
      ∃ result pool', chooseVictim pool = .ret (result, pool') ∧ Swept pool pool' ∧
        pool.Chosen result) ∧
    pool.frames.length = capacity ∧ pool.Resident ∧
    ∀ (pager : Pager) (disk : Disk) (fates : List Fate) (id : PageId) (loadFromDisk : Bool),
      pool.table.lookup id = none → (loadFromDisk = false → id ≠ kNullPage) →
      Prog.Meets (fun fi pool' _ => pool'.Resident ∧ Placed { pool with pager } id fi pool')
        (fun error pool' _ => pool'.Resident ∧ Refuses { pool with pager } disk id error)
        (fun _ => True)
        ((obtain id loadFromDisk).run fates { pool with pager } disk) := by
  have seated := run_seated real fits (seated_construct room counted) ran
  refine ⟨fun _ inside => chooseVictim_eq inside, seated.size, seated.toLinked.resident, ?_⟩
  intro pager disk fates id loadFromDisk absent real
  apply Prog.run_of_wp_any
  apply Prog.wp_mono (always_miss (seated.toOrderly.pager pager) absent real)
  · exact fun _ _ _ ended => ⟨ended.1.toLinked.resident, ended.2⟩
  · exact fun _ _ _ stopped => ⟨stopped.1.toLinked.resident, stopped.2⟩
  · exact fun _ _ asked => asked

/-- Two frames, and calls that pin both, miss with none left, fail to load, and free a page. -/
def crowding : List (Call × List Fate) :=
  [(.allocatePage, []), (.allocatePage, []), (.commit, []), (.fetchPin 1, []), (.fetchPin 2, []),
    (.allocatePage, []), (.unpin 2 true, []), (.readPage 9, []), (.writePage 3 { id := 3 }, []),
    (.unpin 1 false, []), (.freePage 3, []), (.readPage 2, [.fails true]), (.rollback, []),
    (.readPage 2, [])]

theorem victims_and_residents_crowding :
    ∃ pager disk pool disk', (opened.foldl System.step {}).pager = some pager ∧
      runCalls crowding (construct pager 2) disk = (some pool, disk') ∧ pool.Resident := by
  obtain ⟨pager, found⟩ : ∃ pager, (opened.foldl System.step {}).pager = some pager :=
    Option.isSome_iff_exists.mp (by decide +kernel)
  have lives : (opened.foldl System.step {}).pager.all fun pager => decide <|
      CallsFit crowding (construct pager 2) (opened.foldl System.step {}).disk ∧
      (runCalls crowding (construct pager 2) (opened.foldl System.step {}).disk).1.isSome := by
    decide +kernel
  rw [found, Option.all_some] at lives
  obtain ⟨fits, lives⟩ := of_decide_eq_true lives
  obtain ⟨pool, left⟩ := Option.isSome_iff_exists.mp lives
  have ran : runCalls crowding (construct pager 2) (opened.foldl System.step {}).disk =
      (some pool, (runCalls crowding (construct pager 2) (opened.foldl System.step {}).disk).2) :=
    Prod.ext left rfl
  refine ⟨pager, _, pool, _, found, ran, ?_⟩
  exact (victims_and_residents (counted_of_history calm_opened fits_opened found) (by decide)
    (by simp [crowding, Call.Real, kNullPage]) fits ran).2.2.1

/-- Page 0 is written, and then page 1 is read. -/
def sharing : List (Call × List Fate) :=
  [(.allocatePage, []), (.writePage kNullPage {}, []), (.readPage 1, [])]

/-- The frame of page 0 passes for empty, so page 1 comes into it as well. -/
theorem null_page_shares_frame :
    ¬ ∀ (pager : Pager) (capacity : Nat) (calls : List (Call × List Fate)) (disk disk' : Disk)
      (pool : BufferPool), pager.Counted → 1 ≤ capacity →
      runCalls calls (construct pager capacity) disk = (some pool, disk') → pool.Resident := by
  intro always
  obtain ⟨pager, found⟩ : ∃ pager, (opened.foldl System.step {}).pager = some pager :=
    Option.isSome_iff_exists.mp (by decide +kernel)
  have shared : (opened.foldl System.step {}).pager.all fun pager =>
      (runCalls sharing (construct pager 1) (opened.foldl System.step {}).disk).1.any fun pool =>
        decide (pool.table.lookup 0 = some 0 ∧ (pool.frame 0).id = 1) := by
    decide +kernel
  rw [found, Option.all_some] at shared
  obtain ⟨pool, left, shared⟩ := (Option.any_eq_true _ _).mp shared
  obtain ⟨first, held⟩ := of_decide_eq_true shared
  have resident := always pager 1 sharing (opened.foldl System.step {}).disk _ pool
    (counted_of_history calm_opened fits_opened found) (Nat.le_refl 1) (Prod.ext left rfl)
  have same := (resident.frame 0 0 first).2
  rw [held] at same
  exact absurd same (by decide)

end Residency

end Labdb.Pool.BufferPool
