import Labdb.Pool.Layers

/-! Getting a frame for a page: the victim, its eviction, the load. -/

namespace Labdb.Pool.BufferPool

open Labdb.Program Labdb.Storage

variable {may : FileCall → Disk → Prop} {pool : BufferPool} {disk : Disk}
variable {acked staged current : Database} {changed : List PageId} {fi : Nat} {id : PageId}

/-- A dirty frame that the pager will refuse to write back. -/
def Spoiled (pool : BufferPool) (current : Database) : Prop :=
  ∃ fi, (pool.frame fi).id ≠ kNullPage ∧ (pool.frame fi).dirty = true ∧
    ¬ (current.Covers (pool.frame fi).id ∧ (pool.frame fi).page.id = (pool.frame fi).id)

/-- The pool shows `current`, whatever the pager's version of it is. -/
def Shows (pool : BufferPool) (disk : Disk) (acked current : Database)
    (changed : List PageId) : Prop :=
  ∃ staged, pool.Layered disk.files acked staged current changed

/-- How an operation that was not done leaves the pool: refused, showing what it did,
or cut short by a failed call. -/
def Refused (may : FileCall → Disk → Prop) (acked current : Database) (changed : List PageId)
    (refuses : Prop) (pool : BufferPool) (disk : Disk) : Prop :=
  (refuses ∧ pool.Shows disk acked current changed) ∨
    ((∃ request disk, may request disk) ∧ pool.Keeps disk.files acked changed)

theorem Refused.imp {refuses refuses' : Prop} (weaker : refuses → refuses')
    (refused : Refused may acked current changed refuses pool disk) :
    Refused may acked current changed refuses' pool disk :=
  refused.imp_left fun ⟨reason, shows⟩ => ⟨weaker reason, shows⟩

theorem wp_checkThat {ok : Bool} {what : String} {post : Unit → BufferPool → Disk → Prop}
    {raised : Error → BufferPool → Disk → Prop} {asks : FileCall → Disk → Prop} :
    Prog.wp may (checkThat ok what) post raised asks pool disk ↔
      if ok then post () pool disk else raised (.invariant what) pool disk := by
  unfold checkThat
  split <;> rfl

theorem wp_drop {post : Unit → BufferPool → Disk → Prop}
    {raised : Error → BufferPool → Disk → Prop} {asks : FileCall → Disk → Prop} :
    Prog.wp may (drop fi) post raised asks pool disk ↔ post () (pool.dropped fi) disk :=
  Iff.rfl

private theorem Frame.cool_cool (frame : Frame) : frame.cool.cool = frame.cool := rfl

private theorem alike_cooled {frames : List Frame} {hand : Nat}
    (cooled : Clock.Cooled Frame.cool pool.frames frames) (inside : hand < frames.length) :
    Alike pool { pool with frames, hand } := by
  refine ⟨cooled.1, inside, fun fi => ?_, rfl, rfl, rfl⟩
  simp only [BufferPool.frame, List.getD_eq_getElem?_getD]
  rcases cooled.2 fi with same | cool
  · simp [same]
  · rw [cool]
    cases pool.frames[fi]? <;> simp [Frame.cool]

/-- Every frame is pinned. -/
def Crowded (pool : BufferPool) : Prop := ∀ fi < pool.frames.length, 0 < (pool.frame fi).pins

/-- The exception of a clock that has passed every frame. -/
def exhausted : Error :=
  .invariant "buffer pool exhausted: every frame is pinned (capacity is smaller than the working pin set)"

/-- What a sweep of the clock leaves: it has cooled frames, but none that is pinned. -/
structure Swept (pool pool' : BufferPool) : Prop extends Alike pool pool' where
  pinned : ∀ fi, 0 < (pool.frame fi).pins → pool'.frame fi = pool.frame fi

/-- What the clock comes to: a frame that is not pinned, or that there is none. -/
def Chosen (pool : BufferPool) : Except Error Nat → Prop
  | .ok fi => fi < pool.frames.length ∧ (pool.frame fi).pins = 0
  | .error error => pool.Crowded ∧ error = exhausted

private theorem getElem?_frame (inside : fi < pool.frames.length) :
    pool.frames[fi]? = some (pool.frame fi) := by
  simp [BufferPool.frame, List.getD_eq_getElem?_getD, inside]

/-- The clock finds a frame that is not pinned, if there is one. -/
theorem chooseVictim_eq (inside : pool.hand < pool.frames.length) :
    ∃ result pool', chooseVictim pool = .ret (result, pool') ∧ Swept pool pool' ∧
      pool.Chosen result := by
  rcases swept : Clock.sweep (fun frame : Frame => 0 < frame.pins) Frame.ref Frame.cool
    (2 * pool.frames.length + 1) pool.frames pool.hand with ⟨taken, frames, hand⟩
  obtain ⟨cooled, bound, free⟩ := Clock.sweep_spec Frame.cool_cool inside swept
  have alike := alike_cooled cooled bound
  have pinned : ∀ fi, 0 < (pool.frame fi).pins →
      BufferPool.frame { pool with frames, hand } fi = pool.frame fi := by
    intro fi held
    have within_ : fi < pool.frames.length := by
      by_contra beyond
      rw [frame_beyond (by omega)] at held
      exact absurd held (Nat.lt_irrefl 0)
    have kept := @Clock.sweep_passes _ (fun frame : Frame => 0 < frame.pins) Frame.ref Frame.cool
      (2 * pool.frames.length + 1) _ pool.hand _ _ (getElem?_frame within_) (by simpa using held)
    rw [swept] at kept
    simp only [BufferPool.frame, List.getD_eq_getElem?_getD]
    rw [kept]
    simp [BufferPool.frame, List.getD_eq_getElem?_getD]
  cases taken with
  | some fi =>
    refine ⟨.ok fi, { pool with frames, hand }, ?_, ⟨alike, pinned⟩, ?_⟩
    · simp only [chooseVictim, bind, Prog.get, Prog.set, Action.bind, swept, pure]
    · obtain ⟨frame, found, unpinned, _⟩ := free fi rfl
      have held := (alike.frames fi).2.2.1
      constructor
      · exact alike.size ▸ (List.getElem?_eq_some_iff.mp found).1
      · rw [← held]
        simpa [BufferPool.frame, List.getD_eq_getElem?_getD, found] using unpinned
  | none =>
    refine ⟨.error exhausted, { pool with frames, hand }, ?_, ⟨alike, pinned⟩, ?_, rfl⟩
    · simp only [chooseVictim, bind, Prog.get, Prog.set, Prog.raise, Action.bind, swept, exhausted]
    · intro fi within_
      by_contra unpinned
      obtain ⟨ahead, short, reaches⟩ := Clock.exists_ahead inside within_
      have found : ∃ index, (Clock.sweep (fun frame : Frame => 0 < frame.pins) Frame.ref Frame.cool
          (2 * pool.frames.length + 1) pool.frames pool.hand).1 = some index :=
        Clock.sweep_takes inside (fun _ => rfl) (fun _ => rfl) (getElem?_frame within_)
          (by simpa using unpinned) reaches (by omega)
      rw [swept] at found
      cases found with
      | intro index impossible => cases impossible

private theorem wp_chooseVictim (linked : pool.Linked) {post : Nat → BufferPool → Disk → Prop}
    {raised : Error → BufferPool → Disk → Prop} {asks : FileCall → Disk → Prop}
    (chosen : ∀ fi pool', Alike pool pool' → fi < pool'.frames.length →
      (pool'.frame fi).pins = 0 → post fi pool' disk)
    (exhausted : ∀ error pool', Alike pool pool' →
      (∀ fi < pool.frames.length, 0 < (pool.frame fi).pins) → raised error pool' disk) :
    Prog.wp may chooseVictim post raised asks pool disk := by
  obtain ⟨result, pool', ran, swept, result_⟩ := chooseVictim_eq linked.hand
  rw [Prog.wp, ran]
  cases result with
  | ok fi =>
    apply chosen fi pool' swept.toAlike
    · exact swept.size ▸ result_.1
    · rw [(swept.frames fi).2.2.1]
      exact result_.2
  | error error => exact exhausted error pool' swept.toAlike result_.1

/-- What a write back of a page does to the pending pages. -/
theorem wp_writePage_pending {pager : Pager} {page : Page} :
    Prog.wp may (Pager.writePage id page)
      (fun _ pager' _ => ∀ other,
        other ∈ pager'.wal.pending ↔ other = id ∨ other ∈ pager.wal.pending)
      (fun _ pager' _ => pager'.wal.pending = pager.wal.pending) (fun _ _ => True) pager disk := by
  unfold Pager.writePage
  simp only [Prog.wp_bind, Prog.wp_get, Pager.wp_checkThat]
  split
  · split
    · rw [Pager.onWal, Prog.wp_zoom]
      simp only [Wal.write, Wal.writeFrame, Wal.writeHeader, Prog.wp_bind, Prog.wp_get,
        Prog.wp_set, Prog.wp_when, Prog.wp_call, Prog.wp_modify]
      split
      · exact ⟨trivial, ⟨trivial, fun other => AList.mem_insert _, fun _ _ => trivial⟩,
          fun _ _ => trivial⟩
      · exact ⟨trivial, fun other => AList.mem_insert _, fun _ _ => trivial⟩
    · trivial
  · trivial

/-- The write back of a dirty frame. -/
theorem wp_writeBack_frame (layered : pool.Layered disk.files acked staged current changed)
    (some : (pool.frame fi).id ≠ kNullPage) (dirty : (pool.frame fi).dirty = true) :
    Prog.wp may (onPager (Pager.writePage (pool.frame fi).id (pool.frame fi).page))
      (fun _ pool' disk' => (∃ pager, pool' = { pool with pager } ∧
          ∀ other, other ∈ pager.wal.pending ↔
            other = (pool.frame fi).id ∨ other ∈ pool.pager.wal.pending) ∧
        pool'.Layered disk'.files acked (staged.set (pool.frame fi).id (pool.frame fi).page)
          current changed)
      (fun _ => Refused may acked current changed (pool.Spoiled current))
      (Asks False acked) pool disk := by
  rw [onPager, Prog.wp_zoom]
  have wrote : Prog.wp may (Pager.writePage (pool.frame fi).id (pool.frame fi).page) _ _
      (Asks False acked) pool.pager disk := Pager.serves_writePage _ _ layered.shows nofun
  have covers : staged.Covers (pool.frame fi).id ↔ current.Covers (pool.frame fi).id := by
    rw [Database.Covers, Database.Covers, layered.fields]
  refine Prog.wp_mono (Prog.wp_and wrote wp_writePage_pending) ?_ ?_ fun _ _ asked => asked.1
  · rintro _ pager disk' ⟨⟨staged', written, shows, _⟩, pending⟩
    dsimp only at written
    by_cases legal : staged.Covers (pool.frame fi).id ∧ (pool.frame fi).page.id = (pool.frame fi).id
    · rw [Database.write_eq_some legal.1 legal.2] at written
      cases written
      exact ⟨⟨pager, rfl, pending⟩, layered.written some shows⟩
    · rw [Database.write, if_neg legal] at written
      cases written
  · rintro _ pager disk' ⟨⟨refused, shows, _⟩ | ⟨failed, keeps⟩, pending⟩
    · refine .inl ⟨⟨fi, some, dirty, ?_⟩, staged, ?_⟩
      · rintro ⟨inside, own⟩
        dsimp only at refused
        rw [Database.write_eq_some (covers.mpr inside) own] at refused
        cases refused
      · have linked := layered.toLinked
        exact ⟨⟨linked.hand, linked.table, linked.listed, linked.empty⟩, shows, layered.fields,
          layered.resident, layered.absent, layered.clean, layered.held⟩
    · refine .inr ⟨failed, ?_⟩
      have kept := layered.keeps
      exact ⟨⟨kept.hand, kept.table, kept.listed, kept.empty⟩, keeps,
        fun fi some clean unchanged settled =>
          kept.settled fi some clean unchanged (pending ▸ settled)⟩

/-- An eviction changes nothing that the pool shows. -/
theorem wp_evict (layered : pool.Layered disk.files acked staged current changed)
    (free : (pool.frame fi).pins = 0) :
    Prog.wp may (evict fi)
      (fun _ pool' disk' => pool'.Shows disk' acked current changed ∧
        Manages (fun _ => False) pool pool' ∧ (pool'.frame fi).id = kNullPage)
      (fun _ => Refused may acked current changed (pool.Spoiled current))
      (Asks False acked) pool disk := by
  unfold evict
  rw [Prog.wp_bind, Prog.wp_get, Prog.wp_ite]
  split
  · exact ⟨⟨staged, layered⟩, .refl _ _, ‹_›⟩
  · rename_i some
    have inside := inside_of_id some
    have vacated : ∀ pager : Pager,
        ((BufferPool.dropped { pool with pager } fi).frame fi).id = kNullPage := by
      intro pager
      exact congrArg Frame.id ((frame_dropped inside fi).trans (if_pos rfl))
    rw [Prog.wp_bind, Prog.wp_when]
    split
    · rename_i dirty
      refine Prog.wp_mono (wp_writeBack_frame layered some dirty) ?_ (fun _ _ _ => id) fun _ _ => id
      rintro _ _ disk' ⟨⟨pager, rfl, pending⟩, written⟩
      rw [wp_drop]
      refine ⟨⟨_, written.dropped some free Database.set_page_self.symm⟩, ?_, vacated pager⟩
      have dropped : Manages (fun _ => False) _ (BufferPool.dropped { pool with pager } fi) :=
        .dropped written.toLinked some free fun _ => (pending _).mpr (.inl rfl)
      refine ⟨dropped.size, dropped.pins, dropped.resident, ?_⟩
      rintro id (held | member)
      · exact dropped.touched id (.inl held)
      · exact dropped.touched id (.inr ((pending id).mpr (.inr member)))
    · rename_i clean
      have clean : (pool.frame fi).dirty = false := by simpa using clean
      have unchanged : (pool.frame fi).id ∉ changed := by
        intro member
        have held := layered.held _ member
        rw [layered.pinsOf_frame some] at held
        omega
      rw [wp_drop]
      refine ⟨⟨staged, layered.dropped some free (layered.clean fi some clean unchanged)⟩, ?_,
        vacated pool.pager⟩
      exact .dropped layered.toLinked some free fun dirty => by
        rw [clean] at dirty
        cases dirty

theorem Spoiled.covers {current' : Database} (spoiled : pool.Spoiled current')
    (more : ∀ id, current.Covers id → current'.Covers id) : pool.Spoiled current := by
  obtain ⟨fi, real, dirty, illegal⟩ := spoiled
  exact ⟨fi, real, dirty, fun legal => illegal ⟨more _ legal.1, legal.2⟩⟩

theorem Spoiled.alike {pool' : BufferPool} (alike : Alike pool pool')
    (spoiled : pool'.Spoiled current) : pool.Spoiled current := by
  obtain ⟨fi, some, dirty, illegal⟩ := spoiled
  obtain ⟨page, id, _, marked⟩ := alike.frames fi
  rw [id] at some illegal
  rw [page] at illegal
  exact ⟨fi, some, marked ▸ dirty, illegal⟩

/-- A frame is found, unless every frame is pinned or a victim cannot be written. -/
theorem wp_freeFrame (layered : pool.Layered disk.files acked staged current changed) :
    Prog.wp may freeFrame
      (fun fi pool' disk' => pool'.Shows disk' acked current changed ∧
        Manages (fun _ => False) pool pool' ∧ fi < pool'.frames.length ∧
        (pool'.frame fi).id = kNullPage)
      (fun _ => Refused may acked current changed (pool.Crowded ∨ pool.Spoiled current))
      (Asks False acked) pool disk := by
  unfold freeFrame
  rw [Prog.wp_bind, Prog.wp_get]
  split
  · rename_i fi found
    obtain ⟨inside, empty, _⟩ := List.findIdx?_eq_some_iff_getElem.mp found
    refine ⟨⟨staged, layered⟩, .refl _ _, inside, ?_⟩
    have vacant : pool.frames[fi].id = kNullPage := by
      have both := of_decide_eq_true empty
      exact both.1
    simpa [BufferPool.frame, List.getD_eq_getElem?_getD, inside] using vacant
  · rw [Prog.wp_bind]
    refine wp_chooseVictim layered.toLinked ?_ ?_
    · intro fi pool' alike inside free
      rw [Prog.wp_bind]
      refine Prog.wp_mono (wp_evict (layered.alike alike) free) ?_ ?_ fun _ _ => id
      · rintro _ pool'' disk'' ⟨shows, manages, vacant⟩
        exact ⟨shows, (Manages.alike alike).trans manages, manages.size ▸ inside, vacant⟩
      · exact fun _ _ _ refused => refused.imp fun spoiled => .inr (spoiled.alike alike)
    · exact fun _ pool' alike crowded => .inl ⟨.inl crowded, staged, layered.alike alike⟩

/-- A page has one pin more; it alone may have become resident. -/
structure Pinned (id : PageId) (pool pool' : BufferPool) : Prop where
  size : pool'.frames.length = pool.frames.length
  pins : ∀ other, pool'.pinsOf other = pool.pinsOf other + if other = id then 1 else 0
  resident : ∀ other, other ≠ id → pool.table.lookup other = none →
    pool'.table.lookup other = none
  touched : ∀ other, pool.Touched other → pool'.Touched other

theorem Pinned.put (linked : pool.Linked) (found : pool.table.lookup id = some fi) :
    Pinned id pool
      (pool.put fi { pool.frame fi with pins := (pool.frame fi).pins + 1, ref := true }) := by
  obtain ⟨same, some, inside⟩ := linked.frame_id found
  refine ⟨List.length_set, ?_, fun _ _ none => none, ?_⟩
  · intro other
    rw [pinsOf_put linked (same ▸ some), same]
    split
    · subst other
      rw [← same, linked.pinsOf_frame (same ▸ some)]
    · rfl
  · intro other touched
    refine touched_put inside ?_ ?_ touched
    · rfl
    · exact .inl

theorem Pinned.filled {pool' : BufferPool} (manages : Manages (fun _ => False) pool pool')
    (linked : pool'.Linked) (inside : fi < pool'.frames.length)
    (vacant : (pool'.frame fi).id = kNullPage) (absent : pool.table.lookup id = none)
    (page : Page) : Pinned id pool (pool'.filled fi id page) := by
  refine ⟨List.length_set.trans manages.size, ?_, ?_, ?_⟩ <;> intro other
  · rw [pinsOf_filled vacant inside linked, manages.pins]
    split
    · subst other
      rw [pinsOf, absent]
    · rfl
  · intro different none
    rw [lookup_filled, if_neg different]
    exact manages.resident other not_false none
  · intro touched
    exact touched_filled inside linked vacant page (manages.touched other touched)

/-- The page is not resident and no frame can be had for it. -/
def Denied (pool : BufferPool) (current : Database) (id : PageId) : Prop :=
  pool.table.lookup id = none ∧ (pool.Crowded ∨ pool.Spoiled current)

theorem Layered.pinned {files : Files}
    (layered : pool.Layered files acked staged current changed)
    (found : pool.table.lookup id = some fi) :
    (pool.put fi { pool.frame fi with pins := (pool.frame fi).pins + 1, ref := true }).Layered
      files acked staged current changed := by
  obtain ⟨same, some, inside⟩ := layered.toLinked.frame_id found
  refine layered.put_page (same ▸ some) rfl rfl (layered.listed fi) ?_ ?_ fun _ _ => Iff.rfl
  · exact layered.clean fi (same ▸ some)
  · exact fun _ => Nat.succ_pos _

/-- A page that is resident is only pinned. -/
theorem wp_obtain_resident (found : pool.table.lookup id = some fi) {loadFromDisk : Bool}
    {post : Nat → BufferPool → Disk → Prop} {raised : Error → BufferPool → Disk → Prop}
    {asks : FileCall → Disk → Prop} :
    Prog.wp may (obtain id loadFromDisk) post raised asks pool disk ↔
      post fi (pool.put fi { pool.frame fi with pins := (pool.frame fi).pins + 1, ref := true })
        disk := by
  rw [obtain, Prog.wp_bind, Prog.wp_get, found]
  rfl

/-- A page is loaded into a frame, if it is not in one. -/
theorem wp_obtain_true (layered : pool.Layered disk.files acked staged current changed) :
    Prog.wp may (obtain id true)
      (fun fi pool' disk' => pool'.Shows disk' acked current changed ∧
        pool'.table.lookup id = some fi ∧ Pinned id pool pool' ∧
        (pool.table.lookup id ≠ none ∨ current.Covers id))
      (fun _ => Refused may acked current changed
        (pool.Denied current id ∨ pool.table.lookup id = none ∧ ¬ current.Covers id))
      (Asks False acked) pool disk := by
  cases absent : pool.table.lookup id with
  | some fi =>
    rw [wp_obtain_resident absent]
    exact ⟨⟨staged, layered.pinned absent⟩, absent, .put layered.toLinked absent, .inl nofun⟩
  | none =>
    rw [obtain, Prog.wp_bind, Prog.wp_get, absent]
    dsimp only
    rw [Prog.wp_bind]
    refine Prog.wp_mono (wp_freeFrame layered) ?_ ?_ fun _ _ asked => asked
    · rintro fi pool' disk' ⟨⟨staged', layered'⟩, manages, inside, vacant⟩
      have missing := manages.resident id not_false absent
      have covers : staged'.Covers id ↔ current.Covers id := by
        rw [Database.Covers, Database.Covers, layered'.fields]
      rw [if_pos rfl, Prog.wp_bind, onPager, Prog.wp_zoom, Pager.wp_readPage layered'.shows,
        Database.read]
      by_cases inRange : staged'.Covers id
      · rw [if_pos inRange]
        have filled := layered'.filled inside vacant missing inRange.1 (staged'.page id)
          (fun _ => rfl) fun _ _ => Iff.rfl
        have same : current.set id (staged'.page id) = current := by
          rw [← layered'.absent id missing, Database.set_same]
        rw [same] at filled
        exact ⟨⟨staged', filled⟩, AList.lookup_insert .., .filled manages layered'.toLinked inside
          vacant absent _, .inr (covers.mp inRange)⟩
      · rw [if_neg inRange]
        exact .inl ⟨.inr ⟨rfl, fun covered => inRange (covers.mpr covered)⟩, staged', layered'⟩
    · exact fun _ _ _ refused => refused.imp fun reason => .inl ⟨absent, reason⟩

/-- A frame for a page whose content is of no account. -/
theorem wp_obtain_false (layered : pool.Layered disk.files acked staged current changed)
    (real : id ≠ kNullPage) (absent : pool.table.lookup id = none) :
    Prog.wp may (obtain id false)
      (fun fi pool' disk' => pool'.Shows disk' acked (current.set id { id }) (id :: changed) ∧
        pool'.table.lookup id = some fi ∧ Pinned id pool pool')
      (fun _ => Refused may acked current changed (pool.Crowded ∨ pool.Spoiled current))
      (Asks False acked) pool disk := by
  unfold obtain
  rw [Prog.wp_bind, Prog.wp_get, absent]
  dsimp only
  rw [Prog.wp_bind]
  refine Prog.wp_mono (wp_freeFrame layered) ?_ (fun _ _ _ refused => refused)
    fun _ _ asked => asked
  rintro fi pool' disk' ⟨⟨staged', layered'⟩, manages, inside, vacant⟩
  have missing := manages.resident id not_false absent
  have filled : (pool'.filled fi id { id }).Layered disk'.files acked staged'
      (current.set id { id }) (id :: changed) :=
    layered'.filled inside vacant missing real { id }
      (fun fresh => absurd List.mem_cons_self fresh) fun other different => by simp [different]
  exact ⟨⟨staged', filled⟩, AList.lookup_insert .., .filled manages layered'.toLinked inside
    vacant absent _⟩

/-- The pool with a frame marked dirty. -/
def marked (pool : BufferPool) (fi : Nat) : BufferPool :=
  if (pool.frame fi).dirty = false then
    { pool with
      frames := pool.frames.set fi { pool.frame fi with dirty := true }
      dirtyList := pool.dirtyList ++ [fi] }
  else pool

/-- The pool with one pin of a frame given back. -/
def released (pool : BufferPool) (fi : Nat) : BufferPool :=
  pool.put fi { pool.frame fi with pins := (pool.frame fi).pins - 1 }

theorem wp_markDirty {post : Unit → BufferPool → Disk → Prop}
    {raised : Error → BufferPool → Disk → Prop} {asks : FileCall → Disk → Prop} :
    Prog.wp may (markDirty fi) post raised asks pool disk ↔ post () (pool.marked fi) disk := by
  simp only [markDirty, Prog.wp_bind, Prog.wp_get, Prog.wp_when, Prog.wp_set, marked]
  split <;> rfl

theorem wp_release {post : Unit → BufferPool → Disk → Prop}
    {raised : Error → BufferPool → Disk → Prop} {asks : FileCall → Disk → Prop} :
    Prog.wp may (release fi) post raised asks pool disk ↔ post () (pool.released fi) disk :=
  Iff.rfl

end Labdb.Pool.BufferPool
