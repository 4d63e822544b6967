import Labdb.Pool.Spec

/-! Allocation, commits and rollbacks through the pool. -/

namespace Labdb.Pool.BufferPool

open Labdb.Program Labdb.Storage

variable {may : FileCall → Disk → Prop} {pool : BufferPool} {disk : Disk}
variable {acked staged current : Database} {changed : List PageId} {fi : Nat} {id : PageId}

section Allocate

/-- The meta fields change below and above alike. -/
theorem Layered.refield {files : Files} {pager : Pager} {fields : Meta}
    (layered : pool.Layered files acked staged current changed)
    (shows : pager.Shows files acked { staged with fields }) :
    BufferPool.Layered { pool with pager } files acked { staged with fields }
      { current with fields } changed := by
  have linked := layered.toLinked
  exact ⟨⟨linked.hand, linked.table, linked.listed, linked.empty⟩, shows, rfl, layered.resident,
    layered.absent, layered.clean, layered.held⟩

/-- A change of the pager that leaves the pending pages as they are. -/
theorem Manages.pager {added : PageId → Prop} {pager : Pager}
    (same : pager.wal.pending = pool.pager.wal.pending) :
    Manages added pool { pool with pager } := by
  refine ⟨rfl, fun _ => rfl, fun _ _ none => none, fun id touched => ?_⟩
  rw [Touched, same]
  exact touched

/-- A root is set in the meta fields alone. -/
theorem wp_refield (layered : pool.Layered disk.files acked staged current changed)
    (update : Meta → Meta) (same : ∀ fields, (update fields).pageCount = fields.pageCount)
    {raised : Error → BufferPool → Disk → Prop} {asks : FileCall → Disk → Prop} :
    Prog.wp may
      (onPager (Prog.modify fun pager =>
        { pager with meta_ := update pager.meta_, metaDirty := true }))
      (fun _ pool' disk' =>
        pool'.Shows disk' acked { current with fields := update current.fields } changed ∧
          Manages (fun _ => False) pool pool')
      raised asks pool disk := by
  rw [onPager, Prog.wp_zoom, Prog.wp_modify]
  have shows := layered.shows.fields update (Nat.le_of_eq (same _).symm)
  rw [← layered.fields] at shows
  exact ⟨⟨_, layered.refield shows⟩, .pager rfl⟩

/-- A new page is blank, unless a frame still holds an old version of it. -/
def blank (pool : BufferPool) (current : Database) (id : PageId) : Database :=
  if pool.table.lookup id = none then current.set id { id } else current

/-- A frame for a new page, marked so that it is written back. -/
theorem wp_newFrame (layered : pool.Layered disk.files acked staged current changed)
    (real : id ≠ kNullPage) :
    Prog.wp may
      (do
        let fi ← obtain id false
        markDirty fi
        release fi
        pure id)
      (fun value pool' disk' => value = id ∧
        pool'.Shows disk' acked (pool.blank current id) (unmark changed id) ∧
        Manages (· = id) pool pool' ∧ pool'.Touched id)
      (fun _ => Refused may acked current changed (pool.Denied current id))
      (Asks False acked) pool disk := by
  rw [Prog.wp_bind]
  unfold blank
  cases resident : pool.table.lookup id with
  | none =>
    rw [if_pos rfl]
    refine Prog.wp_mono (wp_obtain_false layered real resident) ?_ ?_ fun _ _ asked => asked
    · rintro fi pool' disk' ⟨⟨staged', shown⟩, found, pinned⟩
      simp only [Prog.wp_bind, wp_markDirty, wp_release, Prog.wp_pure]
      have linked := shown.toLinked
      refine ⟨trivial, ⟨staged', shown.dirtied found ?_⟩, pinned.dirtied linked found,
        touched_dirtied linked found (.inr rfl)⟩
      exact fun other different => by simp [different]
    · exact fun _ _ _ refused => refused.imp fun reason => ⟨resident, reason⟩
  | some fi =>
    rw [if_neg (Option.some_ne_none fi), wp_obtain_resident resident]
    simp only [Prog.wp_bind, wp_markDirty, wp_release, Prog.wp_pure]
    have pinned := Pinned.put layered.toLinked resident
    have shown := layered.pinned resident
    exact ⟨trivial, ⟨_, shown.dirtied resident fun _ _ => Iff.rfl⟩,
      pinned.dirtied shown.toLinked resident, touched_dirtied shown.toLinked resident (.inr rfl)⟩

theorem wp_allocatePage (layered : pool.Layered disk.files acked staged current changed)
    (fits : staged.fields.Fits) :
    Prog.wp may allocatePage
      (fun id pool' disk' => ∃ fields, staged.allocate = some (id, { staged with fields }) ∧
        pool'.Shows disk' acked (pool.blank { current with fields } id) (unmark changed id) ∧
        Manages (· = id) pool pool' ∧ pool'.Touched id)
      (fun _ pool' disk' => staged.allocate = none ∧ pool'.Shows disk' acked current changed ∨
        ∃ id fields, staged.allocate = some (id, { staged with fields }) ∧
          Refused may acked { current with fields } changed (pool.Denied { current with fields } id)
            pool' disk')
      (Asks False acked) pool disk := by
  unfold allocatePage
  rw [Prog.wp_bind, onPager, Prog.wp_zoom]
  refine Prog.wp_mono (Pager.wp_allocatePage layered.shows fits) ?_ ?_ fun _ _ asked => asked
  · rintro id pager disk' ⟨rfl, real, fields, grown, rfl, shows⟩
    have same : Manages (· = id) pool
        { pool with pager := { pool.pager with meta_ := fields, metaDirty := true } } := .pager rfl
    refine Prog.wp_mono (wp_newFrame (layered.refield shows) real) ?_ ?_ fun _ _ asked => asked
    · rintro _ pool' disk' ⟨rfl, shows', manages, touched⟩
      exact ⟨fields, grown, shows', same.trans manages, touched⟩
    · exact fun _ _ _ refused => .inr ⟨id, fields, grown, refused⟩
  · rintro _ pager disk' ⟨rfl, rfl, refused⟩
    exact .inl ⟨refused, staged, layered⟩

end Allocate

section Commit

/-- Frames were written back: the pages are where they were, and a frame that is still
dirty was dirty before and is not one of those. -/
structure Cleans (listed : List Nat) (pool pool' : BufferPool) : Prop where
  manages : Manages (fun _ => False) pool pool'
  frames : ∀ fi, (pool'.frame fi).id = (pool.frame fi).id ∧
    (pool'.frame fi).page = (pool.frame fi).page
  dirty : ∀ fi, (pool'.frame fi).dirty = true → (pool.frame fi).dirty = true ∧ fi ∉ listed
  dirtyList : pool'.dirtyList = pool.dirtyList

theorem Cleans.trans {pool' pool'' : BufferPool} {rest : List Nat}
    (first : Cleans [fi] pool pool') (later : Cleans rest pool' pool'') :
    Cleans (fi :: rest) pool pool'' := by
  refine ⟨first.manages.trans later.manages, ?_, ?_, later.dirtyList.trans first.dirtyList⟩
  · intro other
    exact ⟨(later.frames other).1.trans (first.frames other).1,
      (later.frames other).2.trans (first.frames other).2⟩
  · intro other dirty
    obtain ⟨still, apart⟩ := later.dirty other dirty
    obtain ⟨before, different⟩ := first.dirty other still
    refine ⟨before, ?_⟩
    rw [List.mem_cons, not_or]
    exact ⟨fun same => different (List.mem_singleton.mpr same), apart⟩

theorem Cleans.spoiled {pool' : BufferPool} {listed : List Nat} (cleans : Cleans listed pool pool')
    (spoiled : pool'.Spoiled current) : pool.Spoiled current := by
  obtain ⟨fi, real, dirty, illegal⟩ := spoiled
  obtain ⟨named, page⟩ := cleans.frames fi
  rw [named] at real illegal
  rw [page] at illegal
  exact ⟨fi, real, (cleans.dirty fi dirty).1, illegal⟩

theorem Cleans.idle (linked : pool.Linked)
    (idle : ¬ ((pool.frame fi).id ≠ kNullPage ∧ (pool.frame fi).dirty = true)) :
    Cleans [fi] pool pool := by
  refine ⟨.refl _ _, fun _ => ⟨rfl, rfl⟩, fun other dirty => ⟨dirty, fun member => ?_⟩, rfl⟩
  obtain rfl := List.mem_singleton.mp member
  refine idle ⟨fun empty => ?_, dirty⟩
  rw [(linked.empty other empty).1] at dirty
  cases dirty

/-- A frame whose page has reached the log. -/
theorem Cleans.wrote {pager : Pager} (linked : pool.Linked) (real : (pool.frame fi).id ≠ kNullPage)
    (pending : ∀ other, other ∈ pager.wal.pending ↔
      other = (pool.frame fi).id ∨ other ∈ pool.pager.wal.pending) :
    Cleans [fi] pool
      (BufferPool.put { pool with pager } fi { pool.frame fi with dirty := false }) := by
  have inside := inside_of_id real
  have placed : ∀ other,
      (BufferPool.put { pool with pager } fi { pool.frame fi with dirty := false }).frame other =
        if fi = other then { pool.frame fi with dirty := false } else pool.frame other :=
    fun other => frame_set inside
  refine ⟨⟨List.length_set, ?_, fun _ _ none => none, ?_⟩, ?_, ?_, rfl⟩ <;> intro other
  · have below : BufferPool.Linked { pool with pager } :=
      ⟨linked.hand, linked.table, linked.listed, linked.empty⟩
    refine (pinsOf_put below real other).trans ?_
    · split
      · subst other
        exact (linked.pinsOf_frame real).symm
      · rfl
  · rintro (⟨at_, named, dirty⟩ | member)
    · by_cases here : fi = at_
      · subst at_
        exact .inr ((pending other).mpr (.inl named.symm))
      · refine .inl ⟨at_, ?_⟩
        rw [placed, if_neg here]
        exact ⟨named, dirty⟩
    · exact .inr ((pending other).mpr (.inr member))
  · rw [placed]
    split
    · subst other
      exact ⟨rfl, rfl⟩
    · exact ⟨rfl, rfl⟩
  · rw [placed]
    split
    · nofun
    · exact fun dirty => ⟨dirty, fun member => ‹¬ fi = other› (List.mem_singleton.mp member).symm⟩

private theorem wp_writeBack (listed : List Nat)
    (layered : pool.Layered disk.files acked staged current changed) :
    Prog.wp may (writeBack listed)
      (fun _ pool' disk' => pool'.Shows disk' acked current changed ∧ Cleans listed pool pool')
      (fun _ => Refused may acked current changed (pool.Spoiled current))
      (Asks False acked) pool disk := by
  induction listed generalizing pool disk staged with
  | nil =>
    exact ⟨⟨staged, layered⟩, .refl _ _, fun _ => ⟨rfl, rfl⟩, fun _ dirty => ⟨dirty, nofun⟩, rfl⟩
  | cons fi rest ih =>
    unfold writeBack
    rw [Prog.wp_bind, Prog.wp_get, Prog.wp_bind, Prog.wp_when]
    -- the rest of the list, from where the first frame leaves the pool
    have later : ∀ {pool' : BufferPool} {disk' : Disk} {staged' : Database},
        pool'.Layered disk'.files acked staged' current changed → Cleans [fi] pool pool' →
        Prog.wp may (writeBack rest)
          (fun _ pool'' disk'' => pool''.Shows disk'' acked current changed ∧
            Cleans (fi :: rest) pool pool'')
          (fun _ => Refused may acked current changed (pool.Spoiled current))
          (Asks False acked) pool' disk' := by
      intro pool' disk' staged' layered' first
      refine Prog.wp_mono (ih layered') ?_ ?_ fun _ _ asked => asked
      · exact fun _ _ _ ⟨shows, cleans⟩ => ⟨shows, first.trans cleans⟩
      · exact fun _ _ _ refused => refused.imp first.spoiled
    split
    · rename_i dirty
      rw [Prog.wp_bind]
      refine Prog.wp_mono (wp_writeBack_frame layered dirty.1 dirty.2) ?_
        (fun _ _ _ refused => refused) fun _ _ asked => asked
      rintro _ _ disk' ⟨⟨pager, rfl, pending⟩, written⟩
      rw [Prog.wp_modify]
      refine later (written.put_page dirty.1 ?_ ?_ nofun ?_ ?_ fun _ _ => Iff.rfl)
        (.wrote layered.toLinked dirty.1 pending)
      · rfl
      · rfl
      · exact fun _ _ => Database.set_page_self.symm
      · intro member
        have held := written.held _ member
        rwa [written.toLinked.pinsOf_frame dirty.1] at held
    · exact later layered (.idle layered.toLinked ‹_›)

/-- Once nothing is dirty, the pager shows what the pool shows. -/
theorem Layered.staged_eq {files : Files} (layered : pool.Layered files acked staged current [])
    (clean : ∀ fi, (pool.frame fi).dirty = false) : staged = current := by
  have page : staged.page = current.page := by
    funext id
    cases found : pool.table.lookup id with
    | none => exact (layered.absent id found).symm
    | some fi =>
      obtain ⟨same, real, _⟩ := layered.toLinked.frame_id found
      subst same
      rw [← layered.resident fi real]
      exact (layered.clean fi real (clean fi) List.not_mem_nil).symm
  have fields := layered.fields
  cases staged
  cases current
  simp only at fields page
  rw [fields, page]

/-- A transaction has ended: pins stay, and nothing is dirty or pending. -/
structure Ends (pool pool' : BufferPool) : Prop where
  size : pool'.frames.length = pool.frames.length
  pins : ∀ id, pool'.pinsOf id = pool.pinsOf id
  resident : ∀ id, pool.table.lookup id = none → pool'.table.lookup id = none
  idle : pool'.inTransaction = false

/-- A pool none of whose frames is dirty, over another state of its pager. -/
theorem Linked.unlisted {pager : Pager} (linked : pool.Linked)
    (clean : ∀ fi, (pool.frame fi).dirty = false) :
    BufferPool.Linked { pool with pager, dirtyList := [] } := by
  refine ⟨linked.hand, linked.table, fun fi dirty => ?_, linked.empty⟩
  replace dirty : (pool.frame fi).dirty = true := dirty
  rw [clean] at dirty
  cases dirty

theorem wp_commit (gentle : Gentle may)
    (layered : pool.Layered disk.files acked staged current []) :
    Prog.wp may commit
      (fun _ pool' disk' => pool'.Shows disk' current current [] ∧ Ends pool pool')
      (fun _ => Refused may acked current [] (pool.Spoiled current))
      (fun request disk' => Asks False acked request disk' ∨ Asks False current request disk')
      pool disk := by
  unfold commit
  rw [Prog.wp_bind, Prog.wp_get, Prog.wp_bind]
  refine Prog.wp_mono (wp_writeBack pool.dirtyList layered) ?_ (fun _ _ _ refused => refused)
    fun _ _ => .inl
  rintro _ pool' disk' ⟨⟨staged', layered'⟩, cleans⟩
  have linked := layered'.toLinked
  have clean : ∀ fi, (pool'.frame fi).dirty = false := by
    intro fi
    by_contra dirty
    obtain ⟨before, unlisted⟩ := cleans.dirty fi (by simpa using dirty)
    exact unlisted (layered.toLinked.listed fi before)
  obtain rfl := layered'.staged_eq clean
  rw [Prog.wp_bind, Prog.wp_modify, onPager, Prog.wp_zoom]
  refine Prog.wp_mono (Pager.wp_commit gentle layered'.shows fun unsynced => unsynced.elim) ?_ ?_
    fun _ _ => id
  · rintro _ pager disk'' ⟨shows, idle, _⟩
    refine ⟨⟨staged', linked.unlisted clean, shows, rfl, layered'.resident, fun _ _ => rfl,
      layered'.clean, fun _ member => absurd member List.not_mem_nil⟩, cleans.manages.size,
      cleans.manages.pins,
      fun id => cleans.manages.resident id not_false, ?_⟩
    simp [inTransaction, idle]
  · rintro _ pager disk'' ⟨failed, keeps, pending⟩
    refine .inr ⟨failed, linked.unlisted clean, keeps, ?_⟩
    intro fi real _ _ settled
    replace settled : (pool'.frame fi).id ∉ pager.wal.pending := settled
    rw [pending] at settled
    exact (layered'.resident fi real).trans (layered'.shows.settled real settled)

end Commit

section Rollback

/-- Frames were dropped. -/
structure Drops (pool pool' : BufferPool) : Prop where
  size : pool'.frames.length = pool.frames.length
  pins : ∀ id, pool'.pinsOf id = pool.pinsOf id
  resident : ∀ id, pool.table.lookup id = none → pool'.table.lookup id = none
  frames : ∀ fi, pool'.frame fi = pool.frame fi ∨
    (pool'.frame fi).id = kNullPage ∧ (pool'.frame fi).dirty = false
  pager : pool'.pager = pool.pager

theorem Drops.refl (pool : BufferPool) : Drops pool pool :=
  ⟨rfl, fun _ => rfl, fun _ => id, fun _ => .inl rfl, rfl⟩

theorem Drops.trans {pool' pool'' : BufferPool} (first : Drops pool pool')
    (second : Drops pool' pool'') : Drops pool pool'' := by
  refine ⟨second.size.trans first.size, fun id => (second.pins id).trans (first.pins id),
    fun id none => second.resident id (first.resident id none), fun fi => ?_,
    second.pager.trans first.pager⟩
  rcases second.frames fi with same | dropped
  · rw [same]
    exact first.frames fi
  · exact .inr dropped

theorem Drops.dirty {pool' : BufferPool} (drops : Drops pool pool')
    (dirty : (pool'.frame fi).dirty = true) : (pool.frame fi).dirty = true := by
  rcases drops.frames fi with same | ⟨_, clean⟩
  · rwa [same] at dirty
  · rw [clean] at dirty
    cases dirty

/-- A page whose dirty frame was dropped is in no frame. -/
theorem Drops.absent {pool' : BufferPool} (drops : Drops pool pool') (linked : pool.Linked)
    (linked' : pool'.Linked) (dirty : (pool.frame fi).dirty = true)
    (clean : (pool'.frame fi).dirty = false) : pool'.table.lookup (pool.frame fi).id = none := by
  rw [Option.eq_none_iff_forall_ne_some]
  intro other found
  obtain ⟨same, real, _⟩ := linked'.frame_id found
  rcases drops.frames other with kept | ⟨empty, _⟩
  · rw [kept] at same
    obtain rfl := linked.one real same
    rw [kept, dirty] at clean
    cases clean
  · exact real (same.symm.trans empty)

theorem Drops.dropped (linked : pool.Linked) (real : (pool.frame fi).id ≠ kNullPage)
    (free : (pool.frame fi).pins = 0) : Drops pool (pool.dropped fi) := by
  refine ⟨List.length_set, linked.pinsOf_dropped real free, ?_, ?_, rfl⟩
  · intro id none
    rw [lookup_dropped]
    split
    · rfl
    · exact none
  · intro other
    rw [frame_dropped (inside_of_id real)]
    split
    · exact .inr ⟨rfl, rfl⟩
    · exact .inl rfl

private theorem wp_dropDirty (listed : List Nat) (keeps : pool.Keeps disk.files acked changed)
    (free : ∀ id, pool.pinsOf id = 0) {raised : Error → BufferPool → Disk → Prop}
    {asks : FileCall → Disk → Prop} :
    Prog.wp may (dropDirty listed)
      (fun _ pool' disk' => disk' = disk ∧ pool'.Keeps disk.files acked changed ∧
        Drops pool pool' ∧ ∀ fi, (pool'.frame fi).dirty = true → fi ∉ listed)
      raised asks pool disk := by
  induction listed generalizing pool with
  | nil => exact ⟨rfl, keeps, .refl pool, fun _ _ => List.not_mem_nil⟩
  | cons fi rest ih =>
    have linked := keeps.toLinked
    -- the rest of the list, once the first frame is clean
    have later : ∀ {pool' : BufferPool}, pool'.Keeps disk.files acked changed →
        Drops pool pool' → (pool'.frame fi).dirty = false →
        Prog.wp may (dropDirty rest)
          (fun _ pool'' disk' => disk' = disk ∧ pool''.Keeps disk.files acked changed ∧
            Drops pool pool'' ∧ ∀ other, (pool''.frame other).dirty = true → other ∉ fi :: rest)
          raised asks pool' disk := by
      intro pool' keeps' drops clean
      refine Prog.wp_mono (ih keeps' fun id => (drops.pins id).trans (free id)) ?_
        (fun _ _ _ => id) fun _ _ => id
      rintro _ pool'' disk' ⟨same, keeps'', drops', unlisted⟩
      refine ⟨same, keeps'', drops.trans drops', fun other dirty member => ?_⟩
      rcases List.mem_cons.mp member with rfl | later
      · rw [drops'.dirty dirty] at clean
        cases clean
      · exact unlisted other dirty later
    unfold dropDirty
    rw [Prog.wp_bind, Prog.wp_get, Prog.wp_bind, Prog.wp_when]
    split
    · rename_i held
      have unpinned : (pool.frame fi).pins = 0 := by rw [← linked.pinsOf_frame held.1, free]
      simp only [Prog.wp_bind, wp_checkThat, unpinned, decide_true, if_true, wp_drop]
      refine later (keeps.dropped held.1 unpinned) (.dropped linked held.1 unpinned) ?_
      exact congrArg Frame.dirty ((frame_dropped (inside_of_id held.1) fi).trans (if_pos rfl))
    · rename_i idle
      refine later keeps (.refl pool) ?_
      by_cases empty : (pool.frame fi).id = kNullPage
      · exact (linked.empty fi empty).1
      · simpa [empty] using idle

private theorem wp_dropPending (ids : List PageId) (keeps : pool.Keeps disk.files acked changed)
    (free : ∀ id, pool.pinsOf id = 0) {raised : Error → BufferPool → Disk → Prop}
    {asks : FileCall → Disk → Prop} :
    Prog.wp may (dropPending ids)
      (fun _ pool' disk' => disk' = disk ∧ pool'.Keeps disk.files acked changed ∧
        Drops pool pool' ∧ ∀ id ∈ ids, pool'.table.lookup id = none)
      raised asks pool disk := by
  induction ids generalizing pool with
  | nil => exact ⟨rfl, keeps, .refl pool, nofun⟩
  | cons id rest ih =>
    have linked := keeps.toLinked
    have later : ∀ {pool' : BufferPool}, pool'.Keeps disk.files acked changed →
        Drops pool pool' → pool'.table.lookup id = none →
        Prog.wp may (dropPending rest)
          (fun _ pool'' disk' => disk' = disk ∧ pool''.Keeps disk.files acked changed ∧
            Drops pool pool'' ∧ ∀ other ∈ id :: rest, pool''.table.lookup other = none)
          raised asks pool' disk := by
      intro pool' keeps' drops gone
      refine Prog.wp_mono (ih keeps' fun id => (drops.pins id).trans (free id)) ?_
        (fun _ _ _ => fun holds => holds) fun _ _ asked => asked
      rintro _ pool'' disk' ⟨same, keeps'', drops', absent⟩
      refine ⟨same, keeps'', drops.trans drops', fun other member => ?_⟩
      rcases List.mem_cons.mp member with rfl | later
      · exact drops'.resident other gone
      · exact absent other later
    unfold dropPending
    rw [Prog.wp_bind, Prog.wp_get]
    cases found : pool.table.lookup id with
    | none => exact later keeps (.refl pool) found
    | some fi =>
      obtain ⟨same, real, inside⟩ := linked.frame_id found
      subst same
      have unpinned : (pool.frame fi).pins = 0 := by rw [← linked.pinsOf_frame real, free]
      simp only [Prog.wp_bind, wp_checkThat, unpinned, decide_true, if_true, wp_drop]
      refine later (keeps.dropped real unpinned) (.dropped linked real unpinned) ?_
      rw [lookup_dropped, if_pos rfl]

/-- A rollback returns to what was committed last, from any state in which nothing is pinned. -/
theorem wp_rollback (keeps : pool.Keeps disk.files acked []) (free : ∀ id, pool.pinsOf id = 0)
    {raised : Error → BufferPool → Disk → Prop} {asks : FileCall → Disk → Prop} :
    Prog.wp may rollback
      (fun _ pool' disk' => disk' = disk ∧ pool'.Shows disk' acked acked [] ∧ Ends pool pool' ∧
        ∀ id, pool.Touched id → pool'.table.lookup id = none)
      raised asks pool disk := by
  unfold rollback
  rw [Prog.wp_bind, Prog.wp_get, Prog.wp_bind]
  refine Prog.wp_mono (wp_dropDirty pool.dirtyList keeps free) ?_ (fun _ _ _ => id) fun _ _ => id
  rintro _ pool' disk' ⟨rfl, keeps', drops, unlisted⟩
  have clean : ∀ fi, (pool'.frame fi).dirty = false := by
    intro fi
    by_contra dirty
    replace dirty : (pool'.frame fi).dirty = true := by simpa using dirty
    exact unlisted fi dirty (keeps.toLinked.listed fi (drops.dirty dirty))
  have keeps'' : BufferPool.Keeps { pool' with dirtyList := [] } disk'.files acked [] :=
    ⟨keeps'.toLinked.unlisted clean, keeps'.keeps, keeps'.settled⟩
  simp only [Prog.wp_bind, Prog.wp_modify, Prog.wp_get]
  refine Prog.wp_mono (wp_dropPending _ keeps'' fun id => (drops.pins id).trans (free id)) ?_
    (fun _ _ _ => id) fun _ _ => id
  rintro _ pool'' disk'' ⟨rfl, kept, drops', gone⟩
  have linked := kept.toLinked
  have clean : ∀ fi, (pool''.frame fi).dirty = false := by
    intro fi
    by_contra dirty
    have before := drops'.dirty (by simpa using dirty)
    exact Bool.false_ne_true ((clean fi).symm.trans before)
  have settled : ∀ fi, (pool''.frame fi).id ≠ kNullPage →
      (pool''.frame fi).page = acked.page (pool''.frame fi).id := by
    intro fi real
    refine kept.settled fi real (clean fi) List.not_mem_nil fun member => ?_
    rw [drops'.pager] at member
    have absent := gone _ (AList.mem_keys.mp member)
    exact linked.absent absent real fi rfl
  rw [onPager, Prog.wp_zoom]
  refine Prog.wp_mono (Pager.wp_rollback kept.keeps) ?_ (fun _ _ _ => id) fun _ _ => id
  rintro _ pager disk''' ⟨rfl, shows, idle, _⟩
  refine ⟨rfl, ⟨acked, ⟨linked.hand, linked.table, linked.listed, linked.empty⟩, shows, rfl,
    settled, fun _ _ => rfl, fun fi real _ _ => settled fi real,
    fun _ member => absurd member List.not_mem_nil⟩, ⟨?_, ?_, ?_, ?_⟩, ?_⟩
  · exact drops'.size.trans drops.size
  · exact fun id => (drops'.pins id).trans (drops.pins id)
  · exact fun id none => drops'.resident id (drops.resident id none)
  · simp only [inTransaction, idle, Bool.false_or, List.any_eq_false, Bool.and_eq_true, not_and]
    exact fun fi _ _ => ne_of_eq_of_ne (clean fi) Bool.false_ne_true
  · rintro id (⟨fi, rfl, dirty⟩ | pending)
    · refine drops'.resident _ (drops.absent keeps.toLinked keeps'.toLinked dirty ?_)
      by_contra still
      replace still : (pool'.frame fi).dirty = true := by simpa using still
      exact unlisted fi still (keeps.toLinked.listed fi dirty)
    · rw [← drops.pager] at pending
      exact gone id (AList.mem_keys.mpr pending)

end Rollback

end Labdb.Pool.BufferPool
