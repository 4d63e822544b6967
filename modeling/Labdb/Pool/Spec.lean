import Labdb.Pool.Frames

/-! What each operation of the pool does to the database it shows. -/

namespace Labdb.Pool.BufferPool

open Labdb.Program Labdb.Storage

variable {may : FileCall → Disk → Prop} {pool : BufferPool} {disk : Disk}
variable {acked staged current : Database} {changed : List PageId} {fi : Nat} {id : PageId}

/-- The pages changed under a pin, without one that has been marked. -/
def unmark (changed : List PageId) (id : PageId) : List PageId :=
  changed.filter fun other => decide (other ≠ id)

theorem mem_unmark {other : PageId} : other ∈ unmark changed id ↔ other ∈ changed ∧ other ≠ id := by
  simp [unmark]

theorem unmark_of_notMem (unchanged : id ∉ changed) : unmark changed id = changed := by
  refine List.filter_eq_self.mpr fun other member => decide_eq_true ?_
  rintro rfl
  exact unchanged member

section Marked

theorem Layered.list {files : Files} (layered : pool.Layered files acked staged current changed)
    (more : List Nat) :
    BufferPool.Layered { pool with dirtyList := pool.dirtyList ++ more } files acked staged current
      changed := by
  have linked := layered.toLinked
  exact ⟨⟨linked.hand, linked.table,
    fun fi dirty => List.mem_append_left _ (linked.listed fi dirty), linked.empty⟩, layered.shows,
    layered.fields, layered.resident, layered.absent, layered.clean, layered.held⟩

/-- A frame marked dirty may differ from the layers below. -/
theorem Layered.marked {files : Files} (layered : pool.Layered files acked staged current changed)
    (found : pool.table.lookup id = some fi) {changed' : List PageId}
    (held : id ∈ changed' → 0 < pool.pinsOf id)
    (others : ∀ other, other ≠ id → (other ∈ changed' ↔ other ∈ changed)) :
    (pool.marked fi).Layered files acked staged current changed' := by
  obtain ⟨same, real, inside⟩ := layered.toLinked.frame_id found
  subst same
  rw [layered.toLinked.pinsOf_frame real] at held
  unfold BufferPool.marked
  split
  · refine (layered.list [fi]).put_page real ?_ ?_ (fun _ => by simp) nofun held others
    · rfl
    · rfl
  · rename_i dirty
    have put := layered.put_page real rfl rfl (layered.toLinked.listed fi)
      (fun clean => absurd clean dirty) held others
    rwa [put_frame inside] at put

private theorem touched_marked (found : pool.table.lookup id = some fi) (linked : pool.Linked)
    {other : PageId} (touched : pool.Touched other ∨ other = id) :
    (pool.marked fi).Touched other := by
  obtain ⟨same, real, inside⟩ := linked.frame_id found
  unfold BufferPool.marked
  split
  · rename_i clean
    rcases touched with touched | rfl
    · refine touched_put inside ?_ (fun _ => .inl ?_) touched
      · rfl
      · rfl
    · refine .inl ⟨fi, ?_⟩
      have put : (pool.frames.set fi { pool.frame fi with dirty := true }).getD fi {} =
          { pool.frame fi with dirty := true } :=
        (frame_set inside).trans (if_pos rfl)
      exact ⟨(congrArg Frame.id put).trans same, congrArg Frame.dirty put⟩
  · rename_i dirty
    rcases touched with touched | rfl
    · exact touched
    · exact .inl ⟨fi, same, by simpa using dirty⟩

private theorem pinsOf_marked (linked : pool.Linked) (found : pool.table.lookup id = some fi)
    (other : PageId) : (pool.marked fi).pinsOf other = pool.pinsOf other := by
  obtain ⟨same, real, inside⟩ := linked.frame_id found
  subst same
  unfold BufferPool.marked
  split
  · refine (pinsOf_put linked real other).trans ?_
    split
    · subst other
      exact (linked.pinsOf_frame real).symm
    · rfl
  · rfl

theorem lookup_marked (other : PageId) :
    (pool.marked fi).table.lookup other = pool.table.lookup other := by
  unfold BufferPool.marked
  split <;> rfl

theorem length_marked : (pool.marked fi).frames.length = pool.frames.length := by
  unfold BufferPool.marked
  split
  · exact List.length_set
  · rfl

end Marked

/-- A frame whose pins and mark stay as they were. -/
theorem Manages.put {added : PageId → Prop} {frame : Frame} (linked : pool.Linked)
    (real : (pool.frame fi).id ≠ kNullPage) (same : frame.id = (pool.frame fi).id)
    (pins : frame.pins = (pool.frame fi).pins) (dirty : frame.dirty = (pool.frame fi).dirty) :
    Manages added pool (pool.put fi frame) := by
  refine ⟨List.length_set, ?_, fun _ _ none => none, fun other touched => ?_⟩
  · intro other
    rw [pinsOf_put linked real]
    split
    · subst other
      rw [linked.pinsOf_frame real, pins]
    · rfl
  · exact touched_put (inside_of_id real) same (fun marked => .inl (dirty.trans marked)) touched

section Released

/-- A pin is given back. -/
theorem Layered.released {files : Files}
    (layered : pool.Layered files acked staged current changed)
    (found : pool.table.lookup id = some fi)
    (held : id ∈ changed → 1 < pool.pinsOf id) :
    (pool.released fi).Layered files acked staged current changed := by
  obtain ⟨same, real, inside⟩ := layered.toLinked.frame_id found
  subst same
  rw [layered.toLinked.pinsOf_frame real] at held
  refine layered.put_page real ?_ ?_ (layered.toLinked.listed fi) (layered.clean fi real) ?_
    fun _ _ => Iff.rfl
  · rfl
  · rfl
  · intro member
    have pins := held member
    simp only
    omega

private theorem pinsOf_released (linked : pool.Linked) (found : pool.table.lookup id = some fi)
    (other : PageId) :
    (pool.released fi).pinsOf other = pool.pinsOf other - if other = id then 1 else 0 := by
  obtain ⟨same, real, inside⟩ := linked.frame_id found
  subst same
  refine (pinsOf_put linked real other).trans ?_
  split
  · subst other
    rw [linked.pinsOf_frame real]
  · rfl

private theorem touched_released (inside : fi < pool.frames.length) {other : PageId}
    (touched : pool.Touched other) : (pool.released fi).Touched other := by
  refine touched_put inside ?_ ?_ touched
  · rfl
  · exact .inl

/-- A page was pinned for a while. -/
theorem Pinned.released {pool' : BufferPool} (pinned : Pinned id pool pool')
    (linked : pool'.Linked) (found : pool'.table.lookup id = some fi) :
    Manages (· = id) pool (pool'.released fi) := by
  refine ⟨List.length_set.trans pinned.size, ?_, fun other different none =>
    pinned.resident other different none, fun other touched => ?_⟩
  · intro other
    rw [pinsOf_released linked found, pinned.pins, Nat.add_sub_cancel]
  · exact touched_released (linked.frame_id found).2.2 (pinned.touched other touched)

end Released

section Dirtied

/-- A frame that was pinned is marked and released. -/
theorem Layered.dirtied {files : Files} {changed' : List PageId}
    (layered : pool.Layered files acked staged current changed')
    (found : pool.table.lookup id = some fi)
    (others : ∀ other, other ≠ id → (other ∈ changed' ↔ other ∈ changed)) :
    ((pool.marked fi).released fi).Layered files acked staged current (unmark changed id) := by
  have apart : id ∉ unmark changed id := fun member => (mem_unmark.mp member).2 rfl
  have marked : (pool.marked fi).Layered files acked staged current (unmark changed id) :=
    layered.marked found (fun member => absurd member apart) fun other different => by
      simp [mem_unmark, different, others other different]
  exact marked.released ((lookup_marked id).trans found) fun member => absurd member apart

theorem Linked.marked (linked : pool.Linked) (found : pool.table.lookup id = some fi) :
    (pool.marked fi).Linked := by
  obtain ⟨same, real, inside⟩ := linked.frame_id found
  unfold BufferPool.marked
  split
  · have listed : Linked { pool with dirtyList := pool.dirtyList ++ [fi] } :=
      ⟨linked.hand, linked.table, fun other dirty => List.mem_append_left _
        (linked.listed other dirty), linked.empty⟩
    refine listed.put (same ▸ real) ?_ fun _ => by simp
    rfl
  · exact linked

private theorem pinsOf_dirtied (linked : pool.Linked) (found : pool.table.lookup id = some fi)
    (other : PageId) :
    ((pool.marked fi).released fi).pinsOf other = pool.pinsOf other - if other = id then 1 else 0 := by
  rw [pinsOf_released (linked.marked found) ((lookup_marked id).trans found),
    pinsOf_marked linked found]

theorem touched_dirtied (linked : pool.Linked) (found : pool.table.lookup id = some fi)
    {other : PageId} (touched : pool.Touched other ∨ other = id) :
    ((pool.marked fi).released fi).Touched other := by
  have inside : fi < (pool.marked fi).frames.length :=
    Nat.lt_of_lt_of_eq (linked.frame_id found).2.2 length_marked.symm
  exact touched_released inside (touched_marked found linked touched)

theorem Pinned.dirtied {pool' : BufferPool} (pinned : Pinned id pool pool')
    (linked : pool'.Linked) (found : pool'.table.lookup id = some fi) :
    Manages (· = id) pool ((pool'.marked fi).released fi) := by
  refine ⟨(List.length_set.trans length_marked).trans pinned.size, ?_, ?_, ?_⟩ <;> intro other
  · rw [pinsOf_dirtied linked found, pinned.pins, Nat.add_sub_cancel]
  · intro different none
    exact (lookup_marked other).trans (pinned.resident other different none)
  · exact fun touched => touched_dirtied linked found (.inl (pinned.touched other touched))

theorem Pinned.manages {pool' pool'' : BufferPool} (pinned : Pinned id pool pool')
    (manages : Manages (fun _ => False) pool' pool'') : Pinned id pool pool'' :=
  ⟨manages.size.trans pinned.size, fun other => (manages.pins other).trans (pinned.pins other),
    fun other different none =>
      manages.resident other not_false (pinned.resident other different none),
    fun other touched => manages.touched other (pinned.touched other touched)⟩

end Dirtied

section Operations

/-- A page can neither be found nor loaded. -/
def Unreadable (pool : BufferPool) (current : Database) (id : PageId) : Prop :=
  pool.Denied current id ∨ pool.table.lookup id = none ∧ ¬ current.Covers id

/-- A pin that is not the last on a page changed under it. -/
theorem Pinned.spare {pool' : BufferPool} (pinned : Pinned id pool pool')
    (held : ∀ id ∈ changed, 0 < pool.pinsOf id) (member : id ∈ changed) : 1 < pool'.pinsOf id := by
  have before := held id member
  rw [pinned.pins, if_pos rfl]
  omega

theorem wp_readPage (layered : pool.Layered disk.files acked staged current changed) :
    Prog.wp may (readPage id)
      (fun page pool' disk' => page = current.page id ∧
        pool'.Shows disk' acked current changed ∧ Manages (· = id) pool pool')
      (fun _ => Refused may acked current changed (pool.Unreadable current id))
      (Asks False acked) pool disk := by
  unfold readPage
  rw [Prog.wp_bind]
  refine Prog.wp_mono (wp_obtain_true layered) ?_ (fun _ _ _ refused => refused)
    fun _ _ asked => asked
  rintro fi pool' disk' ⟨⟨staged', layered'⟩, found, pinned, _⟩
  obtain ⟨same, real, inside⟩ := layered'.toLinked.frame_id found
  simp only [Prog.wp_bind, Prog.wp_get, wp_release, Prog.wp_pure]
  refine ⟨?_, ⟨staged', layered'.released found (pinned.spare layered.held)⟩,
    pinned.released layered'.toLinked found⟩
  rw [layered'.resident fi (same ▸ real), same]

theorem wp_fetchPin (layered : pool.Layered disk.files acked staged current changed) :
    Prog.wp may (fetchPin id)
      (fun page pool' disk' => page = current.page id ∧
        pool'.Shows disk' acked current changed ∧ Pinned id pool pool')
      (fun _ => Refused may acked current changed (pool.Unreadable current id))
      (Asks False acked) pool disk := by
  unfold fetchPin
  rw [Prog.wp_bind]
  refine Prog.wp_mono (wp_obtain_true layered) ?_ (fun _ _ _ refused => refused)
    fun _ _ asked => asked
  rintro fi pool' disk' ⟨⟨staged', layered'⟩, found, pinned, _⟩
  obtain ⟨same, real, _⟩ := layered'.toLinked.frame_id found
  refine ⟨?_, ⟨staged', layered'⟩, pinned⟩
  rw [layered'.resident fi (same ▸ real), same]

/-- A page goes into a frame that is pinned. -/
theorem Layered.assigned {files : Files}
    (layered : pool.Layered files acked staged current changed)
    (found : pool.table.lookup id = some fi) (pinned : 0 < pool.pinsOf id) (page : Page)
    {changed' : List PageId} (member : id ∈ changed')
    (others : ∀ other, other ≠ id → (other ∈ changed' ↔ other ∈ changed)) :
    (pool.put fi { pool.frame fi with page }).Layered files acked staged (current.set id page)
      changed' := by
  obtain ⟨same, real, inside⟩ := layered.toLinked.frame_id found
  subst same
  rw [layered.toLinked.pinsOf_frame real] at pinned
  refine layered.put real ?_ (layered.toLinked.listed fi) ?_ (fun _ => pinned) others
  · rfl
  · exact fun _ unchanged => absurd member unchanged

theorem wp_assign (layered : pool.Layered disk.files acked staged current changed)
    (pinned : 0 < pool.pinsOf id) (page : Page) {raised : Error → BufferPool → Disk → Prop} :
    Prog.wp may (assign id page)
      (fun _ pool' disk' => pool'.Shows disk' acked (current.set id page) (id :: changed) ∧
        Manages (fun _ => False) pool pool')
      raised (Asks False acked) pool disk := by
  unfold assign
  rw [Prog.wp_bind, Prog.wp_get]
  cases found : pool.table.lookup id with
  | none =>
    rw [pinsOf, found] at pinned
    cases pinned
  | some fi =>
    obtain ⟨same, real, inside⟩ := layered.toLinked.frame_id found
    have assigned : (pool.put fi { pool.frame fi with page }).Layered disk.files acked staged
        (current.set id page) (id :: changed) :=
      layered.assigned found pinned page List.mem_cons_self fun other different => by
        simp [different]
    refine ⟨⟨staged, assigned⟩, .put layered.toLinked (same ▸ real) ?_ ?_ ?_⟩ <;> rfl

/-- One pin of a page was given back. -/
structure Unpinned (id : PageId) (pool pool' : BufferPool) : Prop where
  size : pool'.frames.length = pool.frames.length
  pins : ∀ other, pool'.pinsOf other = pool.pinsOf other - if other = id then 1 else 0
  resident : ∀ other, pool.table.lookup other = none → pool'.table.lookup other = none
  touched : ∀ other, pool.Touched other → pool'.Touched other

theorem wp_unpin (layered : pool.Layered disk.files acked staged current changed)
    (pinned : 0 < pool.pinsOf id) {dirty : Bool}
    (marks : id ∈ changed → dirty = true ∨ 1 < pool.pinsOf id)
    {raised : Error → BufferPool → Disk → Prop} :
    Prog.wp may (unpin id dirty)
      (fun _ pool' disk' =>
        pool'.Shows disk' acked current (if dirty then unmark changed id else changed) ∧
          Unpinned id pool pool' ∧ (dirty = true → pool'.Touched id))
      raised (Asks False acked) pool disk := by
  unfold unpin
  rw [Prog.wp_bind, Prog.wp_get]
  cases found : pool.table.lookup id with
  | none =>
    rw [pinsOf, found] at pinned
    cases pinned
  | some fi =>
    have linked := layered.toLinked
    obtain ⟨same, real, inside⟩ := linked.frame_id found
    have pins : (pool.frame fi).pins = pool.pinsOf id := by
      rw [← same, linked.pinsOf_frame (same ▸ real)]
    simp only [Prog.wp_bind, wp_checkThat, pins, pinned, decide_true, if_true, Prog.wp_when,
      wp_markDirty, wp_release]
    cases dirty with
    | true =>
      refine ⟨⟨staged, layered.dirtied found fun _ _ => Iff.rfl⟩, ⟨?_, ?_, ?_, ?_⟩, fun _ => ?_⟩
      · exact List.length_set.trans length_marked
      · exact pinsOf_dirtied linked found
      · exact fun other none => (lookup_marked other).trans none
      · exact fun other touched => touched_dirtied linked found (.inl touched)
      · exact touched_dirtied linked found (.inr rfl)
    | false =>
      refine ⟨⟨staged, layered.released found fun member => ?_⟩, ⟨List.length_set, ?_, ?_, ?_⟩,
        nofun⟩
      · exact (marks member).resolve_left nofun
      · exact pinsOf_released linked found
      · exact fun _ none => none
      · exact fun other => touched_released inside

/-- What a write does once its frame is pinned. -/
theorem wp_overwrite {pool' : BufferPool} {current' : Database} {changed' : List PageId}
    (layered : pool'.Layered disk.files acked staged current' changed')
    (found : pool'.table.lookup id = some fi) (pinned : Pinned id pool pool')
    (others : ∀ other, other ≠ id → (other ∈ changed' ↔ other ∈ changed)) {page : Page}
    {target : Database} (shown : current'.set id page = target)
    {raised : Error → BufferPool → Disk → Prop} :
    Prog.wp may
      (do
        Prog.modify fun pool => pool.put fi { pool.frame fi with page }
        markDirty fi
        release fi)
      (fun _ pool' disk' => pool'.Shows disk' acked target (unmark changed id) ∧
        Manages (· = id) pool pool' ∧ pool'.Touched id)
      raised (Asks False acked) pool' disk := by
  subst shown
  have linked := layered.toLinked
  obtain ⟨same, real, inside⟩ := linked.frame_id found
  have pins : 0 < pool'.pinsOf id := by
    rw [pinned.pins, if_pos rfl]
    exact Nat.succ_pos _
  have assigned : (pool'.put fi { pool'.frame fi with page }).Layered disk.files acked staged
      (current'.set id page) (id :: changed) :=
    layered.assigned found pins page List.mem_cons_self fun other different => by
      simp [different, others other different]
  have placed : Pinned id pool (pool'.put fi { pool'.frame fi with page }) := by
    refine pinned.manages (.put linked (same ▸ real) ?_ ?_ ?_) <;> rfl
  simp only [Prog.wp_bind, Prog.wp_modify, wp_markDirty, wp_release]
  have linked' := assigned.toLinked
  exact ⟨⟨staged, assigned.dirtied found fun other different => by simp [different]⟩,
    placed.dirtied linked' found, touched_dirtied linked' found (.inr rfl)⟩

theorem wp_writePage (layered : pool.Layered disk.files acked staged current changed)
    (real : id ≠ kNullPage) (page : Page) :
    Prog.wp may (writePage id page)
      (fun _ pool' disk' => pool'.Shows disk' acked (current.set id page) (unmark changed id) ∧
        Manages (· = id) pool pool' ∧ pool'.Touched id)
      (fun _ => Refused may acked current changed (pool.Denied current id))
      (Asks False acked) pool disk := by
  unfold writePage
  rw [Prog.wp_bind, Prog.wp_get, Prog.wp_bind]
  cases resident : pool.table.lookup id with
  | some fi =>
    refine Prog.wp_mono (wp_obtain_true layered) ?_ ?_ fun _ _ asked => asked
    · rintro fi' pool' disk' ⟨⟨staged', layered'⟩, found, pinned, _⟩
      exact wp_overwrite layered' found pinned (fun _ _ => Iff.rfl) rfl
    · refine fun _ _ _ refused => refused.imp ?_
      rintro (denied | ⟨absent, _⟩)
      · exact denied
      · rw [resident] at absent
        cases absent
  | none =>
    refine Prog.wp_mono (wp_obtain_false layered real resident) ?_ ?_ fun _ _ asked => asked
    · rintro fi' pool' disk' ⟨⟨staged', layered'⟩, found, pinned⟩
      exact wp_overwrite layered' found pinned (fun other different => by simp [different])
        (Database.set_set page)
    · exact fun _ _ _ refused => refused.imp fun reason => ⟨resident, reason⟩

end Operations

end Labdb.Pool.BufferPool
