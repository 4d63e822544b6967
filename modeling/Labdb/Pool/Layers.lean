import Labdb.Pool.Invariant

/-! What filling, changing and dropping one frame do to the layers of a pool. -/

namespace Labdb.Pool.BufferPool

open Labdb.Program Labdb.Storage

variable {pool : BufferPool} {files files' : Files} {acked staged current : Database}
variable {changed changed' : List PageId} {fi : Nat} {id : PageId}

/-- The pool without the page of one frame. -/
def dropped (pool : BufferPool) (fi : Nat) : BufferPool :=
  { pool with
    frames := pool.frames.set fi
      { pool.frame fi with id := kNullPage, dirty := false, ref := false }
    table := pool.table.erase (pool.frame fi).id }

/-- The pool with a page in a frame that was empty. -/
def filled (pool : BufferPool) (fi : Nat) (id : PageId) (page : Page) : BufferPool :=
  { pool with
    frames := pool.frames.set fi { page, id, pins := 1, dirty := false, ref := true }
    table := pool.table.insert id fi }

theorem frame_dropped (inside : fi < pool.frames.length) (other : Nat) :
    (pool.dropped fi).frame other =
      if fi = other then { pool.frame fi with id := kNullPage, dirty := false, ref := false }
      else pool.frame other :=
  frame_set inside

theorem frame_filled (inside : fi < pool.frames.length) (page : Page) (other : Nat) :
    (pool.filled fi id page).frame other =
      if fi = other then { page, id, pins := 1, dirty := false, ref := true }
      else pool.frame other :=
  frame_set inside

theorem lookup_dropped (other : PageId) :
    (pool.dropped fi).table.lookup other =
      if other = (pool.frame fi).id then none else pool.table.lookup other := by
  split
  · subst other
    exact AList.lookup_erase ..
  · exact AList.lookup_erase_ne ‹_›

theorem lookup_filled (page : Page) (other : PageId) :
    (pool.filled fi id page).table.lookup other =
      if other = id then some fi else pool.table.lookup other := by
  split
  · subst other
    exact AList.lookup_insert ..
  · exact AList.lookup_insert_ne ‹_›

section Dropped

theorem Linked.pinsOf_dropped (linked : pool.Linked) (some : (pool.frame fi).id ≠ kNullPage)
    (free : (pool.frame fi).pins = 0) (id : PageId) :
    (pool.dropped fi).pinsOf id = pool.pinsOf id := by
  by_cases same : id = (pool.frame fi).id
  · subst id
    rw [linked.pinsOf_frame some, free, pinsOf, lookup_dropped, if_pos rfl]
  · simp only [pinsOf, lookup_dropped, if_neg same]
    cases found : pool.table.lookup id with
    | none => rfl
    | some other =>
      have apart : fi ≠ other := by
        rintro rfl
        exact same ((linked.table id fi).mp found).2.symm
      simp only [frame_dropped (inside_of_id some), if_neg apart]

theorem Linked.dropped (linked : pool.Linked) (some : (pool.frame fi).id ≠ kNullPage)
    (free : (pool.frame fi).pins = 0) : (pool.dropped fi).Linked := by
  have inside := inside_of_id some
  refine ⟨?_, ?_, ?_, ?_⟩
  · have hand := linked.hand
    simpa [BufferPool.dropped] using hand
  · intro id other
    rw [lookup_dropped, frame_dropped inside]
    have table := linked.table id other
    by_cases here : fi = other
    · subst other
      rw [if_pos rfl]
      split
      · simp [kNullPage, eq_comm]
      · simp_all [kNullPage, eq_comm]
    · rw [if_neg here]
      split
      · subst id
        refine ⟨nofun, fun ⟨_, same⟩ => absurd (linked.one some same).symm here⟩
      · exact table
  · intro other dirty
    rw [frame_dropped inside] at dirty
    split at dirty
    · cases dirty
    · exact linked.listed other dirty
  · intro other none
    rw [frame_dropped inside] at none ⊢
    split
    · exact ⟨rfl, free⟩
    · rw [if_neg ‹_›] at none
      exact linked.empty other none

/-- A frame that holds what lies below may go. -/
theorem Layered.dropped (layered : pool.Layered files acked staged current changed)
    (some : (pool.frame fi).id ≠ kNullPage) (free : (pool.frame fi).pins = 0)
    (same : (pool.frame fi).page = staged.page (pool.frame fi).id) :
    (pool.dropped fi).Layered files acked staged current changed := by
  have inside := inside_of_id some
  refine ⟨layered.toLinked.dropped some free, layered.shows, layered.fields, ?_, ?_, ?_, ?_⟩
  · intro other
    rw [frame_dropped inside]
    split
    · exact fun impossible => absurd rfl impossible
    · exact layered.resident other
  · intro id
    rw [lookup_dropped]
    split
    · subst id
      exact fun _ => (layered.resident fi some).symm.trans same
    · exact layered.absent id
  · intro other
    rw [frame_dropped inside]
    split
    · exact fun impossible => absurd rfl impossible
    · exact layered.clean other
  · intro id member
    rw [layered.pinsOf_dropped some free]
    exact layered.held id member

theorem Keeps.dropped (keeps : pool.Keeps files acked changed)
    (some : (pool.frame fi).id ≠ kNullPage) (free : (pool.frame fi).pins = 0) :
    (pool.dropped fi).Keeps files acked changed := by
  refine ⟨keeps.toLinked.dropped some free, keeps.keeps, ?_⟩
  intro other
  rw [frame_dropped (inside_of_id some)]
  split
  · exact fun impossible => absurd rfl impossible
  · exact keeps.settled other

theorem Manages.dropped {added : PageId → Prop} (linked : pool.Linked)
    (some : (pool.frame fi).id ≠ kNullPage) (free : (pool.frame fi).pins = 0)
    (saved : (pool.frame fi).dirty = true → (pool.frame fi).id ∈ pool.pager.wal.pending) :
    Manages added pool (pool.dropped fi) := by
  have inside := inside_of_id some
  refine ⟨List.length_set, linked.pinsOf_dropped some free, ?_, ?_⟩ <;> intro id
  · intro _ none
    rw [lookup_dropped]
    split
    · rfl
    · exact none
  · rintro (⟨other, same, dirty⟩ | pending)
    · by_cases here : fi = other
      · subst other
        exact .inr (same ▸ saved dirty)
      · refine .inl ⟨other, ?_⟩
        rw [frame_dropped inside, if_neg here]
        exact ⟨same, dirty⟩
    · exact .inr pending

end Dropped

section Filled

theorem Linked.filled (linked : pool.Linked) (inside : fi < pool.frames.length)
    (vacant : (pool.frame fi).id = kNullPage) (absent : pool.table.lookup id = none)
    (some : id ≠ kNullPage) (page : Page) : (pool.filled fi id page).Linked := by
  refine ⟨?_, ?_, ?_, ?_⟩
  · have hand := linked.hand
    simpa [BufferPool.filled] using hand
  · intro other fi'
    rw [lookup_filled, frame_filled inside]
    have table := linked.table other fi'
    by_cases here : fi = fi'
    · subst fi'
      rw [if_pos rfl]
      split
      · subst other
        simp [some]
      · rw [table, vacant]
        exact ⟨fun ⟨some, same⟩ => absurd same.symm some, fun ⟨_, same⟩ => absurd same.symm ‹_›⟩
    · rw [if_neg here]
      split
      · subst other
        rw [Option.some_inj]
        exact ⟨fun same => absurd same here,
          fun ⟨_, same⟩ => absurd same (linked.absent absent some fi')⟩
      · exact table
  · intro other dirty
    rw [frame_filled inside] at dirty
    split at dirty
    · cases dirty
    · exact linked.listed other dirty
  · intro other null
    rw [frame_filled inside] at null ⊢
    split
    · rw [if_pos ‹_›] at null
      exact absurd null some
    · rw [if_neg ‹_›] at null
      exact linked.empty other null

theorem pinsOf_filled (vacant : (pool.frame fi).id = kNullPage)
    (inside : fi < pool.frames.length) (linked : pool.Linked) (page : Page) (other : PageId) :
    (pool.filled fi id page).pinsOf other = if other = id then 1 else pool.pinsOf other := by
  simp only [pinsOf, lookup_filled]
  by_cases same : other = id
  · simp only [if_pos same, frame_filled inside, ↓reduceIte]
  · simp only [if_neg same]
    cases found : pool.table.lookup other with
    | none => rfl
    | some fi' =>
      have apart : fi ≠ fi' := by
        rintro rfl
        obtain ⟨some, same⟩ := (linked.table other fi).mp found
        exact some (same.symm.trans vacant)
      simp only [frame_filled inside, if_neg apart]

/-- A page goes over the layers below; unless it is what lies there, it counts as
changed under its pin. -/
theorem Layered.filled (layered : pool.Layered files acked staged current changed)
    (inside : fi < pool.frames.length) (vacant : (pool.frame fi).id = kNullPage)
    (absent : pool.table.lookup id = none) (some : id ≠ kNullPage) (page : Page)
    (same : id ∉ changed' → page = staged.page id)
    (others : ∀ other, other ≠ id → (other ∈ changed' ↔ other ∈ changed)) :
    (pool.filled fi id page).Layered files acked staged
      (current.set id page) changed' := by
  have linked := layered.toLinked
  refine ⟨linked.filled inside vacant absent some page, layered.shows, layered.fields, ?_, ?_, ?_,
    ?_⟩
  · intro other
    rw [frame_filled inside]
    split
    · exact fun _ => Database.set_page_self.symm
    · intro held
      rw [Database.set_page_ne (linked.absent absent some other)]
      exact layered.resident other held
  · intro other
    rw [lookup_filled]
    split
    · nofun
    · rw [Database.set_page_ne ‹_›]
      exact layered.absent other
  · intro other
    rw [frame_filled inside]
    split
    · exact fun _ _ => same
    · intro held clean unchanged
      exact layered.clean other held clean fun member =>
        unchanged ((others _ (linked.absent absent some other)).mpr member)
  · intro other member
    rw [pinsOf_filled vacant inside linked page]
    split
    · exact Nat.one_pos
    · exact layered.held other ((others other ‹_›).mp member)

theorem touched_filled (inside : fi < pool.frames.length) (linked : pool.Linked)
    (vacant : (pool.frame fi).id = kNullPage) (page : Page) {other : PageId}
    (touched : pool.Touched other) : (pool.filled fi id page).Touched other := by
  rcases touched with ⟨fi', same, dirty⟩ | pending
  · refine .inl ⟨fi', ?_⟩
    have apart : fi ≠ fi' := by
      rintro rfl
      rw [(linked.empty fi vacant).1] at dirty
      cases dirty
    rw [frame_filled inside, if_neg apart]
    exact ⟨same, dirty⟩
  · exact .inr pending

end Filled

section Put

variable {frame : Frame}

theorem Linked.put (linked : pool.Linked) (some : (pool.frame fi).id ≠ kNullPage)
    (same : frame.id = (pool.frame fi).id) (listed : frame.dirty = true → fi ∈ pool.dirtyList) :
    (pool.put fi frame).Linked := by
  have inside := inside_of_id some
  have ids : ∀ other, ((pool.put fi frame).frame other).id = (pool.frame other).id := by
    intro other
    rw [frame_put inside]
    split
    · subst other
      exact same
    · rfl
  refine ⟨?_, ?_, ?_, ?_⟩
  · have hand := linked.hand
    simpa [BufferPool.put] using hand
  · intro id other
    rw [ids]
    exact linked.table id other
  · intro other
    rw [frame_put inside]
    split
    · subst other
      exact listed
    · exact linked.listed other
  · intro other null
    rw [ids] at null
    have apart : fi ≠ other := by
      rintro rfl
      exact some null
    rw [frame_put inside, if_neg apart]
    exact linked.empty other null

theorem pinsOf_put (linked : pool.Linked) (some : (pool.frame fi).id ≠ kNullPage) (id : PageId) :
    (pool.put fi frame).pinsOf id =
      if id = (pool.frame fi).id then frame.pins else pool.pinsOf id := by
  have inside := inside_of_id some
  have table := linked.table id
  have lookup : (pool.put fi frame).table = pool.table := rfl
  simp only [pinsOf, lookup]
  cases found : pool.table.lookup id with
  | none =>
    have other : id ≠ (pool.frame fi).id := by
      rintro rfl
      rw [(table fi).mpr ⟨some, rfl⟩] at found
      cases found
    simp only [if_neg other]
  | some other =>
    obtain ⟨_, same⟩ := (table other).mp found
    simp only [frame_put inside]
    by_cases here : fi = other
    · subst other
      simp only [↓reduceIte, if_pos same.symm]
    · have apart : id ≠ (pool.frame fi).id :=
        fun named => here (linked.one some (same.trans named)).symm
      simp only [if_neg here, if_neg apart]

/-- One frame changes, its page with it. -/
theorem Layered.put (layered : pool.Layered files acked staged current changed)
    (some : (pool.frame fi).id ≠ kNullPage) (same : frame.id = (pool.frame fi).id)
    (listed : frame.dirty = true → fi ∈ pool.dirtyList)
    (clean : frame.dirty = false → frame.id ∉ changed' → frame.page = staged.page frame.id)
    (held : frame.id ∈ changed' → 0 < frame.pins)
    (others : ∀ id, id ≠ frame.id → (id ∈ changed' ↔ id ∈ changed)) :
    (pool.put fi frame).Layered files acked staged
      (current.set frame.id frame.page) changed' := by
  have inside := inside_of_id some
  have linked := layered.toLinked
  have apart : ∀ {other}, fi ≠ other → (pool.frame other).id ≠ frame.id :=
    fun here named => here (linked.one some (named.trans same)).symm
  refine ⟨linked.put some same listed, layered.shows, layered.fields, ?_, ?_, ?_, ?_⟩
  · intro other
    rw [frame_put inside]
    split
    · exact fun _ => Database.set_page_self.symm
    · rw [Database.set_page_ne (apart ‹_›)]
      exact layered.resident other
  · intro id none
    have different : id ≠ frame.id := by
      rintro rfl
      rw [same] at none
      have found := (linked.table (pool.frame fi).id fi).mpr ⟨some, rfl⟩
      rw [show (pool.put fi frame).table = pool.table from rfl, found] at none
      cases none
    rw [Database.set_page_ne different]
    exact layered.absent id none
  · intro other
    rw [frame_put inside]
    split
    · exact fun _ => clean
    · intro held clean unchanged
      exact layered.clean other held clean fun member =>
        unchanged ((others _ (apart ‹_›)).mpr member)
  · intro id member
    rw [pinsOf_put linked some]
    split
    · rw [← same] at *
      subst id
      exact held member
    · rw [← same] at *
      exact layered.held id ((others id ‹_›).mp member)

/-- A change of a frame that leaves its page as it was. -/
theorem Layered.put_page (layered : pool.Layered files acked staged current changed)
    (some : (pool.frame fi).id ≠ kNullPage) (same : frame.id = (pool.frame fi).id)
    (page : frame.page = (pool.frame fi).page)
    (listed : frame.dirty = true → fi ∈ pool.dirtyList)
    (clean : frame.dirty = false → frame.id ∉ changed' → frame.page = staged.page frame.id)
    (held : frame.id ∈ changed' → 0 < frame.pins)
    (others : ∀ id, id ≠ frame.id → (id ∈ changed' ↔ id ∈ changed)) :
    (pool.put fi frame).Layered files acked staged current changed' := by
  have put := layered.put some same listed clean held others
  rwa [page, layered.resident fi some, ← same, Database.set_same] at put

theorem touched_put (inside : fi < pool.frames.length) (same : frame.id = (pool.frame fi).id)
    (dirty : (pool.frame fi).dirty = true →
      frame.dirty = true ∨ frame.id ∈ pool.pager.wal.pending)
    {id : PageId} (touched : pool.Touched id) : (pool.put fi frame).Touched id := by
  rcases touched with ⟨other, named, changed⟩ | pending
  · by_cases here : fi = other
    · subst other
      rcases dirty changed with still | pending
      · refine .inl ⟨fi, ?_⟩
        rw [frame_put inside, if_pos rfl]
        exact ⟨same.trans named, still⟩
      · exact .inr (named ▸ same ▸ pending)
    · refine .inl ⟨other, ?_⟩
      rw [frame_put inside, if_neg here]
      exact ⟨named, changed⟩
  · exact .inr pending

end Put

/-- A dirty frame was written back: the layer below now holds its page. -/
theorem Layered.written {pager : Pager} (layered : pool.Layered files acked staged current changed)
    (some : (pool.frame fi).id ≠ kNullPage)
    (shows : pager.Shows files' acked (staged.set (pool.frame fi).id (pool.frame fi).page)) :
    BufferPool.Layered { pool with pager } files' acked
      (staged.set (pool.frame fi).id (pool.frame fi).page) current changed := by
  have linked := layered.toLinked
  refine ⟨⟨linked.hand, linked.table, linked.listed, linked.empty⟩, shows, layered.fields,
    layered.resident, ?_, ?_, layered.held⟩
  · intro id none
    have different : id ≠ (pool.frame fi).id := by
      rintro rfl
      exact linked.absent none some fi rfl
    rw [Database.set_page_ne different]
    exact layered.absent id none
  · intro other held clean unchanged
    by_cases same : (pool.frame other).id = (pool.frame fi).id
    · obtain rfl := linked.one some same
      exact Database.set_page_self.symm
    · exact (layered.clean other held clean unchanged).trans (Database.set_page_ne same).symm

end Labdb.Pool.BufferPool
