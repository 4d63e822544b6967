import Labdb.Storage.PagerInvariant

/-! What each operation of the pager does to the database it shows, at every call
and under the failures a transaction can survive. -/

namespace Labdb.Storage.Pager

open Labdb.Program

variable {may : FileCall → Disk → Prop} {synced : Prop} {pager : Pager} {disk : Disk}
variable {acked current : Database}

theorem wp_checkThat {ok : Bool} {what : String} {post : Unit → Pager → Disk → Prop}
    {raised : Error → Pager → Disk → Prop} {asks : FileCall → Disk → Prop} :
    Prog.wp may (checkThat ok what) post raised asks pager disk ↔
      if ok then post () pager disk else raised (.invariant what) pager disk := by
  unfold checkThat
  split <;> rfl

/-- A pager that syncs every commit, and has synced the last one. -/
def Durable (pager : Pager) (disk : Disk) : Prop :=
  pager.durability = .kFull ∧ disk.Vouched pager.wal.commitEnd

/-- How an operation that was not done leaves the pager: refused with nothing
changed, or cut short by a failed call. -/
def Refused (may : FileCall → Disk → Prop) (synced : Prop) (acked current : Database)
    (refuses : Prop) (pager : Pager) (disk : Disk) : Prop :=
  (refuses ∧ pager.Shows disk.files acked current ∧ (synced → pager.Durable disk)) ∨
    ((∃ request disk, may request disk) ∧ pager.Keeps disk.files acked)

/-- The program does to the database shown what `spec` does, or is refused where
`spec` is; what was committed last is on the disk at every call. -/
def Serves {α : Type} (may : FileCall → Disk → Prop) (synced : Prop) (program : PagerM α)
    (spec : Database → Option (α × Database)) : Prop :=
  ∀ {pager : Pager} {disk : Disk} {acked current : Database},
    pager.Shows disk.files acked current → (synced → pager.Durable disk) →
      Prog.wp may program
        (fun value pager' disk' => ∃ current', spec current = some (value, current') ∧
          pager'.Shows disk'.files acked current' ∧ (synced → pager'.Durable disk'))
        (fun _ => Refused may synced acked current (spec current = none))
        (Asks synced acked) pager disk

/-- A read answers with the page that the pager shows, and disturbs nothing. -/
theorem wp_readPage (shows : pager.Shows disk.files acked current) (id : PageId)
    {post : Page → Pager → Disk → Prop} {raised : Error → Pager → Disk → Prop}
    {asks : FileCall → Disk → Prop} :
    Prog.wp may (readPage id) post raised asks pager disk ↔
      match current.read id with
      | some page => post page pager disk
      | none => raised (.invariant "read_page: page id out of range") pager disk := by
  have range : (id ≠ 0 ∧ id < pager.meta_.pageCount) ↔ current.Covers id := by
    rw [shows.meta_, Database.Covers]
  unfold readPage Database.read
  simp only [Prog.wp_bind, Prog.wp_get, wp_checkThat, decide_eq_true_eq, range]
  by_cases inside : current.Covers id
  · rw [if_pos inside, if_pos inside]
    have shown := shows.pages id inside.1
    have named := shows.named.pages id
    simp only [onWal, Prog.wp_zoom, Wal.wp_read shows.tracks]
    cases version : pager.wal.version disk.files.log id with
    | some page =>
      obtain rfl : page = current.page id := by simpa [version] using shown
      simp [wp_checkThat, named]
    | none =>
      have filed : disk.files.page id = current.page id := by simpa [version] using shown
      by_cases short : id < pager.filePages
      · have present : disk.files.pages[id]? = some (current.page id) := by
          rw [shows.filePages] at short
          simpa [Files.page, List.getD_eq_getElem?_getD, short] using filed
        simp [wp_checkThat, short, present, named]
      · have blank : current.page id = {} := by
          rw [shows.filePages] at short
          simpa [Files.page, List.getD_eq_getElem?_getD, short] using filed.symm
        simp [wp_checkThat, short, blank]
  · rw [if_neg inside, if_neg inside]

theorem serves_readPage (id : PageId) :
    Serves may synced (readPage id) fun database => (database.read id).map (·, database) := by
  intro pager disk acked current shows durable
  rw [wp_readPage shows]
  cases found : current.read id with
  | some page => exact ⟨current, by simp [found], shows, durable⟩
  | none => exact .inl ⟨by simp [found], shows, durable⟩

/-- New meta fields, over at least as many pages. -/
theorem Shows.fields (shows : pager.Shows disk.files acked current) (update : Meta → Meta)
    (more : current.fields.pageCount ≤ (update current.fields).pageCount) :
    { pager with meta_ := update pager.meta_, metaDirty := true }.Shows disk.files acked
      { current with fields := update current.fields } :=
  ⟨⟨shows.holds, shows.identity, shows.stores, shows.committed, shows.filePages⟩, shows.tracks,
    congrArg update shows.meta_, shows.pages,
    fun id found => Nat.lt_of_lt_of_le (shows.bounded id found) more,
    Nat.lt_of_lt_of_le shows.counted more, ⟨shows.named.meta_, shows.named.pages⟩,
    by simp [inTransaction]⟩

theorem Shows.writes (shows : pager.Shows disk.files acked current) {id : PageId} {page : Page}
    (covers : current.Covers id) (own : page.id = id) {wal : Wal} {disk' : Disk}
    (writes : Wal.Writes pager.wal disk.files id page wal disk'.files) :
    { pager with wal }.Shows disk'.files acked
      { current with page := Function.update current.page id page } := by
  refine ⟨shows.spares writes.spares, writes.tracks, shows.meta_, ?_, ?_, shows.counted,
    Database.named_update shows.named covers.1 own, ?_⟩
  · intro other inside
    simp only [writes.version, Files.page, writes.spares.pages]
    by_cases same : other = id
    · subst other
      simp
    · simpa [same, Files.page] using shows.pages other inside
  · intro other found
    simp only [writes.version] at found
    by_cases same : other = id
    · subst other
      exact covers.2
    · exact shows.bounded other (by simpa [same] using found)
  · intro idle
    have member : id ∈ wal.pending := (writes.pending id).mpr (.inl rfl)
    simp only [inTransaction, Bool.or_eq_false_iff, Bool.not_eq_false'] at idle
    rw [Wal.slotMap_empty idle.1] at member
    exact absurd member (AList.notMem_empty id)

theorem serves_writePage (id : PageId) (page : Page) :
    Serves may synced (writePage id page) fun database => (database.write id page).map ((), ·) := by
  intro pager disk acked current shows durable
  have range : (id ≠ 0 ∧ id < pager.meta_.pageCount) ↔ current.Covers id := by
    rw [shows.meta_, Database.Covers]
  unfold writePage Database.write
  simp only [Prog.wp_bind, Prog.wp_get, wp_checkThat, decide_eq_true_eq, range]
  by_cases covers : current.Covers id
  · by_cases own : page.id = id
    · rw [if_pos covers, if_pos own, if_pos ⟨covers, own⟩, onWal, Prog.wp_zoom]
      refine Prog.wp_mono (Wal.wp_write synced shows.tracks (fun _ => shows.owns)
        (fun syncs => (durable syncs).2) id page) ?_ ?_ ?_
      · rintro _ wal disk' ⟨writes, vouched⟩
        exact ⟨_, rfl, shows.writes covers own writes,
          fun syncs => ⟨(durable syncs).1, vouched (durable syncs).2⟩⟩
      · rintro _ wal disk' ⟨failed, spares⟩
        exact .inr ⟨failed, shows.spares spares⟩
      · rintro request disk' ⟨legal, wal, spares⟩
        exact ⟨legal, (shows.toKeeps.spares spares).sound⟩
    · rw [if_pos covers, if_neg own, if_neg (by simp [own])]
      exact .inl ⟨rfl, shows, durable⟩
  · rw [if_neg covers, if_neg (by simp [covers])]
    exact .inl ⟨rfl, shows, durable⟩

/-- An allocation changes the meta fields in memory alone. -/
theorem wp_allocatePage (shows : pager.Shows disk.files acked current)
    (fits : current.fields.Fits) {asks : FileCall → Disk → Prop} :
    Prog.wp may allocatePage
      (fun id pager' disk' => disk' = disk ∧ id ≠ kNullPage ∧ ∃ fields,
        current.allocate = some (id, { current with fields }) ∧
        pager' = { pager with meta_ := fields, metaDirty := true } ∧
        pager'.Shows disk.files acked { current with fields })
      (fun _ pager' disk' => pager' = pager ∧ disk' = disk ∧ current.allocate = none)
      asks pager disk := by
  unfold allocatePage Database.allocate
  simp only [Prog.wp_bind, Prog.wp_get, Prog.wp_ite, Prog.wp_set, Prog.wp_pure,
    wp_readPage shows, ← shows.meta_]
  by_cases empty : pager.meta_.freelistHead = kNullPage
  · rw [if_pos empty, if_pos empty]
    have counted := shows.counted
    rw [← shows.meta_] at counted fits
    rw [Nat.mod_eq_of_lt (fits empty)]
    refine ⟨trivial, Nat.ne_of_gt counted, _, rfl, rfl, ?_⟩
    have grown := shows.fields (fun fields => { fields with pageCount := fields.pageCount + 1 })
      (Nat.le_succ _)
    rwa [← shows.meta_] at grown
  · rw [if_neg empty, if_neg empty]
    cases current.read pager.meta_.freelistHead with
    | none => exact ⟨trivial, trivial, rfl⟩
    | some page =>
      simp only [wp_checkThat, decide_eq_true_eq, Prog.wp_bind, Prog.wp_modify, Prog.wp_pure]
      split
      · refine ⟨trivial, empty, _, rfl, rfl, ?_⟩
        have popped := shows.fields (fun fields => { fields with freelistHead := page.nextPage })
          (Nat.le_refl _)
        rwa [← shows.meta_] at popped
      · exact ⟨trivial, trivial, rfl⟩

theorem serves_freePage (id : PageId) :
    Serves may synced (freePage id) fun database => (database.free id).map ((), ·) := by
  intro pager disk acked current shows durable
  have range : (id ≠ 0 ∧ id < pager.meta_.pageCount) ↔ current.Covers id := by
    rw [shows.meta_, Database.Covers]
  unfold freePage Database.free
  simp only [Prog.wp_bind, Prog.wp_get, wp_checkThat, decide_eq_true_eq, range, wp_readPage shows]
  by_cases covers : current.Covers id
  · rw [if_pos covers, Database.read, if_pos covers]
    dsimp only
    by_cases twice : (current.page id).type = .kFree
    · rw [if_neg (by simp [twice]), if_pos twice]
      exact .inl ⟨rfl, shows, durable⟩
    · rw [if_pos (by simp [twice]), if_neg twice, shows.meta_]
      refine Prog.wp_mono (serves_writePage id _ shows durable) ?_ ?_ fun _ _ asked => asked
      · rintro _ pager' disk' ⟨current', written, shows', durable'⟩
        simp only [Database.write, covers, freePageOf, and_self, ↓reduceIte, Option.map_some,
          Option.some.injEq, Prod.mk.injEq, true_and] at written
        subst current'
        exact ⟨_, rfl, shows'.fields (fun fields => { fields with freelistHead := id })
          (Nat.le_refl _), durable'⟩
      · rintro _ pager' disk' (⟨refused, _⟩ | failed)
        · simp [Database.write, covers, freePageOf] at refused
        · exact .inr failed
  · rw [if_neg covers, Database.read, if_neg covers]
    exact .inl ⟨rfl, shows, durable⟩

/-- A root is set in the meta fields alone. -/
theorem serves_modify (update : Meta → Meta)
    (same : ∀ fields, (update fields).pageCount = fields.pageCount) :
    Serves may synced
      (Prog.modify fun pager => { pager with meta_ := update pager.meta_, metaDirty := true })
      fun database => some ((), { database with fields := update database.fields }) := by
  intro pager disk acked current shows durable
  exact ⟨_, rfl, shows.fields update (Nat.le_of_eq (same _).symm), durable⟩

theorem serves_setBtreeRoot (id : PageId) : Serves may synced (setBtreeRoot id) fun database =>
    some ((), { database with fields.btreeRoot := id }) :=
  serves_modify (fun fields => { fields with btreeRoot := id }) fun _ => rfl

theorem serves_setHeapHead (id : PageId) : Serves may synced (setHeapHead id) fun database =>
    some ((), { database with fields.heapHead := id }) :=
  serves_modify (fun fields => { fields with heapHead := id }) fun _ => rfl

theorem serves_setCatalogRoot (id : PageId) : Serves may synced (setCatalogRoot id) fun database =>
    some ((), { database with fields.catalogRoot := id }) :=
  serves_modify (fun fields => { fields with catalogRoot := id }) fun _ => rfl

/-- Settings of the pager change no database. -/
theorem Shows.settings (shows : pager.Shows disk.files acked current) (durability : Durability)
    (checkpointFrames : Nat) :
    { pager with durability, checkpointFrames }.Shows disk.files acked current :=
  ⟨⟨shows.holds, shows.identity, shows.stores, shows.committed, shows.filePages⟩, shows.tracks,
    shows.meta_, shows.pages, shows.bounded, shows.counted, shows.named, shows.idle⟩

theorem serves_setDurability (durability : Durability) (full : synced → durability = .kFull) :
    Serves may synced (setDurability durability) fun database => some ((), database) := by
  intro pager disk acked current shows durable
  exact ⟨_, rfl, shows.settings durability pager.checkpointFrames,
    fun syncs => ⟨full syncs, (durable syncs).2⟩⟩

theorem serves_setCheckpointFrames (count : Nat) :
    Serves may synced (setCheckpointFrames count) fun database => some ((), database) := by
  intro pager disk acked current shows durable
  exact ⟨_, rfl, shows.settings pager.durability count, durable⟩

/-- A rollback works from any state a failed call can leave. -/
theorem wp_rollback (keeps : pager.Keeps disk.files acked)
    {raised : Error → Pager → Disk → Prop} {asks : FileCall → Disk → Prop} :
    Prog.wp may rollback
      (fun _ pager' disk' => disk' = disk ∧ pager'.Shows disk'.files acked acked ∧
        pager'.inTransaction = false ∧ (pager.Durable disk → pager'.Durable disk'))
      raised asks pager disk := by
  simp only [rollback, Wal.rollback, onWal, Prog.wp_bind, Prog.wp_zoom, Prog.wp_modify]
  exact ⟨trivial, keeps.rollback, rfl, id⟩

end Labdb.Storage.Pager
