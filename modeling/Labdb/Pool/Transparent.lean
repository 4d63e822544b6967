import Mathlib.Data.List.Dedup
import Mathlib.Data.List.Perm.Subperm
import Labdb.Pool.Mirror
import Labdb.Storage.Session

/-! The pool is transparent: whatever it evicts and whenever its commits trigger a
checkpoint, its answers are those of two versions of a database. -/

namespace Labdb.Pool.BufferPool

open Labdb.Program Labdb.Storage

variable {capacity : Nat} {mirror : Mirror} {pool pool' : BufferPool} {disk disk' : Disk}
variable {id : PageId}

/-- A pool stands for a mirror. Only pages in use are in a frame, and those put to use
since the last commit are known to have changed, so a rollback forgets them. -/
structure Mirrors (capacity : Nat) (mirror : Mirror) (pool : BufferPool) (disk : Disk) :
    Prop where
  last : mirror.acked.Formed
  formed : mirror.current.Formed
  shows : pool.Shows disk mirror.acked.database mirror.current.database mirror.changed
  size : pool.frames.length = capacity
  pins : ∀ id, pool.pinsOf id = mirror.held.count id
  resident : ∀ id, pool.table.lookup id ≠ none → mirror.current.Allocated id
  touched : ∀ id, mirror.current.Allocated id → ¬ mirror.acked.Allocated id → pool.Touched id

section Refusals

/-- Pages in use carry their ids, so the pager takes every one that is dirty. -/
theorem Mirrors.unspoiled (mirrors : Mirrors capacity mirror pool disk) :
    ¬ pool.Spoiled mirror.current.database := by
  rintro ⟨fi, real, _, illegal⟩
  obtain ⟨staged, layered⟩ := mirrors.shows
  have found := (layered.toLinked.table _ fi).mpr ⟨real, rfl⟩
  have used := mirrors.resident (pool.frame fi).id (by simp [found])
  refine illegal ⟨used.1, ?_⟩
  rw [layered.resident fi real]
  exact mirrors.formed.named _ used

private theorem Mirrors.resident_of_held (mirrors : Mirrors capacity mirror pool disk)
    (held : id ∈ mirror.held) : pool.table.lookup id ≠ none := by
  intro absent
  have pins := mirrors.pins id
  rw [pinsOf, absent] at pins
  exact List.count_eq_zero.mp pins.symm held

/-- Each pinned frame holds another page that is pinned. -/
theorem Mirrors.uncrowded (mirrors : Mirrors capacity mirror pool disk)
    (room : mirror.held.dedup.length < capacity) : ¬ pool.Crowded := by
  intro crowded
  obtain ⟨staged, layered⟩ := mirrors.shows
  have linked := layered.toLinked
  rw [← mirrors.size] at room
  have real : ∀ fi < pool.frames.length, (pool.frame fi).id ≠ kNullPage := by
    intro fi inside empty
    have pinned := crowded fi inside
    rw [(linked.empty fi empty).2] at pinned
    exact Nat.lt_irrefl 0 pinned
  have held : (List.range pool.frames.length).map (fun fi => (pool.frame fi).id) ⊆
      mirror.held.dedup := by
    intro id member
    obtain ⟨fi, inside, rfl⟩ := List.mem_map.mp member
    replace inside := List.mem_range.mp inside
    rw [List.mem_dedup, ← List.count_pos_iff, ← mirrors.pins, linked.pinsOf_frame (real fi inside)]
    exact crowded fi inside
  have apart : ((List.range pool.frames.length).map fun fi => (pool.frame fi).id).Nodup := by
    refine List.Nodup.map_on (fun fi inside other _ same => ?_) List.nodup_range
    exact (linked.one (real fi (List.mem_range.mp inside)) same.symm).symm
  have bounded := (List.Nodup.subperm apart held).length_le
  rw [List.length_map, List.length_range] at bounded
  omega

private theorem Mirrors.granted (mirrors : Mirrors capacity mirror pool disk)
    (room : mirror.Room capacity id) : ¬ pool.Denied mirror.current.database id := by
  rintro ⟨absent, crowded | spoiled⟩
  · rcases room with held | space
    · exact mirrors.resident_of_held held absent
    · exact mirrors.uncrowded space crowded
  · exact mirrors.unspoiled spoiled

theorem Mirrors.readable (mirrors : Mirrors capacity mirror pool disk)
    (room : mirror.Room capacity id) (used : mirror.current.Allocated id) :
    ¬ pool.Unreadable mirror.current.database id := by
  rintro (denied | ⟨_, uncovered⟩)
  · exact mirrors.granted room denied
  · exact uncovered used.1

/-- Where no call fails, what has no reason to be refused is not refused. -/
theorem Refused.elim {acked current : Database} {changed : List PageId} {refuses : Prop}
    (refused : Refused Never acked current changed refuses pool disk) (granted : ¬ refuses) :
    False := by
  rcases refused with ⟨reason, _⟩ | ⟨⟨_, _, failed⟩, _⟩
  · exact granted reason
  · exact failed

end Refusals

section Steps

theorem Mirrors.manages {version : Version} {changed : List PageId} {added : PageId → Prop}
    (mirrors : Mirrors capacity mirror pool disk) (manages : Manages added pool pool')
    (shows : pool'.Shows disk' mirror.acked.database version.database changed)
    (formed : version.Formed)
    (more : ∀ id, mirror.current.Allocated id → version.Allocated id)
    (used : ∀ id, added id → version.Allocated id)
    (fresh : ∀ id, version.Allocated id → ¬ mirror.current.Allocated id → pool'.Touched id) :
    Mirrors capacity { mirror with current := version, changed } pool' disk' := by
  refine ⟨mirrors.last, formed, shows, manages.size.trans mirrors.size,
    fun id => (manages.pins id).trans (mirrors.pins id), ?_, ?_⟩ <;> intro id
  · intro resident
    by_cases here : added id
    · exact used id here
    · exact more id (mirrors.resident id fun absent => resident (manages.resident id here absent))
  · intro now last
    by_cases before : mirror.current.Allocated id
    · exact manages.touched id (mirrors.touched id before last)
    · exact fresh id now before

theorem Mirrors.pinned (mirrors : Mirrors capacity mirror pool disk)
    (pinned : Pinned id pool pool') (used : mirror.current.Allocated id)
    (shows : pool'.Shows disk' mirror.acked.database mirror.current.database mirror.changed) :
    Mirrors capacity { mirror with held := id :: mirror.held } pool' disk' := by
  refine ⟨mirrors.last, mirrors.formed, shows, pinned.size.trans mirrors.size, ?_, ?_, ?_⟩ <;>
    intro other
  · rw [pinned.pins, mirrors.pins, List.count_cons]
    simp only [beq_iff_eq, @eq_comm _ other]
  · intro resident
    by_cases same : other = id
    · exact same ▸ used
    · exact mirrors.resident other fun absent => resident (pinned.resident other same absent)
  · exact fun now last => pinned.touched other (mirrors.touched other now last)

theorem Mirrors.unpinned {changed : List PageId} (mirrors : Mirrors capacity mirror pool disk)
    (unpinned : Unpinned id pool pool')
    (shows : pool'.Shows disk' mirror.acked.database mirror.current.database changed) :
    Mirrors capacity { mirror with held := mirror.held.erase id, changed } pool' disk' := by
  refine ⟨mirrors.last, mirrors.formed, shows, unpinned.size.trans mirrors.size, ?_, ?_, ?_⟩ <;>
    intro other
  · rw [unpinned.pins, mirrors.pins, List.count_erase]
    simp only [beq_iff_eq, @eq_comm _ other]
  · exact fun resident => mirrors.resident other fun absent =>
      resident (unpinned.resident other absent)
  · exact fun now last => unpinned.touched other (mirrors.touched other now last)

end Steps

section Requests

/-- A request is answered as the mirror answers it. -/
def Answers (capacity : Nat) (mirror : Mirror) (request : Request) (pool : BufferPool)
    (disk : Disk) : Prop :=
  Prog.wp Never (serve request)
    (fun answer pool' disk' => answer = mirror.answer request ∧
      Mirrors capacity (mirror.after request) pool' disk')
    (fun _ _ _ => False) (fun _ _ => True) pool disk

variable (mirrors : Mirrors capacity mirror pool disk)
include mirrors

theorem answers_readPage (used : mirror.current.Allocated id) (room : mirror.Room capacity id) :
    Answers capacity mirror (.readPage id) pool disk := by
  obtain ⟨staged, layered⟩ := mirrors.shows
  rw [Answers, serve, Prog.wp_bind]
  refine Prog.wp_mono (wp_readPage layered) ?_ ?_ fun _ _ _ => trivial
  · rintro _ pool' disk' ⟨rfl, shows, manages⟩
    exact ⟨rfl, mirrors.manages manages shows mirrors.formed (fun _ used => used)
      (fun _ same => same ▸ used) fun _ now before => absurd now before⟩
  · exact fun _ _ _ refused => refused.elim (mirrors.readable room used)

theorem answers_fetchPin (used : mirror.current.Allocated id) (room : mirror.Room capacity id) :
    Answers capacity mirror (.fetchPin id) pool disk := by
  obtain ⟨staged, layered⟩ := mirrors.shows
  rw [Answers, serve, Prog.wp_bind]
  refine Prog.wp_mono (wp_fetchPin layered) ?_ ?_ fun _ _ _ => trivial
  · rintro _ pool' disk' ⟨rfl, shows, pinned⟩
    exact ⟨rfl, mirrors.pinned pinned used shows⟩
  · exact fun _ _ _ refused => refused.elim (mirrors.readable room used)

private theorem answers_writePage {page : Page} (used : mirror.current.Allocated id)
    (own : page.id = id) (room : mirror.Room capacity id) :
    Answers capacity mirror (.writePage id page) pool disk := by
  obtain ⟨staged, layered⟩ := mirrors.shows
  rw [Answers, serve, Prog.wp_bind]
  refine Prog.wp_mono (wp_writePage layered used.1.1 page) ?_ ?_ fun _ _ _ => trivial
  · rintro _ pool' disk' ⟨shows, manages, _⟩
    exact ⟨rfl, mirrors.manages manages shows (mirrors.formed.set used own) (fun _ used => used)
      (fun _ same => same ▸ used) fun _ now before => absurd now before⟩
  · exact fun _ _ _ refused => refused.elim (mirrors.granted room)

private theorem answers_assign {page : Page} (held : id ∈ mirror.held) (own : page.id = id) :
    Answers capacity mirror (.assign id page) pool disk := by
  obtain ⟨staged, layered⟩ := mirrors.shows
  have pinned : 0 < pool.pinsOf id := by
    rw [mirrors.pins]
    exact List.count_pos_iff.mpr held
  have used := mirrors.resident id (mirrors.resident_of_held held)
  rw [Answers, serve, Prog.wp_bind]
  refine Prog.wp_mono (wp_assign layered pinned page) ?_ (fun _ _ _ raised => raised)
    fun _ _ _ => trivial
  rintro _ pool' disk' ⟨shows, manages⟩
  exact ⟨rfl, mirrors.manages manages shows (mirrors.formed.set used own) (fun _ used => used)
    (fun _ impossible => impossible.elim) fun _ now before => absurd now before⟩

private theorem answers_unpin {dirty : Bool} (held : id ∈ mirror.held)
    (marks : id ∈ mirror.changed → dirty = true ∨ 1 < mirror.held.count id) :
    Answers capacity mirror (.unpin id dirty) pool disk := by
  obtain ⟨staged, layered⟩ := mirrors.shows
  rw [← mirrors.pins] at marks
  have pinned : 0 < pool.pinsOf id := by
    rw [mirrors.pins]
    exact List.count_pos_iff.mpr held
  rw [Answers, serve, Prog.wp_bind]
  refine Prog.wp_mono (wp_unpin layered pinned marks) ?_ (fun _ _ _ raised => raised)
    fun _ _ _ => trivial
  rintro _ pool' disk' ⟨shows, unpinned, _⟩
  exact ⟨rfl, mirrors.unpinned unpinned shows⟩

/-- The page handed out is in no frame, so it is blank. -/
theorem answers_allocatePage (space : mirror.held.dedup.length < capacity)
    (fits : mirror.current.database.fields.Fits) :
    Answers capacity mirror .allocatePage pool disk := by
  obtain ⟨staged, layered⟩ := mirrors.shows
  have formed := mirrors.formed
  have unused : ∀ {id}, ¬ mirror.current.Allocated id → pool.table.lookup id = none := by
    intro id unused
    by_contra resident
    exact unused (mirrors.resident id resident)
  have absent := unused mirror.current.taken_unused
  have free : ∀ id ∈ mirror.current.free, staged.page id = mirror.current.database.page id :=
    fun id member => (layered.absent id (unused fun used => used.2 member)).symm
  have allocated := formed.allocate_eq layered.fields.symm free
  have apart : mirror.current.taken ∉ mirror.changed := by
    intro member
    have held := layered.held _ member
    rw [pinsOf, absent] at held
    exact Nat.lt_irrefl 0 held
  rw [Answers, serve, Prog.wp_bind]
  refine Prog.wp_mono (wp_allocatePage layered (layered.fields ▸ fits)) ?_ ?_ fun _ _ _ => trivial
  · rintro id pool' disk' ⟨fields, same, shows, manages, touched⟩
    rw [allocated] at same
    cases same
    rw [blank, if_pos absent, unmark_of_notMem apart] at shows
    refine ⟨rfl, mirrors.manages manages shows formed.allocate ?_ ?_ ?_⟩
    · exact fun _ used => (Version.allocated_allocate formed).mpr (.inl used)
    · exact fun _ same => (Version.allocated_allocate formed).mpr (.inr same)
    · intro id now before
      have same := ((Version.allocated_allocate formed).mp now).resolve_left before
      exact same ▸ touched
  · rintro _ pool' disk' (⟨refused, _⟩ | ⟨id, fields, same, refused⟩)
    · rw [allocated] at refused
      cases refused
    · rw [allocated] at same
      cases same
      refine refused.elim ?_
      rintro ⟨_, crowded | spoiled⟩
      · exact mirrors.uncrowded space crowded
      · exact mirrors.unspoiled <| spoiled.covers fun id covers =>
          (Version.covers_allocate formed).mpr (.inl covers)

private theorem answers_refield {program : PagerM Unit} (update : Meta → Meta)
    (sets : program = Prog.modify fun pager =>
      { pager with meta_ := update pager.meta_, metaDirty := true })
    (count : ∀ fields, (update fields).pageCount = fields.pageCount)
    (head : ∀ fields, (update fields).freelistHead = fields.freelistHead) :
    Prog.wp Never (onPager program)
      (fun _ pool' disk' => Mirrors capacity
        { mirror with current := mirror.current.refield update } pool' disk')
      (fun _ _ _ => False) (fun _ _ => True) pool disk := by
  subst sets
  obtain ⟨staged, layered⟩ := mirrors.shows
  have covers : ∀ id, (mirror.current.refield update).Allocated id ↔ mirror.current.Allocated id := by
    intro id
    simp only [Version.Allocated, Version.refield, Database.Covers, count]
  refine Prog.wp_mono (wp_refield layered update count) ?_ (fun _ _ _ => id) fun _ _ asked => asked
  rintro _ pool' disk' ⟨shows, manages⟩
  exact mirrors.manages manages shows (mirrors.formed.refield (count _) (head _))
    (fun id => (covers id).mpr) (fun _ impossible => impossible.elim)
    fun id now before => absurd ((covers id).mp now) before

private theorem answers_commit (reported : mirror.changed = []) :
    Answers capacity mirror .commit pool disk := by
  obtain ⟨staged, layered⟩ := mirrors.shows
  rw [reported] at layered
  rw [Answers, serve, Prog.wp_bind]
  refine Prog.wp_mono (wp_commit gentle_never layered) ?_ ?_ fun _ _ _ => trivial
  · rintro _ pool' disk' ⟨shows, size, pins, resident, _⟩
    refine ⟨rfl, mirrors.formed, mirrors.formed, ?_, size.trans mirrors.size,
      fun id => (pins id).trans (mirrors.pins id), fun id some => mirrors.resident id fun absent =>
        some (resident id absent), fun id now last => absurd now last⟩
    exact reported ▸ shows
  · exact fun _ _ _ refused => refused.elim mirrors.unspoiled

private theorem answers_rollback (released : mirror.held = []) :
    Answers capacity mirror .rollback pool disk := by
  obtain ⟨staged, layered⟩ := mirrors.shows
  have free : ∀ id, pool.pinsOf id = 0 := by
    intro id
    rw [mirrors.pins, released, List.count_nil]
  have unchanged : mirror.changed = [] := by
    rw [List.eq_nil_iff_forall_not_mem]
    intro id member
    exact absurd (layered.held id member) (free id ▸ Nat.lt_irrefl 0)
  have keeps := layered.keeps
  rw [unchanged] at keeps
  rw [Answers, serve, Prog.wp_bind]
  refine Prog.wp_mono (wp_rollback keeps free) ?_ (fun _ _ _ => id) fun _ _ asked => asked
  rintro _ pool' disk' ⟨_, shows, ⟨size, pins, resident, _⟩, gone⟩
  refine ⟨rfl, mirrors.last, mirrors.last, ?_, size.trans mirrors.size,
    fun id => (pins id).trans (mirrors.pins id), ?_, fun id now last => absurd now last⟩
  · exact unchanged ▸ shows
  · intro id some
    have used := mirrors.resident id fun absent => some (resident id absent)
    by_contra last
    exact some (gone id (mirrors.touched id used last))

private theorem wp_serve {request : Request} (legal : mirror.Legal capacity request)
    (reported : mirror.Reported request) : Answers capacity mirror request pool disk := by
  cases request with
  | readPage id => exact answers_readPage mirrors legal.1 legal.2.1
  | writePage id page => exact answers_writePage mirrors legal.1 legal.2.1 legal.2.2.1
  | fetchPin id => exact answers_fetchPin mirrors legal.1 legal.2.1
  | assign id page => exact answers_assign mirrors legal.1 legal.2
  | unpin id dirty => exact answers_unpin mirrors legal.1 legal.2
  | allocatePage => exact answers_allocatePage mirrors legal.1 legal.2
  | readFields =>
    obtain ⟨staged, layered⟩ := mirrors.shows
    have fields := layered.shows.meta_.trans layered.fields.symm
    exact ⟨congrArg Answer.fields fields, mirrors⟩
  | setBtreeRoot root =>
    exact Prog.wp_bind.mpr <| Prog.wp_mono
      (answers_refield mirrors (fun fields => { fields with btreeRoot := root }) rfl
        (fun _ => rfl) fun _ => rfl)
      (fun _ _ _ stands => ⟨rfl, stands⟩) (fun _ _ _ => id) fun _ _ asked => asked
  | setHeapHead root =>
    exact Prog.wp_bind.mpr <| Prog.wp_mono
      (answers_refield mirrors (fun fields => { fields with heapHead := root }) rfl
        (fun _ => rfl) fun _ => rfl)
      (fun _ _ _ stands => ⟨rfl, stands⟩) (fun _ _ _ => id) fun _ _ asked => asked
  | setCatalogRoot root =>
    exact Prog.wp_bind.mpr <| Prog.wp_mono
      (answers_refield mirrors (fun fields => { fields with catalogRoot := root }) rfl
        (fun _ => rfl) fun _ => rfl)
      (fun _ _ _ stands => ⟨rfl, stands⟩) (fun _ _ _ => id) fun _ _ asked => asked
  | commit => exact answers_commit mirrors (reported rfl)
  | rollback => exact answers_rollback mirrors legal

omit mirrors in
/-- Request after request, by the step above. -/
theorem wp_serveAll {requests : List Request} (mirrors : Mirrors capacity mirror pool disk)
    (legal : mirror.Follows (Mirror.Legal capacity) requests)
    (reported : mirror.Follows Mirror.Reported requests) :
    Prog.wp Never (serveAll requests)
      (fun answers _ _ => answers = mirror.answers requests)
      (fun _ _ _ => False) (fun _ _ => True) pool disk := by
  induction requests generalizing mirror pool disk with
  | nil => rfl
  | cons request rest ih =>
    rw [serveAll, Prog.wp_bind]
    refine Prog.wp_mono (wp_serve mirrors legal.1 reported.1) ?_ (fun _ _ _ => id)
      fun _ _ asked => asked
    rintro _ pool' disk' ⟨rfl, mirrors'⟩
    rw [Prog.wp_bind]
    refine Prog.wp_mono (ih mirrors' legal.2 reported.2) ?_ (fun _ _ _ => id)
      fun _ _ asked => asked
    rintro _ pool'' disk'' rfl
    rfl

end Requests

section Start

variable {pager : Pager}

private theorem frame_construct (fi : Nat) : (construct pager capacity).frame fi = {} := by
  simp only [construct, frame, List.getD_eq_getElem?_getD, List.getElem?_replicate]
  split <;> rfl

/-- Nothing is in a frame at first. -/
theorem linked_construct (room : 1 ≤ capacity) : (construct pager capacity).Linked := by
  have absent : ∀ id, (construct pager capacity).table.lookup id = none := AList.lookup_empty
  refine ⟨?_, ?_, ?_, ?_⟩
  · simpa [construct] using Nat.lt_of_succ_le room
  · intro id fi
    rw [absent, frame_construct]
    exact ⟨nofun, fun ⟨real, same⟩ => absurd same.symm real⟩
  · intro fi dirty
    rw [frame_construct] at dirty
    cases dirty
  · intro fi _
    rw [frame_construct]
    exact ⟨rfl, rfl⟩

private theorem layered_construct {acked current : Database} {files : Files} (room : 1 ≤ capacity)
    (shows : pager.Shows files acked current) :
    (construct pager capacity).Layered files acked current current [] := by
  refine ⟨linked_construct room, shows, rfl, ?_, fun _ _ => rfl, ?_, nofun⟩
  · intro fi real
    rw [frame_construct] at real
    exact absurd rfl real
  · intro fi real
    rw [frame_construct] at real
    exact absurd rfl real

theorem mirrors_construct {version : Version} (room : 1 ≤ capacity) (formed : version.Formed)
    (shows : pager.Shows disk.files version.database version.database) :
    Mirrors capacity (.start version) (construct pager capacity) disk := by
  refine ⟨formed, formed, ⟨_, layered_construct room shows⟩, List.length_replicate, ?_, ?_, ?_⟩
  · exact fun id => rfl
  · exact fun id resident => absurd rfl resident
  · exact fun id now last => absurd now last

/-- A pool over any pager between transactions answers every sequence of requests that
its callers may make as the mirror does. -/
theorem transparent {history : List Step} (calm : ∀ step ∈ history, step.Calm)
    (fits : System.Fits {} history)
    (opened : (history.foldl System.step {}).pager = some pager)
    (idle : pager.inTransaction = false) (room : 1 ≤ capacity) {version : Version}
    (seen : version.database = pager.view (history.foldl System.step {}).disk.files)
    (formed : version.Formed) {requests : List Request}
    (legal : (Mirror.start version).Follows (Mirror.Legal capacity) requests)
    (reported : (Mirror.start version).Follows Mirror.Reported requests) :
    ∃ pool disk, (serveAll requests).run [] (construct pager capacity)
        (history.foldl System.step {}).disk =
      (.returned ((Mirror.start version).answers requests) pool, disk) := by
  have valid := System.run_valid calm fits
  clear fits
  generalize history.foldl System.step {} = system at *
  obtain ⟨disk, _ | pager', ledger⟩ := system <;> cases opened
  obtain ⟨_, shows⟩ := valid
  have same := shows.idle idle
  rw [shows.view_eq, same] at seen
  rw [same, ← seen] at shows
  have ran := Prog.run_of_wp_nil
    (wp_serveAll (mirrors_construct room formed shows) legal reported)
  generalize (serveAll requests).run [] (construct pager capacity) disk = ended at ran ⊢
  rcases ended with ⟨⟨answers, pool⟩ | _ | _, after⟩
  · exact ⟨pool, after, by rw [show answers = _ from ran]⟩
  · exact ran.elim
  · exact ran.elim

end Start

section Examples

/-- A process that has just opened a new database. -/
def opened : List Step := [.opens ⟨7, 1⟩ []]

theorem calm_opened : ∀ step ∈ opened, step.Calm := by
  simp [opened, Step.Calm, Program.Calm]

theorem fits_opened : System.Fits {} opened := ⟨trivial, trivial⟩

private theorem formed_new {pager : Pager} {files : Files} (fields : pager.meta_ = {}) :
    Version.Formed ⟨pager.view files, []⟩ := by
  refine ⟨congrArg Meta.freelistHead fields, ?_, ?_⟩
  · rintro id ⟨⟨real, inside⟩, _⟩
    have first : id < 1 := Nat.lt_of_lt_of_eq inside (congrArg Meta.pageCount fields)
    exact absurd (Nat.lt_one_iff.mp first) real
  · exact Nat.lt_of_lt_of_eq Nat.one_pos (congrArg Meta.pageCount fields).symm

/-- One frame, so that every request evicts the page of the one before. -/
def evictions : List Request :=
  [.allocatePage, .writePage 1 { id := 1, type := .kSlotted }, .allocatePage, .commit,
    .writePage 2 { id := 2, type := .kSlotted }, .readPage 1, .readPage 2, .fetchPin 1,
    .assign 1 { id := 1, type := .kBTreeLeaf }, .unpin 1 true, .allocatePage, .readPage 1, .rollback,
    .readPage 1, .readPage 2, .readFields]

theorem transparent_one_frame :
    ∃ pager, (opened.foldl System.step {}).pager = some pager ∧
      ∃ pool disk, (serveAll evictions).run [] (construct pager 1)
          (opened.foldl System.step {}).disk =
        (.returned ((Mirror.start ⟨pager.view (opened.foldl System.step {}).disk.files,
          []⟩).answers evictions) pool, disk) := by
  obtain ⟨pager, found⟩ : ∃ pager, (opened.foldl System.step {}).pager = some pager :=
    Option.isSome_iff_exists.mp (by decide +kernel)
  have facts : (opened.foldl System.step {}).pager.all fun pager => decide <|
      pager.inTransaction = false ∧ pager.meta_ = {} ∧
      (Mirror.start ⟨pager.view (opened.foldl System.step {}).disk.files, []⟩).Follows
        (Mirror.Legal 1) evictions ∧
      (Mirror.start ⟨pager.view (opened.foldl System.step {}).disk.files, []⟩).Follows
        Mirror.Reported evictions := by decide +kernel
  rw [found] at facts
  simp only [Option.all_some, decide_eq_true_eq] at facts
  obtain ⟨idle, fields, legal, reported⟩ := facts
  exact ⟨pager, found, transparent calm_opened fits_opened found idle (Nat.le_refl 1) rfl (formed_new fields)
    legal reported⟩

/-- The bytes of a page change under a pin, the pin is held over a commit, and the change
is reported after it. -/
def heldOverCommit : List Request :=
  [.allocatePage, .commit, .fetchPin 1, .assign 1 { id := 1, type := .kSlotted }, .commit,
    .unpin 1 true, .rollback, .readPage 1]

/-- The commit did not take the change, and the rollback drops it. -/
theorem commit_misses_unreported_change :
    ¬ ∀ (history : List Step) (pager : Pager) (capacity : Nat) (version : Version)
      (requests : List Request), (∀ step ∈ history, step.Calm) → System.Fits {} history →
      (history.foldl System.step {}).pager = some pager → pager.inTransaction = false →
      1 ≤ capacity → version.database = pager.view (history.foldl System.step {}).disk.files →
      version.Formed → (Mirror.start version).Follows (Mirror.Legal capacity) requests →
      ∃ pool disk, (serveAll requests).run [] (construct pager capacity)
          (history.foldl System.step {}).disk =
        (.returned ((Mirror.start version).answers requests) pool, disk) := by
  intro always
  obtain ⟨pager, found⟩ : ∃ pager, (opened.foldl System.step {}).pager = some pager :=
    Option.isSome_iff_exists.mp (by decide +kernel)
  have facts : (opened.foldl System.step {}).pager.all fun pager => decide <|
      pager.inTransaction = false ∧ pager.meta_ = {} ∧
      (Mirror.start ⟨pager.view (opened.foldl System.step {}).disk.files, []⟩).Follows
        (Mirror.Legal 1) heldOverCommit ∧
      ((serveAll heldOverCommit).run [] (construct pager 1)
          (opened.foldl System.step {}).disk).1.value? ≠
        some ((Mirror.start ⟨pager.view (opened.foldl System.step {}).disk.files,
          []⟩).answers heldOverCommit) := by decide +kernel
  rw [found] at facts
  simp only [Option.all_some, decide_eq_true_eq] at facts
  obtain ⟨idle, fields, legal, differs⟩ := facts
  obtain ⟨pool, disk, ran⟩ := always opened pager 1 ⟨pager.view _, []⟩ heldOverCommit calm_opened
    fits_opened found idle (Nat.le_refl 1) rfl (formed_new fields) legal
  rw [ran] at differs
  exact differs rfl

end Examples

end Labdb.Pool.BufferPool
