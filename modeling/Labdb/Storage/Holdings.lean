import Labdb.Storage.FreeList
import Labdb.Storage.Session

/-! The free list over the life of a database. Callers hold the pages that were
handed out to them and not freed, as of the last commit and as of now. -/

namespace Labdb.Storage

open Labdb.Program

/-- What callers hold: as of the last commit, and in the transaction in progress. -/
structure Holdings where
  acked : Tenancy := {}
  current : Tenancy := {}

namespace Holdings

def commit (holdings : Holdings) : Holdings := { holdings with acked := holdings.current }

def lost (holdings : Holdings) : Holdings := { holdings with current := holdings.acked }

/-- What an operation that came back has handed out or taken back. -/
def after (holdings : Holdings) (pager : Pager) (disk : Disk) : Op → Holdings
  | .allocatePage =>
    match (Pager.allocatePage.run [] pager disk).1.value? with
    | some id => { holdings with current := holdings.current.allocate id }
    | none => holdings
  | .freePage id => { holdings with current := holdings.current.free id }
  | .writePage id page => { holdings with current := holdings.current.write id page }
  | .commit | .sync => holdings.commit
  | .rollback => holdings.lost
  | _ => holdings

end Holdings

/-- No call of the step fails, and no process dies in the middle of one. -/
def Step.Whole : Step → Prop
  | .opens _ fates | .performs _ fates | .closes fates => fates = []
  | .dies => True

theorem Step.Whole.calm {step : Step} (whole : step.Whole) : step.Calm := by
  cases step with
  | dies => trivial
  | _ => exact whole ▸ calm_nil

/-- A database together with what its callers hold of it. -/
structure Occupied where
  system : System := {}
  holdings : Holdings := {}

namespace Occupied

def held (occupied : Occupied) (pager : Pager) : Step → Holdings
  | .opens _ _ => occupied.holdings
  | .performs op fates =>
    match (op.program.run fates pager occupied.system.disk).1 with
    | .returned _ _ => occupied.holdings.after pager occupied.system.disk op
    | .raised _ _ => occupied.holdings
    | .died => occupied.holdings.lost
  | .closes _ => occupied.holdings.commit
  | .dies => occupied.holdings.lost

def step (occupied : Occupied) (step : Step) : Occupied where
  system := occupied.system.step step
  holdings := match occupied.system.pager with
    | some pager => occupied.held pager step
    | none => occupied.holdings

/-- No caller writes a page that is on the free list. -/
def Spares (occupied : Occupied) : Step → Prop
  | .performs (.writePage id _) _ => ∀ pager, occupied.system.pager = some pager → ∀ free,
      (pager.view occupied.system.disk.files).Chained pager.meta_.freelistHead free → id ∉ free
  | _ => True

/-- Every call is done, and no free page is written. -/
def Lawful : Occupied → List Step → Prop
  | _, [] => True
  | occupied, step :: rest =>
    step.Whole ∧ occupied.Spares step ∧ (occupied.step step).Lawful rest

end Occupied

section Calls

variable {may : FileCall → Disk → Prop} {pager : Pager} {disk : Disk}
variable {acked current : Database} {tenancy : Tenancy} {free : List PageId} {id head : PageId}

/-- The walk meets each page of the list once, and stops. -/
theorem Pager.wp_countFree (shows : pager.Shows disk.files acked current) {room count : Nat}
    (chained : current.Chained head free) (enough : free.length ≤ room)
    {post : Nat → Pager → Disk → Prop} {raised : Error → Pager → Disk → Prop}
    {asks : FileCall → Disk → Prop} :
    Prog.wp may (countFree room count head) post raised asks pager disk ↔
      post (count + free.length) pager disk := by
  induction free generalizing head room count with
  | nil =>
    obtain rfl : head = kNullPage := chained
    unfold countFree
    simp only [↓reduceIte, Prog.wp_pure, List.length_nil, Nat.add_zero]
  | cons first rest ih =>
    obtain ⟨rfl, covers, type, rest_chained⟩ := chained
    obtain ⟨left, rfl⟩ := Nat.exists_eq_succ_of_ne_zero (Nat.ne_of_gt (Nat.lt_of_lt_of_le
      (Nat.succ_pos _) enough))
    have fits : rest.length ≤ left := Nat.le_of_succ_le_succ enough
    have real : head ≠ kNullPage := covers.1
    unfold countFree
    rw [if_neg real]
    simp only [Prog.wp_bind, wp_readPage shows, Database.read, if_pos covers,
      wp_checkThat, type, decide_true, ↓reduceIte]
    rw [ih rest_chained fits, List.length_cons, Nat.add_assoc, Nat.add_comm 1]

theorem Database.Splits.length_le {database : Database} (splits : database.Splits tenancy free) :
    free.length ≤ database.fields.pageCount := by
  have length := splits.parts.length_eq
  rw [List.length_append, List.length_range'] at length
  omega

private theorem run_freelistLength (shows : pager.Shows disk.files acked current)
    (splits : current.Splits tenancy free) :
    Pager.freelistLength.run [] pager disk = (.returned free.length pager, disk) := by
  have head := splits.chained
  have length := splits.length_le
  rw [← shows.meta_] at head length
  refine @Prog.run_eq_of_wp _ _ _ _ _ _ Never _ (fun _ _ => True) _ _ _ _ _ ?_
  unfold Pager.freelistLength
  simp only [Prog.wp_bind, Prog.wp_get]
  rw [Pager.wp_countFree shows head length, Nat.zero_add]
  exact ⟨rfl, rfl, rfl⟩

/-- An allocation within 32 bits hands out a page that nobody holds. -/
theorem run_allocatePage (shows : pager.Shows disk.files acked current)
    (splits : current.Splits tenancy free) (fits : current.fields.Fits) :
    ∃ id fields pager' free', Pager.allocatePage.run [] pager disk = (.returned id pager', disk) ∧
      current.allocate = some (id, { current with fields }) ∧
      pager' = { pager with meta_ := fields, metaDirty := true } ∧
      id ∉ tenancy.used ∧ (fields.pageCount ≠ current.fields.pageCount → free = []) ∧
      Database.Splits { current with fields } (tenancy.allocate id) free' := by
  obtain ⟨id, fields, free', allocated, fresh, grown, splits'⟩ := splits.allocate
  have ran := Prog.run_of_wp_nil (show Prog.wp Never _ _ _ (fun _ _ => True) _ _ from
    Pager.wp_allocatePage shows fits)
  generalize Pager.allocatePage.run [] pager disk = ended at ran ⊢
  rcases ended with ⟨_ | _ | _, _⟩
  · obtain ⟨rfl, _, fields', allocated', rfl, _⟩ := ran
    obtain ⟨rfl, same⟩ := Prod.mk.inj (Option.some.inj (allocated.symm.trans allocated'))
    obtain rfl : fields = fields' := congrArg Database.fields same
    exact ⟨_, fields, _, free', rfl, allocated, rfl, fresh, grown, splits'⟩
  · exact absurd (allocated.symm.trans ran.2.2) (Option.some_ne_none _)
  · exact ran.elim

/-- An allocation returns a page that nobody holds, and counts on only where none is free. -/
theorem run_allocatePage_unused (shows : pager.Shows disk.files acked current)
    (splits : current.Splits tenancy free) :
    ∃ id pager', Pager.allocatePage.run [] pager disk = (.returned id pager', disk) ∧
      id ∉ tenancy.used ∧ (pager'.meta_.pageCount ≠ pager.meta_.pageCount → free = []) := by
  by_cases fits : current.fields.Fits
  · obtain ⟨id, fields, _, _, ran, _, rfl, fresh, grown, _⟩ := run_allocatePage shows splits fits
    refine ⟨id, _, ran, fresh, fun more => grown ?_⟩
    rwa [← shows.meta_]
  · -- the last id of 32 bits: the count wraps, and the id is still nobody's
    have empty : current.fields.freelistHead = kNullPage :=
      not_not.mp fun taken => fits fun none => absurd none taken
    refine ⟨_, _, Prog.run_eq_of_wp (wp_allocatePage_grown (shows.meta_ ▸ empty)), ?_, fun _ => ?_⟩
    · intro held
      have member := splits.parts.subset (List.mem_append_left free held)
      rw [List.mem_range', shows.meta_] at member
      obtain ⟨_, _, same⟩ := member
      have counted := splits.counted
      omega
    · have chained := splits.chained
      rw [empty] at chained
      cases free with
      | nil => rfl
      | cons first rest => exact absurd chained.1.symm chained.2.1.1

end Calls

/-- The ledger's two databases are split as the callers believe. -/
def Ledger.Splits (ledger : Ledger) (holdings : Holdings) : Prop :=
  (∃ free, ledger.acked.Splits holdings.acked free) ∧
    ∃ free, ledger.current.Splits holdings.current free

section Run

variable {pager : Pager} {disk : Disk} {ledger : Ledger} {holdings : Holdings}

/-- A change of roots leaves the free list as it is. -/
theorem Ledger.Splits.refield (splits : ledger.Splits holdings) (update : Meta → Meta)
    (count : ∀ fields, (update fields).pageCount = fields.pageCount)
    (head : ∀ fields, (update fields).freelistHead = fields.freelistHead) :
    (ledger.update fun database =>
      some { database with fields := update database.fields }).Splits holdings := by
  obtain ⟨before, free, now⟩ := splits
  exact ⟨before, free, now.refield (count _) (head _)⟩

/-- What an operation hands out and takes back is what it does to the split. -/
theorem run_splits (shows : pager.Shows disk.files ledger.acked ledger.current)
    (splits : ledger.Splits holdings) (op : Op) (fits : op.Fits pager.meta_)
    (spares : ∀ id page, op = .writePage id page → ∀ free,
      ledger.current.Chained ledger.current.fields.freelistHead free → id ∉ free) :
    Prog.Meets (fun _ _ _ => (ledger.after op).Splits (holdings.after pager disk op))
      (fun _ _ _ => True) (fun _ => False) (op.program.run [] pager disk) := by
  obtain ⟨before, free, now⟩ := splits
  refine Prog.run_of_wp_nil (show Prog.wp Never _ _ _ (fun _ _ => True) _ _ from ?_)
  have known : (ledger.after op).Splits (holdings.after pager disk op) →
      Prog.wp Never op.program (fun _ _ _ => (ledger.after op).Splits (holdings.after pager disk op))
        (fun _ _ _ => True) (fun _ _ => True) pager disk := fun known =>
    Prog.wp_mono (wp_program False ⟨shows, nofun⟩ op fits nofun) (fun _ _ _ _ => known)
      (fun _ _ _ _ => trivial) fun _ _ _ => trivial
  cases op with
  | readPage id => exact known ⟨before, free, now⟩
  | setDurability durability => exact known ⟨before, free, now⟩
  | setCheckpointFrames count => exact known ⟨before, free, now⟩
  | checkpoint => exact known ⟨before, free, now⟩
  | commit => exact known ⟨⟨free, now⟩, free, now⟩
  | sync => exact known ⟨⟨free, now⟩, free, now⟩
  | rollback => exact known ⟨before, before⟩
  | setBtreeRoot id =>
    exact known (Ledger.Splits.refield ⟨before, free, now⟩ (fun fields => { fields with btreeRoot := id })
      (fun _ => rfl) fun _ => rfl)
  | setHeapHead id =>
    exact known (Ledger.Splits.refield ⟨before, free, now⟩ (fun fields => { fields with heapHead := id })
      (fun _ => rfl) fun _ => rfl)
  | setCatalogRoot id =>
    exact known (Ledger.Splits.refield ⟨before, free, now⟩ (fun fields => { fields with catalogRoot := id })
      (fun _ => rfl) fun _ => rfl)
  | allocatePage =>
    obtain ⟨id, fields, _, free', ran, allocated, _, _, _, splits⟩ :=
      run_allocatePage shows now (shows.meta_ ▸ fits)
    refine known ?_
    simp only [Holdings.after, ran, Prog.Ending.value?, Ledger.after, Ledger.update, allocated,
      Option.map_some, Option.getD_some]
    exact ⟨before, free', splits⟩
  | writePage id page =>
    refine Prog.wp_mono ((@Pager.serves_writePage _ False id page) shows nofun) ?_
      (fun _ _ _ _ => trivial) fun _ _ _ => trivial
    rintro _ _ _ ⟨current', found, _⟩
    obtain ⟨written, done, _⟩ := Option.map_eq_some_iff.mp found
    refine ⟨before, free, ?_⟩
    simp only [Ledger.after, Ledger.update, done, Option.getD_some]
    exact now.written done (spares id page rfl free now.chained)
  | freePage id =>
    refine Prog.wp_mono ((@Pager.serves_freePage _ False id) shows nofun) ?_
      (fun _ _ _ _ => trivial) fun _ _ _ => trivial
    rintro _ _ _ ⟨current', found, _⟩
    obtain ⟨freed, done, _⟩ := Option.map_eq_some_iff.mp found
    refine ⟨before, id :: free, ?_⟩
    simp only [Ledger.after, Ledger.update, done, Option.getD_some]
    exact now.freed done

end Run

/-- The system is sound, the split is as the callers believe, and no process that is
gone left pages in their hands. -/
structure Occupied.Valid (occupied : Occupied) : Prop where
  valid : occupied.system.Valid
  whole : occupied.system.ledger.inFlight = none
  splits : occupied.system.ledger.Splits occupied.holdings
  closed : occupied.system.pager = none → occupied.holdings.current = occupied.holdings.acked

namespace Occupied

theorem initial : Valid {} where
  valid := ⟨.initial, .inl rfl, .inl ⟨rfl, rfl⟩⟩
  whole := rfl
  splits := ⟨⟨[], Database.Splits.initial⟩, [], Database.Splits.initial⟩
  closed _ := rfl

/-- Each event keeps the split. -/
theorem step_valid {occupied : Occupied} {step : Step} (sound : occupied.Valid)
    (whole : step.Whole) (spares : occupied.Spares step) (fits : step.Fits occupied.system) :
    (occupied.step step).Valid := by
  obtain ⟨⟨disk, open_, ledger⟩, holdings⟩ := occupied
  obtain ⟨valid, inFlight, ⟨⟨free, before⟩, free', now⟩, closed⟩ := sound
  have valid' := System.step_valid whole.calm fits valid
  cases step with
  | opens draws fates =>
    obtain rfl : fates = [] := whole
    cases open_ with
    | some pager => exact ⟨valid, inFlight, ⟨⟨free, before⟩, free', now⟩, closed⟩
    | none =>
      obtain ⟨pager, after, database, ran, owed, shows⟩ := construct_returns valid draws
      obtain rfl : database = ledger.acked := owed.resolve_right fun lost =>
        Option.some_ne_none database (lost.symm.trans inFlight)
      have same := closed rfl
      dsimp only at same before
      refine ⟨valid', ?_, ?_, ?_⟩
      · simp only [Occupied.step, System.step, ran]
      · simp only [Occupied.step, System.step, ran, shows.view_eq]
        exact ⟨⟨free, before⟩, free, by rw [same]; exact before⟩
      · simp only [Occupied.step, System.step, ran]
        exact fun gone => absurd gone (Option.some_ne_none pager)
  | performs op fates =>
    obtain rfl : fates = [] := whole
    cases open_ with
    | none => exact ⟨valid, inFlight, ⟨⟨free, before⟩, free', now⟩, closed⟩
    | some pager =>
      have shows := valid.2
      have ran := @run_splits _ _ _ holdings shows ⟨⟨free, before⟩, free', now⟩ op (fits pager rfl) ?_
      · simp only [Occupied.step, System.step, held] at valid' ⊢
        generalize op.program.run [] pager disk = ended at ran valid' ⊢
        rcases ended with ⟨⟨_, pager'⟩ | ⟨_, pager'⟩ | _, after⟩
        · exact ⟨valid', (ledger.inFlight_after op).trans inFlight, ran,
            fun gone => absurd gone (Option.some_ne_none pager')⟩
        · exact ⟨valid', inFlight, ⟨⟨free, before⟩, free', now⟩,
            fun gone => absurd gone (Option.some_ne_none pager')⟩
        · exact ran.elim
      · rintro id page rfl free chained
        refine spares pager rfl free ?_
        dsimp only
        rw [shows.view_eq, shows.meta_]
        exact chained
  | closes fates =>
    obtain rfl : fates = [] := whole
    cases open_ with
    | none => exact ⟨valid, inFlight, ⟨⟨free, before⟩, free', now⟩, closed⟩
    | some pager =>
      have ran := Prog.run_of_wp_nil (wp_closes False ⟨valid.2, False.elim⟩)
      simp only [Occupied.step, System.step, held] at valid' ⊢
      generalize Pager.destroy.run [] pager disk = ended at ran valid' ⊢
      rcases ended with ⟨_ | _ | _, after⟩
      · exact ⟨valid', inFlight, ⟨⟨free', now⟩, free', now⟩, fun _ => rfl⟩
      · exact ran.elim
      · exact ran.elim
  | dies =>
    cases open_ with
    | none => exact ⟨valid, inFlight, ⟨⟨free, before⟩, free', now⟩, closed⟩
    | some pager => exact ⟨valid', inFlight, ⟨⟨free, before⟩, free, before⟩, fun _ => rfl⟩

theorem run_valid {history : List Step} {occupied : Occupied} (sound : occupied.Valid)
    (lawful : occupied.Lawful history) (fits : occupied.system.Fits history) :
    (history.foldl Occupied.step occupied).Valid := by
  induction history generalizing occupied with
  | nil => exact sound
  | cons step rest ih =>
    obtain ⟨whole, spares, lawful⟩ := lawful
    exact ih (step_valid sound whole spares fits.1) lawful fits.2

end Occupied

private theorem run_freePage_ready {pager : Pager} {disk : Disk} {acked current : Database}
    {tenancy : Tenancy} {free : List PageId} {id : PageId}
    (shows : pager.Shows disk.files acked current) (splits : current.Splits tenancy free)
    (ready : id ∈ tenancy.ready) :
    ∃ pager' disk', (Pager.freePage id).run [] pager disk = (.returned () pager', disk') := by
  have freed := splits.frees ready
  have ran := Prog.run_of_wp_nil ((@Pager.serves_freePage Never False id) shows nofun)
  generalize (Pager.freePage id).run [] pager disk = ended at ran ⊢
  rcases ended with ⟨⟨_, pager'⟩ | _ | _, disk'⟩
  · exact ⟨pager', disk', rfl⟩
  · rcases ran with ⟨refused, _⟩ | ⟨⟨_, _, impossible⟩, _⟩
    · rw [Option.map_eq_none_iff.mp refused] at freed
      cases freed
    · exact impossible.elim
  · exact ran.elim

private theorem run_rollback {pager : Pager} {disk : Disk} {acked current : Database}
    (shows : pager.Shows disk.files acked current) :
    ∃ pager', Pager.rollback.run [] pager disk = (.returned () pager', disk) ∧
      pager'.Shows disk.files acked acked := by
  have ran := Prog.run_of_wp_nil (show Prog.wp Never _ _ (fun _ _ _ => False) (fun _ _ => True) _ _
    from Pager.wp_rollback shows.toKeeps)
  generalize Pager.rollback.run [] pager disk = ended at ran ⊢
  rcases ended with ⟨⟨_, pager'⟩ | _ | _, disk'⟩
  · obtain ⟨rfl, shows', _⟩ := ran
    exact ⟨pager', rfl, shows'⟩
  · exact ran.elim
  · exact ran.elim

/-- The pages of the database are those that callers hold and those on the free list, which is
walked to its end; an allocation returns a page that nobody holds; a rollback brings back the
split of the last commit. -/
def Occupied.Intact (occupied : Occupied) : Prop :=
  ∀ pager disk, occupied.system.pager = some pager → disk = occupied.system.disk →
    ∃ free, (pager.view disk.files).Splits occupied.holdings.current free ∧ free.Nodup ∧
      Pager.freelistLength.run [] pager disk = (.returned free.length pager, disk) ∧
      (∃ id pager', Pager.allocatePage.run [] pager disk = (.returned id pager', disk) ∧
        id ∉ occupied.holdings.current.used ∧
        (pager'.meta_.pageCount ≠ pager.meta_.pageCount → free = [])) ∧
      (∀ id ∈ occupied.holdings.current.ready, ∃ pager' disk',
        (Pager.freePage id).run [] pager disk = (.returned () pager', disk')) ∧
      ∃ pager' free', Pager.rollback.run [] pager disk = (.returned () pager', disk) ∧
        pager'.view disk.files = occupied.system.ledger.acked ∧
        (pager'.view disk.files).Splits occupied.holdings.acked free'

/-- Free-list integrity: the split is intact at every moment, as long as page ids fit in 32
bits. -/
theorem freelist_integrity (history : List Step) (lawful : Occupied.Lawful {} history)
    (fits : System.Fits {} history) : (history.foldl Occupied.step {}).Intact := by
  obtain ⟨valid, _, ⟨⟨free', before⟩, free, now⟩, _⟩ :=
    @Occupied.run_valid history _ Occupied.initial lawful fits
  generalize history.foldl Occupied.step {} = occupied at *
  rintro pager disk opened rfl
  have shows : pager.Shows occupied.system.disk.files occupied.system.ledger.acked
      occupied.system.ledger.current := by
    rw [System.Valid, opened] at valid
    exact valid.2
  have view := shows.view_eq
  obtain ⟨pager', rolled, shows'⟩ := run_rollback shows
  have view' := shows'.view_eq
  exact ⟨free, view ▸ now, now.chained.nodup, run_freelistLength shows now,
    run_allocatePage_unused shows now, fun id => run_freePage_ready shows now,
    pager', free', rolled, view', view' ▸ before⟩

/-- A page that is handed out, written, committed, freed, and handed out again. -/
theorem freelist_integrity_reuse :
    Occupied.Intact <| [Step.opens ⟨7, 1⟩ [], .performs .allocatePage [],
      .performs (.writePage 1 { id := 1, type := .kSlotted }) [], .performs .commit [],
      .performs (.freePage 1) [], .performs .allocatePage []].foldl Occupied.step {} := by
  refine freelist_integrity _ ⟨rfl, trivial, rfl, trivial, rfl, ?_, rfl, trivial, rfl, trivial,
    rfl, trivial, trivial⟩ (by decide +kernel)
  -- nothing is free when the page is written
  intro pager opened free chained
  have head : pager.meta_.freelistHead = kNullPage := by
    cases opened
    rfl
  rw [head] at chained
  cases free with
  | nil => exact List.not_mem_nil
  | cons first rest => exact absurd chained.1.symm chained.2.1.1

section Wrap

variable {pager : Pager} {occupied : Occupied}

/-- Allocations keep to the law, whatever they count. -/
theorem lawful_allocations (count : Nat) : occupied.Lawful (allocations count) := by
  induction count generalizing occupied with
  | zero => trivial
  | succ count ih => exact ⟨rfl, trivial, ih⟩

theorem Occupied.step_allocatePage (opened : occupied.system.pager = some pager)
    (empty : pager.meta_.freelistHead = kNullPage) :
    (occupied.step (.performs .allocatePage [])).holdings.current.used =
      pager.meta_.pageCount :: occupied.holdings.current.used := by
  have ran : Pager.allocatePage.run [] pager occupied.system.disk =
      (.returned pager.meta_.pageCount pager.grown, occupied.system.disk) :=
    Prog.run_eq_of_wp (wp_allocatePage_grown empty)
  rw [Occupied.step, opened]
  simp only [Occupied.held, run_grows empty, Holdings.after, ran]
  rfl

/-- Every allocation hands a page out. -/
theorem run_allocations (count : Nat) (opened : occupied.system.pager = some pager)
    (empty : pager.meta_.freelistHead = kNullPage) :
    ((allocations count).foldl Occupied.step occupied).system =
        (allocations count).foldl System.step occupied.system ∧
      ((allocations count).foldl Occupied.step occupied).holdings.current.used.length =
        occupied.holdings.current.used.length + count := by
  induction count generalizing occupied pager with
  | zero => exact ⟨rfl, rfl⟩
  | succ count ih =>
    have first := System.step_allocatePage opened empty
    obtain ⟨system, length⟩ := @ih pager.grown (occupied.step (.performs .allocatePage []))
      (congrArg System.pager first) empty
    refine ⟨system, length.trans ?_⟩
    rw [Occupied.step_allocatePage opened empty, List.length_cons, Nat.add_assoc, Nat.add_comm 1]

/-- After `2 ^ 32` allocations the database counts no page but the meta page, and callers hold
all of them. -/
theorem freelist_broken_after_wrap :
    ¬ ∀ history, Occupied.Lawful {} history → (history.foldl Occupied.step {}).Intact := by
  intro always
  obtain ⟨count, round⟩ : ∃ count, (1 + count + 1) % UInt32.size = 1 := ⟨UInt32.size - 1, rfl⟩
  let occupied := Occupied.step {} (.opens ⟨7, 1⟩ [])
  obtain ⟨pager, opened, fields⟩ :
      ∃ pager, occupied.system.pager = some pager ∧ pager.meta_ = {} := ⟨_, rfl, rfl⟩
  have empty : pager.meta_.freelistHead = kNullPage := by rw [fields]
  obtain ⟨_, counted⟩ := System.run_allocations count opened empty
  obtain ⟨system, length⟩ := @run_allocations _ occupied (count + 1) opened empty
  rw [counted] at system
  rw [fields] at system
  obtain ⟨free, splits, _⟩ := always (.opens ⟨7, 1⟩ [] :: allocations (count + 1))
    ⟨rfl, trivial, lawful_allocations _⟩ _ _ (congrArg System.pager system) rfl
  have parts := splits.parts.length_eq
  rw [List.length_append, List.length_range'] at parts
  have none_left :
      ((allocations (count + 1)).foldl Occupied.step occupied).holdings.current.used.length +
        free.length = (1 + count + 1) % UInt32.size - 1 := parts
  rw [round, length] at none_left
  omega

end Wrap

end Labdb.Storage
