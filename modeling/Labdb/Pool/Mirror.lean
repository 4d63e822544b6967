import Labdb.Pool.Transaction
import Labdb.Storage.FreeList

/-! What a pool is for, without frames or files: two versions of a database, the
pins that are held, and which requests a caller may make. -/

namespace Labdb.Pool

open Labdb.Program Labdb.Storage

/-- A database with the list of its free pages. -/
structure Version where
  database : Database
  free : List PageId

namespace Version

variable {version : Version} {id : PageId} {page : Page}

/-- The page is in use: it exists and is not free. -/
def Allocated (version : Version) (id : PageId) : Prop :=
  version.database.Covers id ∧ id ∉ version.free

instance (version : Version) (id : PageId) : Decidable (version.Allocated id) :=
  inferInstanceAs (Decidable (_ ∧ _))

/-- The list is the database's free list, and pages in use carry their ids. -/
structure Formed (version : Version) : Prop where
  chained : version.database.Chained version.database.fields.freelistHead version.free
  named : ∀ id, version.Allocated id → (version.database.page id).id = id
  counted : 0 < version.database.fields.pageCount

def set (version : Version) (id : PageId) (page : Page) : Version :=
  { version with database := version.database.set id page }

def refield (version : Version) (update : Meta → Meta) : Version :=
  { version with database.fields := update version.database.fields }

/-- The page that an allocation hands out. -/
def taken (version : Version) : PageId := version.free.headD version.database.fields.pageCount

def takenFields (version : Version) : Meta :=
  match version.free with
  | [] => { version.database.fields with pageCount := version.database.fields.pageCount + 1 }
  | _ :: rest => { version.database.fields with freelistHead := rest.headD kNullPage }

/-- A free page, or one more, is in use and blank. -/
def allocate (version : Version) : Version where
  database := { version.database with fields := version.takenFields }.set version.taken
    { id := version.taken }
  free := version.free.tail

theorem Formed.set (formed : version.Formed) (allocated : version.Allocated id)
    (own : page.id = id) : (version.set id page).Formed := by
  refine ⟨formed.chained.congr (fun _ covers => covers) ?_, ?_, formed.counted⟩
  · intro other member
    refine Database.set_page_ne ?_
    rintro rfl
    exact allocated.2 member
  · intro other used
    by_cases same : other = id
    · subst other
      exact (congrArg Page.id Database.set_page_self).trans own
    · exact (congrArg Page.id (Database.set_page_ne same)).trans (formed.named other used)

theorem Formed.refield (formed : version.Formed) {update : Meta → Meta}
    (count : (update version.database.fields).pageCount = version.database.fields.pageCount)
    (head : (update version.database.fields).freelistHead = version.database.fields.freelistHead) :
    (version.refield update).Formed := by
  have covers : ∀ id, (version.refield update).database.Covers id ↔ version.database.Covers id := by
    intro id
    rw [Database.Covers, Database.Covers, Version.refield, count]
  refine ⟨?_, fun id used => formed.named id ⟨(covers id).mp used.1, used.2⟩, ?_⟩
  · exact head ▸ formed.chained.congr (fun id => (covers id).mpr) fun _ _ => rfl
  · exact Nat.lt_of_lt_of_eq formed.counted count.symm

/-- The page handed out was not in use. -/
theorem taken_unused : ¬ version.Allocated version.taken := by
  unfold taken
  rintro ⟨covers, unfree⟩
  cases free : version.free with
  | nil =>
    rw [free] at covers
    exact Nat.lt_irrefl _ covers.2
  | cons id rest =>
    rw [free] at unfree
    exact unfree List.mem_cons_self

theorem covers_allocate (formed : version.Formed) :
    version.allocate.database.Covers id ↔ version.database.Covers id ∨ id = version.taken := by
  have chained := formed.chained
  have counted := formed.counted
  simp only [Database.Covers, allocate, Database.set_fields, takenFields, taken]
  cases free : version.free with
  | nil =>
    simp only [List.headD_nil]
    constructor
    · rintro ⟨real, inside⟩
      rcases Nat.lt_succ_iff_lt_or_eq.mp inside with before | same
      · exact .inl ⟨real, before⟩
      · exact .inr same
    · rintro (⟨real, inside⟩ | rfl)
      · exact ⟨real, Nat.lt_succ_of_lt inside⟩
      · exact ⟨Nat.ne_of_gt counted, Nat.lt_succ_self _⟩
  | cons first rest =>
    rw [free] at chained
    simp only [List.headD_cons]
    constructor
    · exact .inl
    · rintro (covers | rfl)
      · exact covers
      · exact chained.2.1

/-- An allocation puts one page more to use. -/
theorem allocated_allocate (formed : version.Formed) :
    version.allocate.Allocated id ↔ version.Allocated id ∨ id = version.taken := by
  have nodup := formed.chained.nodup
  rw [Allocated, Allocated, covers_allocate formed]
  simp only [allocate, taken]
  cases free : version.free with
  | nil => simp
  | cons first rest =>
    rw [free] at nodup
    have unlisted := (List.nodup_cons.mp nodup).1
    simp only [List.tail_cons, List.headD_cons, List.mem_cons, not_or]
    constructor
    · rintro ⟨covers | rfl, unfree⟩
      · by_cases same : id = first
        · exact .inr same
        · exact .inl ⟨covers, same, unfree⟩
      · exact .inr rfl
    · rintro (⟨covers, _, unfree⟩ | rfl)
      · exact ⟨.inl covers, unfree⟩
      · exact ⟨.inr rfl, unlisted⟩

theorem Formed.allocate (formed : version.Formed) : version.allocate.Formed := by
  have nodup := formed.chained.nodup
  have chained := formed.chained
  refine ⟨?_, ?_, ?_⟩
  · -- the list goes on where the page handed out says
    have kept : ∀ {head : PageId} {rest : List PageId}, version.database.Chained head rest →
        version.taken ∉ rest → version.allocate.database.Chained head rest := by
      intro head rest chained unlisted
      refine chained.congr (fun id covers => (covers_allocate formed).mpr (.inl covers)) ?_
      intro id member
      refine Database.set_page_ne ?_
      rintro rfl
      exact unlisted member
    unfold taken at kept
    simp only [Version.allocate, Database.set_fields, takenFields] at kept ⊢
    cases free : version.free with
    | nil =>
      rw [free] at chained
      simp only [free] at kept
      exact kept chained List.not_mem_nil
    | cons first rest =>
      rw [free] at chained nodup
      simp only [free] at kept
      have later := kept chained.2.2.2 (List.nodup_cons.mp nodup).1
      rw [chained.2.2.2.head_eq] at later
      exact later
  · intro id used
    by_cases same : id = version.taken
    · subst id
      exact congrArg Page.id Database.set_page_self
    · have before := ((allocated_allocate formed).mp used).resolve_right same
      exact (congrArg Page.id (Database.set_page_ne same)).trans (formed.named id before)
  · have counted := formed.counted
    simp only [Version.allocate, Database.set_fields, takenFields]
    split
    · exact Nat.succ_pos _
    · exact counted

/-- What the pager's allocation does to a database that has the same free pages. -/
theorem Formed.allocate_eq (formed : version.Formed) {staged : Database}
    (fields : staged.fields = version.database.fields)
    (page : ∀ id ∈ version.free, staged.page id = version.database.page id) :
    staged.allocate = some (version.taken, { staged with fields := version.takenFields }) := by
  have chained := formed.chained
  unfold Database.allocate takenFields taken
  cases free : version.free with
  | nil =>
    rw [free] at chained
    rw [if_pos (fields ▸ chained)]
    simp [fields]
  | cons id rest =>
    rw [free] at chained page
    obtain ⟨same, covers, type, rest_chained⟩ := chained
    have inside : staged.Covers id := by rwa [Database.Covers, fields]
    have stored := page id List.mem_cons_self
    rw [fields, if_neg (same ▸ covers.1), same, Database.read, if_pos inside]
    simp [stored, type, rest_chained.head_eq]

end Version

/-- What a caller asks of a pool. -/
inductive Request where
  | readPage (id : PageId)
  | writePage (id : PageId) (page : Page)
  | fetchPin (id : PageId)
  /-- Change the bytes of a page through the reference that its pin gave. -/
  | assign (id : PageId) (page : Page)
  | unpin (id : PageId) (dirty : Bool)
  | allocatePage
  /-- The page count, the head of the free list and the roots. -/
  | readFields
  | setBtreeRoot (id : PageId)
  | setHeapHead (id : PageId)
  | setCatalogRoot (id : PageId)
  | commit
  | rollback
  deriving DecidableEq

inductive Answer where
  | done
  | page (page : Page)
  | id (id : PageId)
  | fields (fields : Meta)
  deriving DecidableEq

/-- What the callers of a pool may rely on: the version committed last, the one in
progress, a pin for each that is held, and the pages changed under a pin whose
change was not reported yet. -/
structure Mirror where
  acked : Version
  current : Version
  held : List PageId := []
  changed : List PageId := []

namespace Mirror

def start (version : Version) : Mirror := { acked := version, current := version }

def after (mirror : Mirror) : Request → Mirror
  | .readPage _ | .readFields => mirror
  | .writePage id page => { mirror with
      current := mirror.current.set id page
      changed := BufferPool.unmark mirror.changed id }
  | .fetchPin id => { mirror with held := id :: mirror.held }
  | .assign id page => { mirror with
      current := mirror.current.set id page
      changed := id :: mirror.changed }
  | .unpin id dirty => { mirror with
      held := mirror.held.erase id
      changed := if dirty then BufferPool.unmark mirror.changed id else mirror.changed }
  | .allocatePage => { mirror with current := mirror.current.allocate }
  | .setBtreeRoot id => { mirror with
      current := mirror.current.refield fun fields => { fields with btreeRoot := id } }
  | .setHeapHead id => { mirror with
      current := mirror.current.refield fun fields => { fields with heapHead := id } }
  | .setCatalogRoot id => { mirror with
      current := mirror.current.refield fun fields => { fields with catalogRoot := id } }
  | .commit => { mirror with acked := mirror.current }
  | .rollback => { mirror with current := mirror.acked }

def answer (mirror : Mirror) : Request → Answer
  | .readPage id | .fetchPin id => .page (mirror.current.database.page id)
  | .allocatePage => .id mirror.current.taken
  | .readFields => .fields mirror.current.database.fields
  | _ => .done

def answers (mirror : Mirror) : List Request → List Answer
  | [] => []
  | request :: rest => mirror.answer request :: (mirror.after request).answers rest

/-- No more pages are pinned than there are frames, with this one. -/
def Room (mirror : Mirror) (capacity : Nat) (id : PageId) : Prop :=
  id ∈ mirror.held ∨ mirror.held.dedup.length < capacity

instance (mirror : Mirror) (capacity : Nat) (id : PageId) : Decidable (mirror.Room capacity id) :=
  inferInstanceAs (Decidable (_ ∨ _))

/-- The page can be pinned once more: there is a frame for it, and an `int` counts its pins. -/
def Pinnable (mirror : Mirror) (capacity : Nat) (id : PageId) : Prop :=
  mirror.Room capacity id ∧ mirror.held.count id < intMax

instance (mirror : Mirror) (capacity : Nat) (id : PageId) :
    Decidable (mirror.Pinnable capacity id) :=
  inferInstanceAs (Decidable (_ ∧ _))

/-- The requests a caller may make. An allocation finds an id of 32 bits. -/
def Legal (capacity : Nat) (mirror : Mirror) : Request → Prop
  | .readPage id | .fetchPin id => mirror.current.Allocated id ∧ mirror.Pinnable capacity id
  | .writePage id page =>
      mirror.current.Allocated id ∧ page.id = id ∧ mirror.Pinnable capacity id
  | .assign id page => id ∈ mirror.held ∧ page.id = id
  | .unpin id dirty =>
      id ∈ mirror.held ∧ (id ∈ mirror.changed → dirty = true ∨ 1 < mirror.held.count id)
  | .allocatePage =>
      mirror.held.dedup.length < capacity ∧ mirror.current.database.fields.Fits
  | .rollback => mirror.held = []
  | _ => True

instance (capacity : Nat) (mirror : Mirror) :
    (request : Request) → Decidable (mirror.Legal capacity request)
  | .readPage _ | .fetchPin _ | .assign _ _ => inferInstanceAs (Decidable (_ ∧ _))
  | .writePage _ _ => inferInstanceAs (Decidable (_ ∧ _ ∧ _))
  | .unpin _ _ => inferInstanceAs (Decidable (_ ∧ (_ → _ ∨ _)))
  | .allocatePage => inferInstanceAs (Decidable (_ ∧ _))
  | .rollback => inferInstanceAs (Decidable (_ = _))
  | .readFields | .setBtreeRoot _ | .setHeapHead _ | .setCatalogRoot _ | .commit =>
    inferInstanceAs (Decidable True)

/-- A commit comes when every change made under a pin was reported. -/
def Reported (mirror : Mirror) (request : Request) : Prop :=
  request = .commit → mirror.changed = []

instance (mirror : Mirror) (request : Request) : Decidable (mirror.Reported request) :=
  inferInstanceAs (Decidable (_ → _))

/-- Every request meets a rule when it is made. -/
def Follows (rule : Mirror → Request → Prop) (mirror : Mirror) : List Request → Prop
  | [] => True
  | request :: rest => rule mirror request ∧ (mirror.after request).Follows rule rest

instance decidableFollows (rule : Mirror → Request → Prop)
    [∀ mirror request, Decidable (rule mirror request)] :
    ∀ (mirror : Mirror) (requests : List Request), Decidable (mirror.Follows rule requests)
  | _, [] => inferInstanceAs (Decidable True)
  | mirror, request :: rest =>
    have := decidableFollows rule (mirror.after request) rest
    inferInstanceAs (Decidable (_ ∧ _))

end Mirror

namespace BufferPool

def serve : Request → PoolM Answer
  | .readPage id => do
    let page ← readPage id
    pure (.page page)
  | .writePage id page => do
    writePage id page
    pure .done
  | .fetchPin id => do
    let page ← fetchPin id
    pure (.page page)
  | .assign id page => do
    assign id page
    pure .done
  | .unpin id dirty => do
    unpin id dirty
    pure .done
  | .allocatePage => do
    let id ← allocatePage
    pure (.id id)
  | .readFields => do
    let pool ← Prog.get
    pure (.fields pool.pager.meta_)
  | .setBtreeRoot id => do
    setBtreeRoot id
    pure .done
  | .setHeapHead id => do
    setHeapHead id
    pure .done
  | .setCatalogRoot id => do
    setCatalogRoot id
    pure .done
  | .commit => do
    commit
    pure .done
  | .rollback => do
    rollback
    pure .done

def serveAll : List Request → PoolM (List Answer)
  | [] => pure []
  | request :: rest => do
    let answer ← serve request
    let answers ← serveAll rest
    pure (answer :: answers)

end BufferPool

end Labdb.Pool
