import Labdb.Catalog.Tables
import Labdb.Sql.Lexing

/-! Calls on the catalog page, and what any of them leave on it: the tables and what was last
recorded of each. -/

namespace Labdb.Catalog

open Labdb.Data Labdb.Heap Labdb.Program Labdb.Query Labdb.Record

variable {p : Image} {tables : List RawDesc} {name : Text}

/-- What the catalog is for: tables by name. -/
abbrev TablesM := Stateful Fault (List RawDesc)

namespace TablesM

def described (name message : Text) : TablesM RawDesc := do
  let tables ← get
  present message (tables.find? (·.name = name))

def change (name message : Text) (update : RawDesc → RawDesc) : TablesM Unit := do
  let _ ← described name message
  modify (changed name update)

def createTable (name : Text) (schema : Schema) (planted : Codec PageId) : TablesM Unit := do
  let tables ← get
  checked (checkThat (∀ d ∈ tables, d.name ≠ name) (bytes "a table with this name already exists"))
  checked (checkThat (tables.length < kCatalogMaxTables)
    (bytes "catalog page is full (one page limits table count)"))
  let broot ← checked planted
  checked (fits name schema)
  set (tables ++ [RawDesc.fresh name schema broot])

def updateHeapHead (name : Text) (newHead : PageId) : TablesM Unit :=
  change name (bytes "no such table (heap head update)") fun d =>
    { d with heapHead := newHead, heapPages := d.heapPages + 1 }

def updateBtreeRoot (name : Text) (newRoot : PageId) : TablesM Unit :=
  change name (bytes "no such table (btree root update)") fun d => { d with btreeRoot := newRoot }

def updateIndexRoot (name : Text) (column : Nat) (newRoot : PageId) : TablesM Unit :=
  change name (bytes "no such table (index root update)") fun d =>
    { d with indexRoots := d.indexRoots.set column newRoot }

def countRow (name : Text) : TablesM Unit :=
  modify (changed name fun d => { d with rows := d.rows + 1 })

def insertRow (table : Text) (row : Row) (filing : Filing) : TablesM Bool := do
  let d ← described table (bytes "no such table")
  checked (checkThat (keyed row) (bytes "row's key column (column 0) must be a non-null Int64"))
  let _ ← checked (encode d.schema row)
  report (updateHeapHead table) filing.heap.moves filing.heap.raises
  report (updateBtreeRoot table) filing.tree.moves filing.tree.raises
  if filing.isNew then
    fileInIndexes (updateIndexRoot table) d.indexRoots row filing
      (List.range' 1 (d.schema.columns.length - 1))
    countRow table
    pure true
  else pure false

def createIndex (table : Text) (column : Nat) (planted : Codec PageId) (filing : Reports) :
    TablesM Unit := do
  let d ← described table (bytes "no such table (create index)")
  checked (checkThat (0 < column ∧ column < d.schema.columns.length)
    (bytes "index column out of range"))
  checked (checkThat (d.indexRoots[column]? = some kNullPage)
    (bytes "the column is already indexed"))
  let root ← checked planted
  modify (changed table fun d => { d with indexRoots := d.indexRoots.set column root })
  report (updateIndexRoot table column) filing.moves filing.raises

end TablesM

section Simulation

/-- The page lists the tables, which are what they were but for the one of that name. -/
structure Since (old : List RawDesc) (name : Text) (p : Image) (tables : List RawDesc) : Prop where
  lists : Lists p tables
  names : tables.map (·.name) = old.map (·.name)
  others : ∀ (slot : Nat) d, old[slot]? = some d → d.name ≠ name → tables[slot]? = some d

/-- On a page that lists tables, the call on the page is the call on the tables, and it touches
but one of them. -/
abbrev Follows {α : Type} (old : List RawDesc) (name : Text) (program : CatalogM α)
    (spec : TablesM α) : Prop :=
  Stateful.Simulates (Since old name) (Since old name) (Since old name) program spec

variable {old : List RawDesc}

private theorem follows_checked {α : Type} (codec : Codec α) :
    Follows old name (checked codec) (checked codec) := by
  cases codec with
  | ok value => exact .pure value
  | error fault => exact .throw fault

/-- A check that reads nothing but what was loaded. -/
theorem alike_checked {α β : Type} {after raised : Image → List RawDesc → Prop} {codec : Codec α}
    {next : α → CatalogM β} {nextSpec : α → TablesM β} (holds : raised p tables)
    (each : ∀ value, codec = .ok value →
      Stateful.Alike after raised ((next value).runOn p) ((nextSpec value).runOn tables)) :
    Stateful.Alike after raised ((checked codec >>= next).runOn p)
      ((checked codec >>= nextSpec).runOn tables) := by
  cases codec with
  | ok value => exact each value rfl
  | error fault => exact .error fault holds

/-- What holds of every end of the rest, and of each refusal. -/
theorem ends_checked {σ α β : Type} (ending : Except Fault β × σ → Prop) {codec : Codec α}
    {next : α → Stateful Fault σ β} {memory : σ} (refused : ∀ fault, ending (.error fault, memory))
    (each : ∀ value, ending ((next value).runOn memory)) :
    ending ((checked codec >>= next).runOn memory) := by
  cases codec with
  | ok value => exact each value
  | error fault => exact refused fault

theorem passes_of_checkThat {passes : Prop} [Decidable passes] {message : Text} {value : Unit}
    (ok : checkThat passes message = .ok value) : passes := by
  by_contra fails
  rw [checkThat_false (decide_eq_false fails)] at ok
  cases ok

private theorem find?_of_slot {slot : Nat} {d : RawDesc} (lists : Lists p tables)
    (here : tables[slot]? = some d) (same : d.name = name) :
    tables.find? (·.name = name) = some d := by
  cases found : tables.find? (·.name = name) with
  | none =>
    have none_ := List.find?_eq_none.mp found d (List.mem_of_getElem? here)
    exact absurd (decide_eq_true same) none_
  | some other =>
    have hit := List.find?_some found
    have same' : other.name = name := of_decide_eq_true hit
    obtain ⟨slot', there⟩ := List.getElem?_of_mem (List.mem_of_find?_eq_some found)
    obtain rfl := lists.same_slot there here (same'.trans same.symm)
    exact there.symm.trans here

/-- The slot of a table and the table are found alike. -/
theorem alike_found {α : Type} {message : Text} {next : Nat → CatalogM α}
    {nextSpec : RawDesc → TablesM α} (since : Since old name p tables)
    (each : ∀ slot d, findSlot p name = some slot → tables[slot]? = some d → d.name = name →
      Stateful.Alike (Since old name) (Since old name) ((next slot).runOn p)
        ((nextSpec d).runOn tables)) :
    Stateful.Alike (Since old name) (Since old name)
      ((present message (findSlot p name) >>= next).runOn p)
      ((TablesM.described name message >>= nextSpec).runOn tables) := by
  have first : (TablesM.described name message >>= nextSpec).runOn tables =
      (present message (tables.find? (·.name = name)) >>= nextSpec).runOn tables := rfl
  rw [first]
  cases found : findSlot p name with
  | none =>
    have absent : tables.find? (·.name = name) = none := by
      refine List.find?_eq_none.mpr fun d member => ?_
      simpa using since.lists.findSlot_none found d member
    rw [absent]
    exact .error _ since
  | some slot =>
    obtain ⟨d, here, same⟩ := since.lists.findSlot_iff.mp found
    rw [find?_of_slot since.lists here same]
    exact each slot d found here same

theorem Since.changed {slot : Nat} {write : Image → Nat → Image} {update : RawDesc → RawDesc}
    (since : Since old name p tables) (writes : Writes write update)
    (found : findSlot p name = some slot) :
    Since old name (write p slot) (changed name update tables) where
  lists := since.lists.changed writes found
  names := (names_changed writes.name).trans since.names
  others := by
    intro other d was differ
    rw [Catalog.changed, List.getElem?_map, since.others other d was differ, Option.map_some,
      if_neg differ]

private theorem follows_updateSlot {message : Text} {write : Image → Nat → Image}
    {update : RawDesc → RawDesc} (writes : Writes write update) :
    Follows old name (updateSlot name message write) (TablesM.change name message update) := by
  intro p tables since
  unfold updateSlot TablesM.change loadCatalogPage
  rw [Stateful.runOn_get_bind]
  exact alike_found since fun slot d found _ _ => .ok () (since.changed writes found)

private theorem follows_updateHeapHead (page : PageId) :
    Follows old name (updateHeapHead name page) (TablesM.updateHeapHead name page) :=
  follows_updateSlot (writes_heapHead page)

private theorem follows_updateBtreeRoot (page : PageId) :
    Follows old name (updateBtreeRoot name page) (TablesM.updateBtreeRoot name page) :=
  follows_updateSlot (writes_btreeRoot page)

private theorem follows_updateIndexRoot {column : Nat} (small : column < 8) (page : PageId) :
    Follows old name (updateIndexRoot name column page)
      (TablesM.updateIndexRoot name column page) :=
  follows_updateSlot (writes_indexRoot small page)

private theorem follows_report {callback : PageId → CatalogM Unit} {spec : PageId → TablesM Unit}
    (each : ∀ page, Follows old name (callback page) (spec page)) (moves : List PageId)
    (raises : Option Fault) :
    Follows old name (report callback moves raises) (report spec moves raises) := by
  induction moves with
  | nil =>
    cases raises with
    | none => exact .pure ()
    | some fault => exact .throw fault
  | cons page rest ih => exact (each page).bind fun _ => ih

private theorem follows_fileInIndexes {callback : Nat → PageId → CatalogM Unit}
    {spec : Nat → PageId → TablesM Unit} {roots : List PageId} {row : Row} {filing : Filing}
    {columns : List Nat}
    (each : ∀ c ∈ columns, ∀ page, Follows old name (callback c page) (spec c page)) :
    Follows old name (fileInIndexes callback roots row filing columns)
      (fileInIndexes spec roots row filing columns) := by
  induction columns with
  | nil => exact .pure ()
  | cons c rest ih =>
    have others := ih fun c member => each c (List.mem_cons_of_mem _ member)
    rw [fileInIndexes, fileInIndexes]
    split
    · exact others
    · exact (follows_report (each c List.mem_cons_self) _ _).bind fun _ => others

/-- The slot that was found first is still the table's, for names stay. -/
theorem follows_countRow {slot : Nat} (here : (old.map (·.name))[slot]? = some name) :
    Follows old name (countRow slot) (TablesM.countRow name) := by
  intro p tables since
  rw [← since.names, List.getElem?_map] at here
  obtain ⟨d, isTable, same⟩ := Option.map_eq_some_iff.mp here
  have found := since.lists.findSlot_iff.mpr ⟨d, isTable, same⟩
  exact .ok () (since.changed writes_rows found)

theorem Lists.readDesc {slot : Nat} {d : RawDesc} (lists : Lists p tables)
    (here : tables[slot]? = some d) : readDesc p slot = .ok d :=
  (lists.holds slot d here).readDesc

private theorem Lists.runOn_readDesc {slot : Nat} {d : RawDesc} (lists : Lists p tables)
    (here : tables[slot]? = some d) :
    (checked (Catalog.readDesc p slot) : CatalogM RawDesc).runOn p = (.ok d, p) := by
  rw [lists.readDesc here]
  rfl

private theorem follows_insertRow {row : Row} {filing : Filing} :
    Follows old name (insertRow name row filing) (TablesM.insertRow name row filing) := by
  intro p tables since
  unfold insertRow TablesM.insertRow loadCatalogPage
  rw [Stateful.runOn_get_bind]
  refine alike_found since fun slot d found here same => ?_
  have isName : (old.map (·.name))[slot]? = some name := by
    rw [← since.names, List.getElem?_map, here, ← same]
    rfl
  have few := (since.lists.holds slot d here).few
  rw [Stateful.runOn_bind_ok (since.lists.runOn_readDesc here)]
  refine Stateful.Simulates.bind (follows_checked _) (fun _ => ?_) p tables since
  apply (follows_checked _).bind
  intro _
  apply (follows_report follows_updateHeapHead _ _).bind
  intro _
  apply (follows_report follows_updateBtreeRoot _ _).bind
  intro _
  split
  · have each : ∀ c ∈ List.range' 1 (d.schema.columns.length - 1), ∀ page,
        Follows old name (updateIndexRoot name c page) (TablesM.updateIndexRoot name c page) := by
      intro c member page
      have inside := (List.mem_range'_1.mp member).2
      exact follows_updateIndexRoot (by omega) page
    apply (follows_fileInIndexes each).bind
    intro _
    exact (follows_countRow isName).bind fun _ => .pure true
  · exact .pure false

private theorem follows_createIndex {column : Nat} {planted : Codec PageId} {filing : Reports} :
    Follows old name (createIndex name column planted filing)
      (TablesM.createIndex name column planted filing) := by
  intro p tables since
  unfold createIndex TablesM.createIndex loadCatalogPage
  rw [Stateful.runOn_get_bind]
  refine alike_found since fun slot d found here same => ?_
  have few := (since.lists.holds slot d here).few
  rw [Stateful.runOn_bind_ok (since.lists.runOn_readDesc here)]
  apply alike_checked since
  intro _ passes
  apply alike_checked since
  intro _ _
  apply alike_checked since
  intro root _
  have small : column < 8 := by
    have inside := passes_of_checkThat passes
    omega
  have stored := since.changed (writes_indexRoot small root) found
  have followed := follows_report (fun page => @follows_updateIndexRoot name old column small page)
    filing.moves filing.raises
  exact followed _ _ stored

/-- The table that is created comes last. -/
theorem follows_createTable {schema : Schema} {planted : Codec PageId}
    (plain : ∀ c ∈ schema.columns, 0 ∉ c.name) :
    Stateful.Simulates Lists Lists Lists (createTable name schema planted)
      (TablesM.createTable name schema planted) := by
  intro p tables lists
  have absent : (findSlot p name).isNone = decide (∀ d ∈ tables, d.name ≠ name) := by
    cases found : findSlot p name with
    | none => exact (decide_eq_true (lists.findSlot_none found)).symm
    | some slot =>
      obtain ⟨d, here, same⟩ := lists.findSlot_iff.mp found
      exact (decide_eq_false fun none_ => none_ d (List.mem_of_getElem? here) same).symm
  unfold createTable TablesM.createTable loadCatalogPage
  rw [Stateful.runOn_get_bind, Stateful.runOn_get_bind, absent]
  apply alike_checked lists
  intro _ new
  dsimp only
  rw [lists.count]
  apply alike_checked lists
  intro _ room
  apply alike_checked lists
  intro broot _
  cases fitting : fits name schema with
  | ok value =>
    obtain ⟨q, wrote, held, outside⟩ := writeDesc_ok fitting plain broot
    rw [wrote]
    have listed := lists.appended (passes_of_checkThat room) (passes_of_checkThat new) held outside
    exact .ok () listed
  | error fault =>
    rw [writeDesc_error fitting]
    exact .error fault lists

end Simulation

section Runs

/-- A call that changes the catalog page. -/
inductive Request where
  | createTable (name : Text) (schema : Schema) (planted : Codec PageId)
  | createIndex (table : Text) (column : Nat) (planted : Codec PageId) (filing : Reports)
  | updateHeapHead (name : Text) (newHead : PageId)
  | updateBtreeRoot (name : Text) (newRoot : PageId)
  | updateIndexRoot (name : Text) (column : Nat) (newRoot : PageId)
  | insertRow (table : Text) (row : Row) (filing : Filing)

namespace Request

def program : Request → CatalogM Unit
  | .createTable name schema planted => Catalog.createTable name schema planted
  | .createIndex table column planted filing => Catalog.createIndex table column planted filing
  | .updateHeapHead name newHead => Catalog.updateHeapHead name newHead
  | .updateBtreeRoot name newRoot => Catalog.updateBtreeRoot name newRoot
  | .updateIndexRoot name column newRoot => Catalog.updateIndexRoot name column newRoot
  | .insertRow table row filing => do let _ ← Catalog.insertRow table row filing

def spec : Request → TablesM Unit
  | .createTable name schema planted => TablesM.createTable name schema planted
  | .createIndex table column planted filing => TablesM.createIndex table column planted filing
  | .updateHeapHead name newHead => TablesM.updateHeapHead name newHead
  | .updateBtreeRoot name newRoot => TablesM.updateBtreeRoot name newRoot
  | .updateIndexRoot name column newRoot => TablesM.updateIndexRoot name column newRoot
  | .insertRow table row filing => do let _ ← TablesM.insertRow table row filing

/-- The table that the call is about. -/
def table : Request → Text
  | .createTable name _ _ => name
  | .createIndex table _ _ _ => table
  | .updateHeapHead name _ => name
  | .updateBtreeRoot name _ => name
  | .updateIndexRoot name _ _ => name
  | .insertRow table _ _ => table

/-- No column's name has a zero byte, and a root is one of a column's. -/
def Plain : Request → Prop
  | .createTable _ schema _ => ∀ c ∈ schema.columns, 0 ∉ c.name
  | .updateIndexRoot _ column _ => column < kCatalogMaxColumns
  | _ => True

instance : (request : Request) → Decidable request.Plain
  | .createTable _ schema _ => inferInstanceAs (Decidable (∀ c ∈ schema.columns, 0 ∉ c.name))
  | .updateIndexRoot _ column _ => inferInstanceAs (Decidable (column < kCatalogMaxColumns))
  | .createIndex .. | .updateHeapHead .. | .updateBtreeRoot .. | .insertRow .. =>
    inferInstanceAs (Decidable True)

end Request

variable {request : Request} {requests : List Request}

private theorem since_self (lists : Lists p tables) : Since tables name p tables :=
  ⟨lists, rfl, fun _ _ here _ => here⟩

private theorem TablesM.createTable_keeps {schema : Schema} {planted : Codec PageId} {slot : Nat}
    {d : RawDesc} (here : tables[slot]? = some d) :
    ((TablesM.createTable name schema planted).leaves tables)[slot]? = some d := by
  unfold TablesM.createTable Stateful.leaves
  rw [Stateful.runOn_get_bind]
  apply ends_checked (fun ended => ended.2[slot]? = some d) fun _ => here
  intro _
  apply ends_checked (fun ended => ended.2[slot]? = some d) fun _ => here
  intro _
  apply ends_checked (fun ended => ended.2[slot]? = some d) fun _ => here
  intro broot
  apply ends_checked (fun ended => ended.2[slot]? = some d) fun _ => here
  exact fun _ => (List.getElem?_append_left (List.getElem?_eq_some_iff.mp here).1).trans here

/-- A table that is not created leaves the page as it is. -/
theorem createTable_refused {schema : Schema} {planted : Codec PageId} {fault : Fault} {q : Image}
    (refused : (createTable name schema planted).runOn p = (.error fault, q)) : q = p := by
  suffices kept : ∀ fault, ((createTable name schema planted).runOn p).1 = .error fault →
      ((createTable name schema planted).runOn p).2 = p by
    rw [refused] at kept
    exact kept fault rfl
  unfold createTable loadCatalogPage
  rw [Stateful.runOn_get_bind]
  have same : ∀ (fault fault' : Fault), Except.error (α := Unit) fault = .error fault' → p = p :=
    fun _ _ _ => rfl
  apply ends_checked (fun ended => ∀ fault, ended.1 = .error fault → ended.2 = p) same
  intro _
  apply ends_checked (fun ended => ∀ fault, ended.1 = .error fault → ended.2 = p) same
  intro _
  apply ends_checked (fun ended => ∀ fault, ended.1 = .error fault → ended.2 = p) same
  intro _
  apply ends_checked (fun ended => ∀ fault, ended.1 = .error fault → ended.2 = p) same
  intro q fault raised
  cases raised

private theorem ok_checked_iff {σ α β : Type} {codec : Codec α} {next : α → Stateful Fault σ β}
    {memory : σ} {value : β} : ((checked codec >>= next).runOn memory).1 = .ok value ↔
      ∃ checked_, codec = .ok checked_ ∧ ((next checked_).runOn memory).1 = .ok value := by
  cases codec with
  | ok checked_ =>
    constructor
    · exact fun ended => ⟨checked_, rfl, ended⟩
    · rintro ⟨_, ⟨rfl⟩, ended⟩
      exact ended
  | error fault =>
    constructor
    · intro ended
      cases ended
    · rintro ⟨_, ⟨⟩, _⟩

theorem checkThat_ok_iff {passes : Prop} [Decidable passes] {message : Text} {value : Unit} :
    checkThat passes message = .ok value ↔ passes :=
  ⟨passes_of_checkThat, fun holds => checkThat_true (decide_eq_true holds) message⟩

/-- When a table is created. -/
theorem TablesM.createTable_ok_iff {schema : Schema} {broot : PageId} :
    ((TablesM.createTable name schema (.ok broot)).runOn tables).1 = .ok () ↔
      (∀ d ∈ tables, d.name ≠ name) ∧ tables.length < 17 ∧ name.length ≤ 32 ∧
        schema.columns.length ≤ 8 ∧ ∀ c ∈ schema.columns, c.name.length ≤ 16 := by
  have ends : ∀ next : List RawDesc, ((set next : TablesM Unit).runOn tables).1 = .ok () :=
    fun _ => rfl
  have fits_ : ∀ value, fits name schema = .ok value ↔ name.length ≤ 32 ∧
      schema.columns.length ≤ 8 ∧ ∀ c ∈ schema.columns, c.name.length ≤ 16 := fun _ => fits_ok_iff
  unfold TablesM.createTable
  rw [Stateful.runOn_get_bind]
  simp only [ok_checked_iff, checkThat_ok_iff, exists_const, Except.ok.injEq, fits_, ends, and_true,
    exists_eq_left']
  rfl

/-- A call ends on the page as it does on the tables, and touches no table but its own. -/
theorem request_follows (plain : request.Plain) (lists : Lists p tables) :
    Stateful.Alike Lists Lists (request.program.runOn p) (request.spec.runOn tables) ∧
      ∀ (slot : Nat) d, tables[slot]? = some d → d.name ≠ request.table →
        (request.spec.leaves tables)[slot]? = some d := by
  have followed : ∀ {program : CatalogM Unit} {spec : TablesM Unit},
      Follows tables request.table program spec →
        Stateful.Alike Lists Lists (program.runOn p) (spec.runOn tables) ∧
          ∀ (slot : Nat) d, tables[slot]? = some d → d.name ≠ request.table →
            (spec.leaves tables)[slot]? = some d := by
    intro program spec follows
    constructor
    · exact follows.mono (fun _ _ since => since.lists) (fun _ _ since => since.lists) p tables
        (since_self lists)
    · exact fun slot d here differ => (follows.leaves (since_self lists)).others slot d here differ
  cases request with
  | createTable name schema planted =>
    exact ⟨follows_createTable plain p tables lists, fun slot d here _ =>
      TablesM.createTable_keeps here⟩
  | createIndex table column planted filing => exact followed follows_createIndex
  | updateHeapHead name newHead => exact followed (follows_updateHeapHead newHead)
  | updateBtreeRoot name newRoot => exact followed (follows_updateBtreeRoot newRoot)
  | updateIndexRoot name column newRoot => exact followed (follows_updateIndexRoot plain newRoot)
  | insertRow table row filing =>
    exact followed (follows_insertRow.bind fun _ => .pure ())

/-- The page after calls; one that raises an exception leaves it to the next. -/
def runRequests (requests : List Request) (p : Image) : Image :=
  requests.foldl (fun p request => request.program.leaves p) p

/-- What the calls recorded, table by table. -/
def recorded (requests : List Request) : List RawDesc :=
  requests.foldl (fun tables request => request.spec.leaves tables) []

theorem lists_construct (p : Image) (id : PageId) : Lists (construct p id) [] where
  count := by
    rw [construct, slotCount, setSlotCount, Memory.load16_store16]
    rfl
  room := by decide
  names := List.nodup_nil
  holds := by
    intro slot d here
    rw [List.getElem?_nil] at here
    cases here

private theorem lists_run (plain : ∀ request ∈ requests, request.Plain) (lists : Lists p tables) :
    Lists (runRequests requests p)
      (requests.foldl (fun tables request => request.spec.leaves tables) tables) := by
  induction requests generalizing p tables with
  | nil => exact lists
  | cons request rest ih =>
    apply ih fun other member => plain other (List.mem_cons_of_mem _ member)
    exact (request_follows (plain request List.mem_cons_self) lists).1.leaves

/-- A number or a page of one table that is rewritten in place. -/
inductive Update where
  | heapHead (newHead : PageId)
  | btreeRoot (newRoot : PageId)
  | indexRoot (column : Nat) (newRoot : PageId)
  | rows

namespace Update

/-- The update of the table of that name, in that slot. -/
def program (name : Text) (slot : Nat) : Update → CatalogM Unit
  | .heapHead newHead => updateHeapHead name newHead
  | .btreeRoot newRoot => updateBtreeRoot name newRoot
  | .indexRoot column newRoot => updateIndexRoot name column newRoot
  | .rows => countRow slot

def change (d : RawDesc) : Update → RawDesc
  | .heapHead newHead => { d with heapHead := newHead, heapPages := d.heapPages + 1 }
  | .btreeRoot newRoot => { d with btreeRoot := newRoot }
  | .indexRoot column newRoot => { d with indexRoots := d.indexRoots.set column newRoot }
  | .rows => { d with rows := d.rows + 1 }

def Plain : Update → Prop
  | .indexRoot column _ => column < kCatalogMaxColumns
  | _ => True

end Update

/-- The page describes the tables and nothing else, and what the next call does to it. -/
structure Describes (page : Image) (tables : List RawDesc) : Prop where
  count : (slotCount page).toNat = tables.length
  read : ∀ (slot : Nat) d, tables[slot]? = some d → readDesc page slot = .ok d
  find : ∀ name slot, findSlot page name = some slot ↔ ∃ d, tables[slot]? = some d ∧ d.name = name
  once : (tables.map (·.name)).Nodup
  /-- An update changes that field of that table. -/
  update : ∀ (update : Update) (name : Text) (slot : Nat) (d : RawDesc), update.Plain →
    tables[slot]? = some d → d.name = name →
    ∃ page', (update.program name slot).runOn page = (.ok (), page') ∧
      slotCount page' = slotCount page ∧ readDesc page' slot = .ok (update.change d) ∧
      ∀ (other : Nat) d', tables[other]? = some d' → other ≠ slot → readDesc page' other = .ok d'
  /-- No call touches another table than its own. -/
  others : ∀ (request : Request) (slot : Nat) (d : RawDesc), request.Plain →
    tables[slot]? = some d → d.name ≠ request.table →
    readDesc (request.program.leaves page) slot = .ok d
  refused : ∀ name schema planted fault page',
    (createTable name schema planted).runOn page = (.error fault, page') → page' = page
  created : ∀ name schema broot, (∀ c ∈ schema.columns, 0 ∉ c.name) →
    (((createTable name schema (.ok broot)).runOn page).1 = .ok () ↔
      (∀ d ∈ tables, d.name ≠ name) ∧ tables.length < 17 ∧ name.length ≤ 32 ∧
        schema.columns.length ≤ 8 ∧ ∀ c ∈ schema.columns, c.name.length ≤ 16)

theorem Lists.updated {slot : Nat} {d : RawDesc} {write : Image → Nat → Image}
    {update : RawDesc → RawDesc} (lists : Lists p tables) (writes : Writes write update)
    (here : tables[slot]? = some d) :
    slotCount (write p slot) = slotCount p ∧
      Catalog.readDesc (write p slot) slot = .ok (update d) ∧
      ∀ (other : Nat) d', tables[other]? = some d' → other ≠ slot →
        Catalog.readDesc (write p slot) other = .ok d' := by
  have found := lists.findSlot_iff.mpr ⟨d, here, rfl⟩
  have changed_ := lists.changed writes found
  refine ⟨?_, ?_, fun other d' there apart => ?_⟩
  · apply slotCount_congr
    exact fun i low => writes.outside p slot i (.inl (by rw [slotAt_eq]; omega))
  · apply changed_.readDesc
    rw [Catalog.changed, List.getElem?_map, here, Option.map_some, if_pos rfl]
  · apply changed_.readDesc
    have differ : d'.name ≠ d.name := fun same => apart (lists.same_slot there here same)
    rw [Catalog.changed, List.getElem?_map, there, Option.map_some, if_neg differ]

private theorem Lists.describes (lists : Lists p tables) : Describes p tables where
  count := lists.count
  read := fun _ _ here => lists.readDesc here
  find := fun _ _ => lists.findSlot_iff
  once := lists.names
  update := by
    intro update name slot d plain here same
    have found := lists.findSlot_iff.mpr ⟨d, here, same⟩
    have ran : ∀ message write,
        (updateSlot name message write).runOn p = (.ok (), write p slot) := by
      intro message write
      unfold updateSlot loadCatalogPage
      rw [Stateful.runOn_get_bind, found]
      rfl
    cases update with
    | heapHead newHead =>
      have updated := lists.updated (writes_heapHead newHead) here
      exact ⟨_, ran _ _, updated⟩
    | btreeRoot newRoot =>
      have updated := lists.updated (writes_btreeRoot newRoot) here
      exact ⟨_, ran _ _, updated⟩
    | indexRoot column newRoot =>
      have updated := lists.updated (writes_indexRoot plain newRoot) here
      exact ⟨_, ran _ _, updated⟩
    | rows =>
      have updated := lists.updated writes_rows here
      exact ⟨_, rfl, updated⟩
  others := by
    intro request slot d plain here differ
    have followed := request_follows plain lists
    exact followed.1.leaves.readDesc (followed.2 slot d here differ)
  refused := fun _ _ _ _ _ => createTable_refused
  created := by
    intro name schema broot plain
    have ended := @follows_createTable name schema (.ok broot) plain p tables lists
    rw [ended.same]
    exact TablesM.createTable_ok_iff

/-- No name that the lexer reads has a zero byte. -/
theorem plain_identifier {fromChars : Text → Double} {text : Text} {tokens : List Sql.Token}
    {token : Sql.Token} (lexed : Sql.tokenize fromChars text = some (.ok tokens))
    (member : token ∈ tokens) (isName : token.type = .kIdentifier) : 0 ∉ token.text := by
  have readable := (Sql.tokenize_iff.mp lexed).readable token member (by rw [isName]; decide)
  intro zero
  exact absurd ((readable.name isName).1.cont 0 zero) (by decide)

/-- The page that any calls leave describes what they recorded; names are read off SQL text. -/
theorem catalog_directory (p : Image) (id : PageId)
    (plain : ∀ request ∈ requests, request.Plain) :
    Describes (runRequests requests (construct p id)) (recorded requests) ∧
      ∀ (fromChars : Text → Double) (text : Text) (tokens : List Sql.Token) (token : Sql.Token),
        Sql.tokenize fromChars text = some (.ok tokens) → token ∈ tokens →
        token.type = .kIdentifier → 0 ∉ token.text :=
  ⟨(lists_run plain (lists_construct p id)).describes, fun _ _ _ _ => plain_identifier⟩

/-- Two tables, an index, a row and tables that are refused, on a page of leftovers. -/
def twoTables : List Request :=
  let id : Column := { name := bytes "id", type := .kInt64, nullable := false }
  let text : Column := { name := bytes "a_name_of_16_byt", type := .kText }
  [.createTable (bytes "orders") ⟨[id, text]⟩ (.ok 3), .createTable (bytes "order") ⟨[id]⟩ (.ok 4),
    .createIndex (bytes "orders") 1 (.ok 5) { moves := [6] },
    .createTable (bytes "order") ⟨[id]⟩ (.ok 7),
    .createTable (bytes "wide") ⟨List.replicate 9 id⟩ (.ok 8),
    .insertRow (bytes "orders")
      [{ type := .kInt64, i64 := 1 }, { type := .kText, text := bytes "x" }]
      { heap := { moves := [9] }, index := fun _ => { moves := [10] } },
    .updateBtreeRoot (bytes "order") 11]

theorem catalog_directory_two :
    Describes (runRequests twoTables (construct (fun _ => 170) 2)) (recorded twoTables) ∧
      (recorded twoTables).map (fun d => (d.heapHead, d.btreeRoot, d.rows, d.indexRoots)) =
        [(9, 3, 1, [0, 10]), (0, 11, 0, [0])] :=
  ⟨(catalog_directory (fun _ => 170) 2 (by decide)).1, by decide +kernel⟩

end Runs

end Labdb.Catalog
