import Labdb.Engine.Tables

/-! A row is filed: in the heap of its table, then in the table's tree, then in the index of each
column in which it is not NULL. Each step leaves the parts of the table in order. -/

namespace Labdb.Engine

open Labdb.BTree Labdb.Catalog Labdb.Data Labdb.Heap Labdb.Program Labdb.Query Labdb.Record

variable {d₀ d d' : Disk} {tables : List RawDesc} {slot : Nat} {desc desc' : RawDesc}
  {g₀ g g' : Estate} {inHeap inTree : List (RID × Row)} {inIndex : Nat → List (RID × Row)}
  {left mid new right : List PageNo} {alloc : Allocator} {scratch : Memory} {row : Row}

/-- One table is worked on since `d₀`: only its description changes, and only its pages. -/
structure Working (d₀ : Disk) (tables : List RawDesc) (slot : Nat) (g₀ : Estate) (d : Disk)
    (desc : RawDesc) (g : Estate) : Prop where
  listed : Listed d.catalog (tables.set slot desc) slot desc
  takes : Takes d₀ g₀.pages d g.pages
  owns : Owns d g.pages

theorem Working.step (working : Working d₀ tables slot g₀ d desc g) (takes : Takes d mid d' new)
    (before : g.pages = left ++ mid ++ right) (after : g'.pages = left ++ new ++ right)
    (listed : Listed d'.catalog (tables.set slot desc') slot desc') :
    Working d₀ tables slot g₀ d' desc' g' := by
  have owns := working.owns
  rw [before] at owns
  have between := takes.between owns
  refine ⟨listed, working.takes.trans ?_, ?_⟩
  · rw [before, after]
    exact between
  · rw [after]
    exact between.owns owns

/-- Only the page of the catalog was written. -/
theorem Working.withCatalog {p : Image} (working : Working d₀ tables slot g₀ d desc g)
    (listed : Listed p (tables.set slot desc') slot desc') :
    Working d₀ tables slot g₀ { d with catalog := p } desc' g :=
  ⟨listed, working.takes.withCatalog p, working.owns.nodup, working.owns.used, working.owns.real⟩

theorem Owns.apart (owns : Owns d (left ++ mid ++ right)) :
    left.Disjoint mid ∧ right.Disjoint mid := by
  have nodup := owns.nodup
  rw [List.append_assoc] at nodup
  have tail := List.nodup_append.mp (List.nodup_append.mp nodup).2.1
  constructor
  · exact fun id inLeft inMid =>
      (List.nodup_append.mp nodup).2.2 id inLeft id (List.mem_append_left _ inMid) rfl
  · exact fun id inRight inMid => tail.2.2 id inMid id inRight rfl

/-- The description that an update leaves. -/
theorem Working.updated {write : Image → Nat → Image} {change : RawDesc → RawDesc}
    (working : Working d₀ tables slot g₀ d desc g) (writes : Writes write change) {message : Text}
    (told : d'.catalog = (updateSlot desc.name message write).leaves d.catalog) :
    Listed d'.catalog (tables.set slot (change desc)) slot (change desc) := by
  have updated := working.listed.update writes
  rw [List.set_set] at updated
  rw [told, Stateful.leaves_eq (working.listed.runOn_updateSlot message)]
  exact updated

/-- The row is filed in the heap. -/
theorem Working.fileInHeap (working : Working d₀ tables slot g₀ d desc g)
    (parts : Parts d desc g inHeap inTree inIndex) (fileable : Fileable desc.schema row)
    (small : d.Small)
    (fits : ((heapInsert alloc scratch (fun h => onCatalog (updateHeapHead desc.name h.toUInt32))
      desc.heapHead.toNat (recordOf desc.schema row)).leaves d).Small) :
    ∃ rid d' head pages g',
      (heapInsert alloc scratch (fun h => onCatalog (updateHeapHead desc.name h.toUInt32))
        desc.heapHead.toNat (recordOf desc.schema row)).runOn d = (.ok rid, d') ∧
      Working d₀ tables slot g₀ d' { desc with heapHead := head, heapPages := pages } g' ∧
      Parts d' { desc with heapHead := head, heapPages := pages } g' (inHeap ++ [(rid, row)]) inTree
        inIndex := by
  have owns := working.owns
  have split : g.pages = [] ++ g.heap ++ (g.tree ++ g.index.flatten) := by
    rw [Estate.pages, List.nil_append, List.append_assoc]
  rw [split] at owns
  have heapOwns : Owns d g.heap := owns.sublist (List.sublist_append_left _ _)
  have apart := owns.apart.2
  have tells : ∀ d' : Disk, d'.catalog = d.catalog → ∀ id : PageNo,
      (onCatalog (updateHeapHead desc.name id.toUInt32)).runOn d' = (.ok (),
        { d' with catalog := (updateHeapHead desc.name id.toUInt32).leaves d.catalog }) :=
    fun _ same _ => working.listed.tells _ same
  obtain ⟨rid, d', chain', ran, inserted⟩ := heapInsert_spec scratch parts.heap heapOwns small tells
    fileable.filled fileable.short fits
  rw [Stateful.leaves_eq ran] at fits
  have tree := parts.tree.kept inserted.takes fun id inTree inHeap =>
    apart (List.mem_append_left _ inTree) inHeap
  have index : ∀ (c : Nat) root, desc.indexRoots[c]? = some root → root ≠ kNullPage →
      ∃ ids, g.index[c]? = some ids ∧ IndexHolds d' root.toNat ids (columnEntries c (inIndex c)) := by
    intro c root isRoot real
    obtain ⟨ids, here, holds⟩ := parts.index c root isRoot real
    refine ⟨ids, here, holds.kept inserted.takes fun id isPage inHeap => ?_⟩
    have inFlat := List.mem_flatten.mpr ⟨ids, List.mem_of_getElem? here, isPage⟩
    exact apart (List.mem_append_right _ inFlat) inHeap
  have filed : ∀ e ∈ inHeap ++ [(rid, row)], Fileable desc.schema e.2 := by
    intro e member
    rcases List.mem_append.mp member with old | last
    · exact parts.fileable e old
    · exact List.mem_singleton.mp last ▸ fileable
  have heap := inserted.holds
  have records : (inHeap.map fun e => (e.1, recordOf desc.schema e.2)) ++
      [(rid, recordOf desc.schema row)] =
        (inHeap ++ [(rid, row)]).map fun e => (e.1, recordOf desc.schema e.2) := by
    rw [List.map_append, List.map_singleton]
  rw [records] at heap
  have after : Estate.pages { g with heap := chain' } = [] ++ chain' ++ (g.tree ++ g.index.flatten) := by
    rw [Estate.pages, List.nil_append, List.append_assoc]
  rcases inserted.told with ⟨same, catalog⟩ | ⟨id, grown, catalog⟩
  · have listed : Listed d'.catalog (tables.set slot desc) slot desc := by
      rw [catalog]
      exact working.listed
    subst same
    refine ⟨rid, d', desc.heapHead, desc.heapPages, g, ran,
      working.step inserted.takes split split listed, ?_, tree, index, parts.pages, parts.spread,
      parts.keyRoot, filed⟩
    rw [parts.heap.starts] at heap
    exact heap
  · have isSmall : id < 2 ^ 32 := fits id (inserted.takes.owned id (grown ▸ List.mem_cons_self))
    have listed := working.updated (writes_heapHead id.toUInt32) catalog
    refine ⟨rid, d', id.toUInt32, desc.heapPages + 1, { g with heap := chain' }, ran,
      working.step inserted.takes split after listed, ?_, tree, index, ?_, parts.spread,
      parts.keyRoot, filed⟩
    · rw [grown, List.headD_cons] at heap
      rw [grown, toNat_toUInt32 isSmall]
      exact heap
    · rw [grown, List.length_cons, UInt32.ofNat_add, parts.pages]
      rfl

/-- The row is taken out of the heap again. -/
theorem Working.takeBack {rid : RID} (working : Working d₀ tables slot g₀ d desc g)
    (parts : Parts d desc g (inHeap ++ [(rid, row)]) inTree inIndex) :
    ∃ d', (heapErase rid).runOn d = (.ok true, d') ∧ Working d₀ tables slot g₀ d' desc g ∧
      Parts d' desc g inHeap inTree inIndex := by
  have owns := working.owns
  have split : g.pages = [] ++ g.heap ++ (g.tree ++ g.index.flatten) := by
    rw [Estate.pages, List.nil_append, List.append_assoc]
  rw [split] at owns
  have heapOwns : Owns d g.heap := owns.sublist (List.sublist_append_left _ _)
  have heap := parts.heap
  rw [List.map_append, List.map_singleton] at heap
  have member : (rid, recordOf desc.schema row) ∈
      (inHeap.map fun e => (e.1, recordOf desc.schema e.2)) ++ [(rid, recordOf desc.schema row)] :=
    List.mem_append_right _ List.mem_cons_self
  obtain ⟨q, ran, holds⟩ := heap.erase member
  have isPage : rid.page.toNat ∈ g.heap := heap.inside _ member
  have takes := (Takes.refl heapOwns).written isPage q
  refine ⟨d.put rid.page.toNat q, ran, working.step takes split split working.listed, ?_,
    parts.tree, parts.index, parts.pages, parts.spread, parts.keyRoot,
    fun e old => parts.fileable e (List.mem_append_left _ old)⟩
  have once := heap.once
  rw [List.map_append, List.map_map, List.nodup_append] at once
  have others : ∀ e ∈ inHeap, e.1 ≠ rid := fun e old =>
    once.2.2 e.1 (List.mem_map_of_mem old) rid List.mem_cons_self
  have left : ((inHeap.map fun e => (e.1, recordOf desc.schema e.2)) ++
      [(rid, recordOf desc.schema row)]).filter (fun e => e.1 ≠ rid) =
        inHeap.map fun e => (e.1, recordOf desc.schema e.2) := by
    rw [List.filter_append, List.filter_eq_self.mpr, List.filter_cons_of_neg, List.filter_nil,
      List.append_nil]
    · exact fun never => of_decide_eq_true never rfl
    · intro e isRecord
      obtain ⟨e, old, rfl⟩ := List.mem_map.mp isRecord
      exact decide_eq_true (others e old)
  rw [left] at holds
  exact holds

/-- The row's entry is put in the tree, unless its key is taken. -/
theorem Working.fileInTree (working : Working d₀ tables slot g₀ d desc g)
    (parts : Parts d desc g inHeap inTree inIndex) (rid : RID) (row : Row)
    (fits : ((onTree desc.btreeRoot.toNat (fun r => onCatalog (updateBtreeRoot desc.name r.toUInt32))
      (insertNew alloc true (tableKey (Row.at row 0).i64) (ridEncode rid))).leaves d).Small) :
    ∃ isNew d' root g',
      (onTree desc.btreeRoot.toNat (fun r => onCatalog (updateBtreeRoot desc.name r.toUInt32))
        (insertNew alloc true (tableKey (Row.at row 0).i64) (ridEncode rid))).runOn d =
          (.ok isNew, d') ∧
      Working d₀ tables slot g₀ d' { desc with btreeRoot := root } g' ∧
      (isNew = true ∧ Parts d' { desc with btreeRoot := root } g' inHeap (inTree ++ [(rid, row)])
            inIndex ∧ (∀ e ∈ inTree, (Row.at e.2 0).i64 ≠ (Row.at row 0).i64) ∨
        isNew = false ∧ Parts d' { desc with btreeRoot := root } g' inHeap inTree inIndex ∧
          ∃ e ∈ inTree, (Row.at e.2 0).i64 = (Row.at row 0).i64) := by
  have owns := working.owns
  have split : g.pages = g.heap ++ g.tree ++ g.index.flatten := rfl
  rw [split] at owns
  obtain ⟨heapApart, indexApart⟩ := owns.apart
  have heapOwns : Owns d g.heap :=
    owns.sublist ((List.sublist_append_left _ _).trans (List.sublist_append_left _ _))
  have tells : ∀ d' : Disk, d'.catalog = d.catalog → ∀ id : PageNo,
      (onCatalog (updateBtreeRoot desc.name id.toUInt32)).runOn d' = (.ok (),
        { d' with catalog := (updateBtreeRoot desc.name id.toUInt32).leaves d.catalog }) :=
    fun _ same _ => working.listed.tells _ same
  obtain ⟨isNew, d', root', ids', ran, moved, entered⟩ :=
    @TreeHolds.insertNew d _ g.tree _ alloc _ _ parts.tree tells (tableKey (Row.at row 0).i64)
      (ridEncode rid)
  rw [Stateful.leaves_eq ran] at fits
  have heap := parts.heap.kept moved.takes heapOwns heapApart
  have index : ∀ (c : Nat) root, desc.indexRoots[c]? = some root → root ≠ kNullPage →
      ∃ ids, g.index[c]? = some ids ∧ IndexHolds d' root.toNat ids (columnEntries c (inIndex c)) := by
    intro c root isRoot real
    obtain ⟨ids, here, holds⟩ := parts.index c root isRoot real
    refine ⟨ids, here, holds.kept moved.takes fun id isPage inTree => ?_⟩
    exact indexApart (List.mem_flatten.mpr ⟨ids, List.mem_of_getElem? here, isPage⟩) inTree
  have rootIn : root' ∈ ids' := by
    rcases entered with ⟨-, holds, -⟩ | ⟨-, holds, -⟩
    · exact holds.root_mem
    · exact holds.root_mem
  have rootSmall := fits root' (moved.takes.owned root' rootIn)
  have listed : Listed d'.catalog (tables.set slot { desc with btreeRoot := root'.toUInt32 }) slot
      { desc with btreeRoot := root'.toUInt32 } := by
    rcases moved.told with ⟨same, catalog⟩ | catalog
    · rw [catalog, same, show (desc.btreeRoot.toNat).toUInt32 = desc.btreeRoot from
        UInt32.ofNat_toNat]
      exact working.listed
    · exact working.updated (writes_btreeRoot root'.toUInt32) catalog
  have step : Working d₀ tables slot g₀ d' { desc with btreeRoot := root'.toUInt32 }
      { g with tree := ids' } := working.step moved.takes split rfl listed
  refine ⟨isNew, d', root'.toUInt32, { g with tree := ids' }, ran, step, ?_⟩
  rcases entered with ⟨new, holds, absent⟩ | ⟨known, holds, found⟩
  · left
    refine ⟨new, ⟨heap, ?_, index, parts.pages, parts.spread, parts.keyRoot, parts.fileable⟩, ?_⟩
    · rw [List.map_append, toNat_toUInt32 rootSmall]
      exact holds
    · intro e member same
      exact absent (keyEntry e) (List.mem_map_of_mem member) (congrArg tableKey same)
  · right
    refine ⟨known, ⟨heap, ?_, index, parts.pages, parts.spread, parts.keyRoot, parts.fileable⟩, ?_⟩
    · rw [toNat_toUInt32 rootSmall]
      exact holds
    · obtain ⟨entry, isEntry, same⟩ := found
      obtain ⟨e, member, rfl⟩ := List.mem_map.mp isEntry
      exact ⟨e, member, tableKey_inj.mp same⟩

/-- The row's entry is put in the index of a column. -/
theorem Working.fileInIndex (working : Working d₀ tables slot g₀ d desc g)
    (parts : Parts d desc g inHeap inTree inIndex) {c : Nat} {root : PageId} (rid : RID) (row : Row)
    (isRoot : desc.indexRoots[c]? = some root) (real : root ≠ kNullPage) (few : c < 8)
    (known : (Row.at row c).isNull = false)
    (fits : ((fileInIndex alloc desc.name c root.toNat (Row.at row c) (ridEncode rid)).leaves d).Small) :
    ∃ d' root' g',
      (Engine.fileInIndex alloc desc.name c root.toNat (Row.at row c) (ridEncode rid)).runOn d =
        (.ok root'.toNat, d') ∧
      root' ≠ kNullPage ∧ g'.tree = g.tree ∧
      (∀ id ∈ g.tree, d'.nodes id = d.nodes id ∧ id ∈ d'.used) ∧
      Working d₀ tables slot g₀ d' { desc with indexRoots := desc.indexRoots.set c root' } g' ∧
      Parts d' { desc with indexRoots := desc.indexRoots.set c root' } g' inHeap inTree
        (Function.update inIndex c (inIndex c ++ [(rid, row)])) := by
  obtain ⟨ids, here, holds⟩ := parts.index c root isRoot real
  have inside := (List.getElem?_eq_some_iff.mp here).1
  have rootInside := (List.getElem?_eq_some_iff.mp isRoot).1
  have owns := working.owns
  have split := Estate.pages_index here
  rw [split] at owns
  obtain ⟨leftApart, rightApart⟩ := owns.apart
  have tells : ∀ d' : Disk, d'.catalog = d.catalog → ∀ id : PageNo,
      (onCatalog (updateIndexRoot desc.name c id.toUInt32)).runOn d' = (.ok (),
        { d' with catalog := (updateIndexRoot desc.name c id.toUInt32).leaves d.catalog }) :=
    fun _ same _ => working.listed.tells _ same
  obtain ⟨d', root', ids', ran, moved, held⟩ :=
    @IndexHolds.file d _ ids _ alloc _ (ridEncode rid) desc.name c (Row.at row c) holds tells
  rw [Stateful.leaves_eq ran] at fits
  have rootSmall := fits root' (moved.takes.owned root' held.root_mem)
  have same := toNat_toUInt32 rootSmall
  have listed : Listed d'.catalog
      (tables.set slot { desc with indexRoots := desc.indexRoots.set c root'.toUInt32 }) slot
      { desc with indexRoots := desc.indexRoots.set c root'.toUInt32 } := by
    rcases moved.told with ⟨stayed, catalog⟩ | catalog
    · have unchanged : desc.indexRoots.set c root = desc.indexRoots := by
        obtain ⟨_, rfl⟩ := List.getElem?_eq_some_iff.mp isRoot
        exact List.set_getElem_self _
      rw [catalog, stayed, show (root.toNat).toUInt32 = root from UInt32.ofNat_toNat, unchanged]
      exact working.listed
    · exact working.updated (writes_indexRoot few root'.toUInt32) catalog
  have heapOwns : Owns d g.heap := working.owns.sublist
    ((List.sublist_append_left _ _).trans (List.sublist_append_left _ _))
  refine ⟨d', root'.toUInt32, { g with index := g.index.set c ids' }, ?_, ?_, rfl, ?_,
    working.step moved.takes split (Estate.pages_setIndex inside ids') listed, ?_, ?_, ?_,
    parts.pages, ?_, ?_, parts.fileable⟩
  · rw [same]
    exact ran
  · have isReal := (moved.takes.owns (holds.owns)).real root' held.root_mem
    intro zero
    rw [zero] at same
    exact isReal same.symm
  · obtain ⟨nodes, -, used⟩ := moved.takes.kept parts.tree.owns fun id inTree isPage =>
      leftApart (List.mem_append_left _ (List.mem_append_right _ inTree)) isPage
    exact fun id inTree => ⟨nodes id inTree, used id inTree⟩
  · apply parts.heap.kept moved.takes heapOwns
    intro id inHeap isPage
    exact leftApart (List.mem_append_left _ (List.mem_append_left _ inHeap)) isPage
  · apply parts.tree.kept moved.takes
    intro id inTree isPage
    exact leftApart (List.mem_append_left _ (List.mem_append_right _ inTree)) isPage
  · intro other root'' isRoot'' real''
    by_cases isIt : other = c
    · subst isIt
      rw [List.getElem?_set_self rootInside] at isRoot''
      obtain rfl := Option.some.inj isRoot''
      refine ⟨ids', List.getElem?_set_self inside, ?_⟩
      rw [same, Function.update_self, columnEntries_known known]
      exact held
    · have apart : c ≠ other := fun same => isIt same.symm
      rw [List.getElem?_set_ne apart] at isRoot''
      obtain ⟨ids'', here'', holds''⟩ := parts.index other root'' isRoot'' real''
      refine ⟨ids'', (List.getElem?_set_ne apart).trans here'', ?_⟩
      rw [Function.update_of_ne isIt]
      refine holds''.kept moved.takes fun id isPage inMid => ?_
      rcases Nat.lt_or_gt_of_ne isIt with before | behind
      · refine leftApart (List.mem_append_right _ (List.mem_flatten.mpr ⟨ids'', ?_, isPage⟩)) inMid
        exact List.mem_of_getElem? ((List.getElem?_take_of_lt before).trans here'')
      · refine rightApart (List.mem_flatten.mpr ⟨ids'', ?_, isPage⟩) inMid
        refine List.mem_of_getElem? ((@List.getElem?_drop _ g.index (c + 1) (other - (c + 1))).trans ?_)
        rw [Nat.add_sub_of_le behind]
        exact here''
  · exact List.length_set.trans parts.spread
  · have keyRoot := parts.keyRoot
    rw [List.getD_eq_getElem?_getD] at keyRoot ⊢
    cases c with
    | zero =>
      rw [isRoot] at keyRoot
      exact absurd keyRoot real
    | succ c =>
      rw [List.getElem?_set_ne (Nat.succ_ne_zero c)]
      exact keyRoot

/-- The row is filed in the indexes of some columns. -/
theorem Working.fileInIndexes {columns : List Nat} {roots : List PageId}
    (working : Working d₀ tables slot g₀ d desc g)
    (parts : Parts d desc g inHeap inTree inIndex) (rid : RID) (row : Row) (once : columns.Nodup)
    (few : ∀ c ∈ columns, c < 8) (same : ∀ c ∈ columns, desc.indexRoots[c]? = roots[c]?)
    (fits : ((fileInIndexes alloc desc.name roots row rid columns).leaves d).Small) :
    ∃ d' roots' g',
      (Engine.fileInIndexes alloc desc.name roots row rid columns).runOn d = (.ok (), d') ∧
      indexed roots' = indexed desc.indexRoots ∧
      Working d₀ tables slot g₀ d' { desc with indexRoots := roots' } g' ∧
      Parts d' { desc with indexRoots := roots' } g' inHeap inTree
        (fun c => if c ∈ columns then inIndex c ++ [(rid, row)] else inIndex c) := by
  induction columns generalizing d desc g inIndex with
  | nil =>
    refine ⟨d, desc.indexRoots, g, rfl, rfl, working, ?_⟩
    exact parts.reindex fun c _ _ _ => by rw [if_neg List.not_mem_nil]
  | cons c rest ih =>
    obtain ⟨notInRest, onceRest⟩ := List.nodup_cons.mp once
    have here := same c List.mem_cons_self
    have fewRest : ∀ other ∈ rest, other < 8 := fun other member =>
      few other (List.mem_cons_of_mem _ member)
    unfold Engine.fileInIndexes at fits ⊢
    by_cases skipped : roots.getD c kNullPage = kNullPage ∨ (Row.at row c).isNull = true
    · rw [if_pos skipped] at fits ⊢
      obtain ⟨d', roots', g', ran, flags, working', parts'⟩ := ih working parts onceRest fewRest
        (fun other member => same other (List.mem_cons_of_mem _ member)) fits
      refine ⟨d', roots', g', ran, flags, working', ?_⟩
      refine parts'.reindex fun other root isRoot real => ?_
      by_cases isIt : other = c
      · subst isIt
        rw [if_pos List.mem_cons_self, if_neg notInRest]
        rcases skipped with noRoot | null
        · obtain ⟨old, there, isReal⟩ := indexed_real flags isRoot real
          rw [here] at there
          rw [List.getD_eq_getElem?_getD, there] at noRoot
          exact absurd noRoot isReal
        · exact columnEntries_null null
      · have iff_ : other ∈ c :: rest ↔ other ∈ rest :=
          ⟨fun member => (List.mem_cons.mp member).resolve_left isIt, List.mem_cons_of_mem _⟩
        simp only [iff_]
    · rw [if_neg skipped] at fits ⊢
      obtain ⟨isRoot, known⟩ := not_or.mp skipped
      obtain ⟨root, there⟩ : ∃ root, roots[c]? = some root := by
        cases there : roots[c]? with
        | none =>
          rw [List.getD_eq_getElem?_getD, there] at isRoot
          exact absurd rfl isRoot
        | some root => exact ⟨root, rfl⟩
      have value : roots.getD c kNullPage = root := by
        rw [List.getD_eq_getElem?_getD, there]
        rfl
      rw [value] at isRoot fits ⊢
      rw [there] at here
      have first : ((Engine.fileInIndex alloc desc.name c root.toNat (Row.at row c)
          (ridEncode rid)).leaves d).Small :=
        Disk.Small.first (fun _ => grows_fileInIndexes _ _ _ _ _) fits
      obtain ⟨d₁, root', g₁, ran, real, -, -, working₁, parts₁⟩ := working.fileInIndex parts rid row
        here isRoot (few c List.mem_cons_self) (Bool.eq_false_iff.mpr known) first
      rw [Stateful.leaves_bind_ok ran] at fits
      rw [Stateful.runOn_bind_ok ran]
      obtain ⟨d', roots', g', ran', flags, working', parts'⟩ := ih working₁ parts₁ onceRest fewRest
        (fun other member => by
          have apart : c ≠ other := fun same => notInRest (same ▸ member)
          exact (List.getElem?_set_ne apart).trans (same other (List.mem_cons_of_mem _ member))) fits
      refine ⟨d', roots', g', ran', flags.trans (indexed_set here isRoot real), working', ?_⟩
      refine parts'.reindex fun other _ _ _ => ?_
      by_cases isIt : other = c
      · subst isIt
        rw [if_pos List.mem_cons_self, if_neg notInRest, Function.update_self]
      · have iff_ : other ∈ c :: rest ↔ other ∈ rest :=
          ⟨fun member => (List.mem_cons.mp member).resolve_left isIt, List.mem_cons_of_mem _⟩
        simp only [iff_, Function.update_of_ne isIt]

end Labdb.Engine
