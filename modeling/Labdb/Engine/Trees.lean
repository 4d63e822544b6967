import Labdb.BTree.Sparse
import Labdb.Engine.Pages

/-! The trees of a database on its pages: what one holds, and what an insert makes of that while
the others' pages stay. -/

namespace Labdb.Engine

open Labdb.BTree Labdb.Catalog Labdb.Data Labdb.Heap Labdb.Program Labdb.Query Labdb.Record

variable {d d' : Disk} {root id : PageNo} {ids : List PageNo} {entries : List (Key × Value)}
  {h : Nat}

section Congr

variable {unique : Bool} {s s' : Store} {t : BTree.Tree h} {leaves : List LeafTree}

theorem Standing.congr (standing : Standing s [t]) (same : ∀ id ∈ t.ids, s'.nodes id = s.nodes id)
    (used : ∀ id ∈ t.ids, id ∈ s'.used) : Standing s' [t] where
  stored other member := by
    obtain rfl := List.mem_singleton.mp member
    exact (standing.stored other member).of_same same
  nodup := standing.nodup
  owned id member := by
    rw [idsOf_one] at member
    exact used id member

theorem Tenant.congr (tenant : Tenant unique s t) (same : ∀ id ∈ t.ids, s'.nodes id = s.nodes id)
    (used : ∀ id ∈ t.ids, id ∈ s'.used) (root : s'.root = s.root) : Tenant unique s' t where
  standing := Standing.congr tenant.standing same used
  root := root.trans tenant.root
  sound := tenant.sound
  branches := tenant.branches
  inOrder := tenant.inOrder
  linked := tenant.linked
  real := tenant.real

theorem Chained.congr (chained : Chained s t leaves)
    (same : ∀ id ∈ t.ids, s'.nodes id = s.nodes id) (used : ∀ id ∈ t.ids, id ∈ s'.used)
    (root : s'.root = s.root) : Chained s' t leaves where
  standing := Standing.congr chained.standing same used
  root := root.trans chained.root
  fits := chained.fits
  linked := chained.linked
  leaves := chained.leaves
  starts := chained.starts
  real := chained.real

end Congr

/-- The tree at the root, with keys that are unique: its pages, and its entries in any order. -/
def TreeHolds (d : Disk) (root : PageNo) (ids : List PageNo) (entries : List (Key × Value)) : Prop :=
  ∃ h : Nat, ∃ t : BTree.Tree h, Tenant true (d.view root) t ∧ t.ids = ids ∧ (entriesOf t.items).Perm entries

/-- The index at the root: its pages, and the entries along the chain of its leaves. As long as they
are too few for a tie, their keys are in order. -/
def IndexHolds (d : Disk) (root : PageNo) (ids : List PageNo) (entries : List (Key × Value)) : Prop :=
  ∃ h : Nat, ∃ t : BTree.Tree h, ∃ leaves, Chained (d.view root) t leaves ∧ t.ids = ids ∧
    (entriesIn leaves).Perm entries ∧
    (entries.length ≤ kTieFreeEntries → Tenant false (d.view root) t ∧ leaves = t.leaves)

theorem TreeHolds.congr (holds : TreeHolds d root ids entries)
    (same : ∀ id ∈ ids, d'.nodes id = d.nodes id) (used : ∀ id ∈ ids, id ∈ d'.used) :
    TreeHolds d' root ids entries := by
  obtain ⟨h, t, tenant, rfl, perm⟩ := holds
  exact ⟨h, t, Tenant.congr tenant same used rfl, rfl, perm⟩

theorem IndexHolds.congr (holds : IndexHolds d root ids entries)
    (same : ∀ id ∈ ids, d'.nodes id = d.nodes id) (used : ∀ id ∈ ids, id ∈ d'.used) :
    IndexHolds d' root ids entries := by
  obtain ⟨h, t, leaves, chained, rfl, perm, sparse⟩ := holds
  refine ⟨h, t, leaves, Chained.congr chained same used rfl, rfl, perm, fun few => ?_⟩
  obtain ⟨tenant, inOrder⟩ := sparse few
  exact ⟨Tenant.congr tenant same used rfl, inOrder⟩

theorem IndexHolds.reorder {entries' : List (Key × Value)} (holds : IndexHolds d root ids entries)
    (same : entries.Perm entries') : IndexHolds d root ids entries' := by
  obtain ⟨h, t, leaves, chained, isIds, perm, sparse⟩ := holds
  exact ⟨h, t, leaves, chained, isIds, perm.trans same, fun few => sparse (same.length_eq ▸ few)⟩

theorem TreeHolds.owns (holds : TreeHolds d root ids entries) : Owns d ids := by
  obtain ⟨h, t, tenant, rfl, -⟩ := holds
  have nodup := tenant.standing.nodup
  have owned := tenant.standing.owned
  rw [idsOf_one] at nodup owned
  exact ⟨nodup, owned, tenant.real⟩

theorem IndexHolds.owns (holds : IndexHolds d root ids entries) : Owns d ids := by
  obtain ⟨h, t, leaves, chained, rfl, -, -⟩ := holds
  have nodup := chained.standing.nodup
  have owned := chained.standing.owned
  rw [idsOf_one] at nodup owned
  exact ⟨nodup, owned, chained.real⟩

theorem Tree.root_mem {t : BTree.Tree h} : t.id ∈ t.ids := by
  cases h with
  | zero => exact List.mem_singleton.mpr rfl
  | succ h => exact List.mem_cons_self

theorem TreeHolds.root_mem (holds : TreeHolds d root ids entries) : root ∈ ids := by
  obtain ⟨h, t, tenant, rfl, -⟩ := holds
  have root_ : root = t.id := tenant.root
  exact root_ ▸ Tree.root_mem

theorem IndexHolds.root_mem (holds : IndexHolds d root ids entries) : root ∈ ids := by
  obtain ⟨h, t, leaves, chained, rfl, -, -⟩ := holds
  have root_ : root = t.id := chained.root
  exact root_ ▸ Tree.root_mem

section Operations

variable {α : Type} {alloc : Allocator} {onRootChanged : PageNo → DiskM Unit} {told : PageNo → Image}
  {operation : TreeM α} {value : α} {s' : Store} {key : Key} {v : Value}

/-- How the disk has changed with an operation of a tree: the root is where it was, or the owner was
told where it is. -/
structure Moved (d : Disk) (root : PageNo) (ids : List PageNo) (told : PageNo → Image) (d' : Disk)
    (root' : PageNo) (ids' : List PageNo) : Prop where
  takes : Takes d ids d' ids'
  records : d'.records = d.records
  told : root' = root ∧ d'.catalog = d.catalog ∨ d'.catalog = told root'

/-- A tree that has regrown, and its owner. -/
theorem onTree_regrown {h' : Nat} {t : BTree.Tree h} {t' : BTree.Tree h'}
    (tells : ∀ d' : Disk, d'.catalog = d.catalog → ∀ id,
      (onRootChanged id).runOn d' = (.ok (), { d' with catalog := told id }))
    (grows : TreeGrows operation) (ran : operation (d.view root) = some (value, s'))
    (regrown : Regrown (d.view root) t s' t') :
    ∃ d', (onTree root onRootChanged operation).runOn d = (.ok value, d') ∧
      d'.nodes = s'.nodes ∧ d'.used = s'.used ∧ Moved d root t.ids told d' s'.root t'.ids := by
  have replaced := regrown.housed.replaced
  rw [idsOf_one, idsOf_one] at replaced
  have takes : Takes d t.ids (d.take s') t'.ids :=
    @Takes.of_replaced d t.ids t'.ids (s'.unmoved (d.view root)) root replaced (grows _ _ _ ran)
  rcases regrown.reported with ⟨stayed, silent⟩ | spoke
  · refine ⟨d.take s', ?_, rfl, rfl, takes, rfl, .inl ⟨stayed, rfl⟩⟩
    rw [runOn_onTree ran, silent]
    rfl
  · have one : s'.reported = [s'.root] := spoke
    refine ⟨{ d.take s' with catalog := told s'.root }, ?_, rfl, rfl, takes.withCatalog _, rfl, .inr rfl⟩
    have tell := tells (d.take s') rfl s'.root
    have silent : ([].forM onRootChanged : DiskM Unit).runOn { d.take s' with catalog := told s'.root } =
        (.ok (), { d.take s' with catalog := told s'.root }) := rfl
    rw [runOn_onTree ran, one]
    have both : ([s'.root].forM onRootChanged).runOn (d.take s') =
        (.ok (), { d.take s' with catalog := told s'.root }) := by
      rw [List.forM_eq_forM, List.forM_cons, Stateful.runOn_bind_ok tell]
      exact silent
    rw [Stateful.runOn_bind_ok both]
    rfl

/-- An entry for a tree of unique keys: it is added, or its key is there already. -/
theorem TreeHolds.insertNew (holds : TreeHolds d root ids entries)
    (tells : ∀ d' : Disk, d'.catalog = d.catalog → ∀ id,
      (onRootChanged id).runOn d' = (.ok (), { d' with catalog := told id })) (key : Key) (v : Value) :
    ∃ inserted d' root' ids',
      (onTree root onRootChanged (insertNew alloc true key v)).runOn d = (.ok inserted, d') ∧
      Moved d root ids told d' root' ids' ∧
      (inserted = true ∧ TreeHolds d' root' ids' (entries ++ [(key, v)]) ∧
          (∀ e ∈ entries, e.1 ≠ key) ∨
        inserted = false ∧ TreeHolds d' root' ids' entries ∧ ∃ e ∈ entries, e.1 = key) := by
  obtain ⟨h, t, tenant, rfl, perm⟩ := holds
  obtain ⟨inserted, s', h', t', ran, tenant', regrown, entered⟩ :=
    @insertWith_among alloc true false key v h _ t tenant (.inl rfl)
  obtain ⟨d', ran', nodes, used, moved⟩ := onTree_regrown tells treeGrows_insertWith ran regrown
  have held : Tenant true (d'.view s'.root) t' := by
    have owned := tenant'.standing.owned
    rw [idsOf_one] at owned
    exact Tenant.congr tenant' (fun _ _ => congrFun nodes _)
      (fun id member => (congrArg (id ∈ ·) used).mpr (owned id member)) rfl
  refine ⟨inserted, d', s'.root, t'.ids, ran', moved, ?_⟩
  have strict := tenant'.inOrder.entries
  generalize isOld : entriesOf t.items = old at entered perm
  generalize isNew : entriesOf t'.items = new at entered strict
  cases entered with
  | added front back above =>
    left
    refine ⟨rfl, ⟨h', t', held, rfl, ?_⟩, fun e member same => ?_⟩
    · rw [isNew]
      exact (List.perm_middle.trans (perm.cons _)).trans (List.perm_append_singleton _ _).symm
    · obtain ⟨-, later, across⟩ := List.pairwise_append.mp strict
      rcases List.mem_append.mp (perm.mem_iff.mpr member) with inFront | inBack
      · have less : e.1 < key := across e inFront _ List.mem_cons_self
        exact Std.lt_irrefl (same ▸ less)
      · have less : key < e.1 := (List.pairwise_cons.mp later).1 e inBack
        exact Std.lt_irrefl (same ▸ less)
  | overwritten front back was known asked => cases asked
  | kept entries was known asked member =>
    right
    refine ⟨rfl, ⟨h', t', held, rfl, ?_⟩, _, perm.mem_iff.mp member, rfl⟩
    rw [isNew]
    exact perm

private theorem withRoot_apply {s : Store} (ran : operation s = some (value, s')) :
    withRoot operation s = some ((value, s'.root), s') := by
  simp [withRoot, ran]

/-- An entry goes into the tree of an index. -/
theorem IndexHolds.insertWith (holds : IndexHolds d root ids entries) (key : Key) (v : Value) :
    ∃ s' ids', ∃ h h' : Nat, ∃ t : BTree.Tree h, ∃ t' : BTree.Tree h', t.ids = ids ∧ t'.ids = ids' ∧
      BTree.insertWith alloc false key v true (d.view root) = some (true, s') ∧
      Regrown (d.view root) t s' t' ∧
      ∀ d' : Disk, d'.nodes = s'.nodes → d'.used = s'.used →
        IndexHolds d' s'.root ids' (entries ++ [(key, v)]) := by
  obtain ⟨h, t, leaves, chained, rfl, perm, sparse⟩ := holds
  have viewed : ∀ {d' : Disk} {s' : Store}, d'.nodes = s'.nodes → d'.used = s'.used →
      ∀ {h' : Nat} {t' : BTree.Tree h'}, Standing s' [t'] →
      (∀ id ∈ t'.ids, (d'.view s'.root).nodes id = s'.nodes id) ∧
        ∀ id ∈ t'.ids, id ∈ (d'.view s'.root).used := by
    intro d' s' nodes used h' t' standing
    refine ⟨fun _ _ => congrFun nodes _, fun id member => ?_⟩
    have owned := standing.owned
    rw [idsOf_one] at owned
    exact (congrArg (id ∈ ·) used).mpr (owned id member)
  by_cases few : (entries ++ [(key, v)]).length ≤ kTieFreeEntries
  · rw [List.length_append, List.length_singleton] at few
    obtain ⟨tenant, rfl⟩ := sparse (Nat.le_of_succ_le few)
    rw [← t.entries_leaves tenant.sound] at perm
    have free := tenant.tieFree (perm.length_eq ▸ few) key
    obtain ⟨inserted, s', h', t', ran, tenant', regrown, entered⟩ :=
      @insertWith_among alloc false true key v h _ t tenant (.inr free)
    obtain ⟨rfl, grown⟩ := entered.duplicate
    refine ⟨s', t'.ids, h, h', t, t', rfl, rfl, ran, regrown, fun d' nodes used => ?_⟩
    obtain ⟨same, owned⟩ := viewed nodes used tenant'.standing
    have held := Tenant.congr tenant' same owned rfl
    refine ⟨h', t', t'.leaves, held.chained, rfl, ?_, fun _ => ⟨held, rfl⟩⟩
    rw [← t'.entries_leaves tenant'.sound]
    exact (grown.trans (perm.cons _)).trans (List.perm_append_singleton _ _).symm
  · obtain ⟨s', h', t', leaves', ran, chained', regrown, grown⟩ :=
      chained.insertWith alloc true key v
    refine ⟨s', t'.ids, h, h', t, t', rfl, rfl, ran, regrown, fun d' nodes used => ?_⟩
    obtain ⟨same, owned⟩ := viewed nodes used chained'.standing
    refine ⟨h', t', leaves', Chained.congr chained' same owned rfl, rfl, ?_, fun less =>
      absurd less few⟩
    exact (grown.trans (perm.cons _)).trans (List.perm_append_singleton _ _).symm

/-- An entry for an index. -/
theorem IndexHolds.file {table : Text} {column : Nat} {field : Field}
    (holds : IndexHolds d root ids entries)
    (tells : ∀ d' : Disk, d'.catalog = d.catalog → ∀ id : PageNo,
      (onCatalog (updateIndexRoot table column id.toUInt32)).runOn d' =
        (.ok (), { d' with catalog := told id })) :
    ∃ d' root' ids', (fileInIndex alloc table column root field v).runOn d = (.ok root', d') ∧
      Moved d root ids told d' root' ids' ∧
      IndexHolds d' root' ids' (entries ++ [(orderKey field, v)]) := by
  obtain ⟨s', ids', h, h', t, t', rfl, rfl, ran, regrown, held⟩ :=
    @IndexHolds.insertWith d root ids entries alloc holds (orderKey field) v
  obtain ⟨d', ran', nodes, used, moved⟩ :=
    onTree_regrown tells treeGrows_insertWith.withRoot (withRoot_apply ran) regrown
  refine ⟨d', s'.root, t'.ids, ?_, moved, held d' nodes used⟩
  unfold fileInIndex
  exact Stateful.runOn_bind_ok ran'

/-- A tree that is planted is empty, and so is an index. -/
theorem plantTree_spec (alloc : Allocator) (d : Disk) :
    ∃ d' root, (plantTree alloc).runOn d = (.ok root, d') ∧ TreeHolds d' root [root] [] ∧
      IndexHolds d' root [root] [] ∧ Takes d [] d' [root] ∧ d'.records = d.records ∧
      d'.catalog = d.catalog := by
  have unused := alloc.unused d.requests d.used
  have real := alloc.real d.requests d.used
  generalize isNew : alloc.pick d.requests d.used = id at unused real
  let d' : Disk := { d with
    nodes := Function.update d.nodes id (.leaf {})
    used := id :: d.used
    requests := d.requests + 1 }
  have planted : (plantTree alloc).runOn d = (.ok id, d') := by
    subst isNew
    rfl
  have tenant : ∀ unique, Tenant unique (d'.view id) (Tree.ofLeaf id {}) := by
    intro unique
    refine ⟨⟨?_, List.nodup_singleton _, ?_⟩, rfl, Nat.zero_le _, ?_, List.Pairwise.nil,
      ⟨rfl, trivial⟩, ?_⟩
    · intro t member
      obtain rfl := List.mem_singleton.mp member
      exact Function.update_self _ _ _
    · intro other member
      rw [idsOf_one] at member
      exact List.mem_singleton.mp member ▸ List.mem_cons_self
    · exact fun never => absurd never (Nat.lt_irrefl 0)
    · exact fun other member => List.mem_singleton.mp member ▸ real
  refine ⟨d', id, planted, ⟨0, _, tenant true, rfl, List.Perm.refl _⟩, ?_, ?_, rfl, rfl⟩
  · have held := tenant false
    exact ⟨0, _, _, held.chained, rfl, List.Perm.refl _, fun _ => ⟨held, rfl⟩⟩
  · constructor
    · exact List.nodup_singleton _
    · exact fun other member => List.mem_singleton.mp member ▸ List.mem_cons_self
    · exact fun other member => .inr (List.mem_singleton.mp member ▸ ⟨unused, real⟩)
    · exact fun other used => List.mem_cons_of_mem _ used
    · intro other used _
      have apart : other ≠ id := by
        rintro rfl
        exact unused used
      exact Function.update_of_ne apart _ _
    · exact fun _ _ _ => rfl

end Operations

end Labdb.Engine
