import Labdb.Engine.Rows

/-! What `create_table` makes of the disk of a database. -/

namespace Labdb.Engine

open Labdb.BTree Labdb.Catalog Labdb.Data Labdb.Heap Labdb.Program Labdb.Query Labdb.Record

variable {d d' : Disk} {home root : PageNo} {new : List PageNo} {stores : List Listing} {name : Text}
  {schema : Schema} {alloc : Allocator} {p : Image}

/-- The disk of a new database: all that its catalog has is a page. -/
def fresh (home : PageNo) : Disk where
  nodes _ := .leaf {}
  records _ _ := 0
  used := [home]
  requests := 1
  catalog := Catalog.construct (fun _ => 0) home.toUInt32

theorem represents_fresh (real : home ≠ Storage.kNullPage) (small : home < 2 ^ 32) :
    Represents home (fresh home) [] := by
  refine ⟨[], ⟨lists_construct _ _, ?_, ⟨List.nodup_singleton _, ?_, ?_⟩, ?_⟩, rfl⟩
  · exact fun store never => absurd never List.not_mem_nil
  · exact fun id member => member
  · exact fun id member => List.mem_singleton.mp member ▸ real
  · exact fun id member => List.mem_singleton.mp member ▸ small

/-- Fresh pages of no table. -/
theorem Consistent.planted (consistent : Consistent d home stores) (takes : Takes d [] d' new)
    (catalog : d'.catalog = d.catalog) (small : d'.Small) :
    Consistent d' home stores ∧
      Owns d' ((home :: stores.flatMap fun store => store.2.estate.pages) ++ new) := by
  have owns := consistent.owns
  have whole : Owns d ((home :: stores.flatMap fun store => store.2.estate.pages) ++ [] ++ []) := by
    rw [List.append_nil, List.append_nil]
    exact owns
  have between := (takes.between whole).owns whole
  rw [List.append_nil] at between
  refine ⟨⟨?_, ?_, between.sublist (List.sublist_append_left _ _), small⟩, between⟩
  · rw [catalog]
    exact consistent.lists
  · intro store member
    obtain ⟨i, here⟩ := List.getElem?_of_mem member
    have held := consistent.held store member
    have mine : Owns d store.2.estate.pages := (consistent.start here).owns
    exact ⟨held.parts.kept takes mine (List.disjoint_nil_right _), held.counted, held.unique⟩

/-- A table that was just created. -/
def freshListing (name : Text) (schema : Schema) (root : PageNo) : Listing :=
  (RawDesc.fresh name schema root.toUInt32,
    { estate := { heap := [], tree := [root], index := schema.columns.map fun _ => [] }, rows := [] })

private theorem freshListing_held (tree : TreeHolds d root [root] []) (small : root < 2 ^ 32) :
    Held d (freshListing name schema root).1 (freshListing name schema root).2 where
  parts := by
    constructor
    · exact HeapHolds.nil d
    · have same := toNat_toUInt32 small
      rw [freshListing, RawDesc.fresh, same]
      exact tree
    · intro c root' isRoot real
      have isNull : root' = kNullPage := by
        have member := List.mem_of_getElem? isRoot
        exact List.eq_of_mem_replicate member
      exact absurd isNull real
    · rfl
    · exact List.length_map _
    · have roots : (freshListing name schema root).1.indexRoots =
          List.replicate schema.columns.length kNullPage := rfl
      rw [roots, List.getD_eq_getElem?_getD, List.getElem?_replicate]
      split
      · rfl
      · rfl
    · exact fun e never => absurd never List.not_mem_nil
  counted := rfl
  unique := List.nodup_nil

private theorem freshListing_pages :
    (freshListing name schema root).2.estate.pages = [root] := by
  have none_ : (schema.columns.map fun _ => ([] : List PageNo)).flatten = [] := by
    rw [List.flatten_eq_nil_iff]
    intro ids member
    obtain ⟨_, -, rfl⟩ := List.mem_map.mp member
    rfl
  rw [freshListing, Estate.pages, none_]
  rfl

private theorem depicted_freshListing :
    depicted (freshListing name schema root) =
      { name, schema, indexed := schema.columns.map fun _ => false, rows := [] } := by
  have flags : indexed (List.replicate schema.columns.length kNullPage) =
      schema.columns.map fun _ => false := by
    rw [indexed, List.map_replicate, List.map_const']
    rfl
  rw [depicted, freshListing, RawDesc.fresh, flags]
  rfl

/-- No table has the name exactly if no slot has. -/
theorem Consistent.isNew (consistent : Consistent d home stores) (name : Text) :
    (findSlot d.catalog name).isNone = decide (∀ t ∈ stores.map depicted, t.name ≠ name) := by
  rcases listing_or_none stores name with ⟨slot, desc, h, here, rfl⟩ | absent
  · have found := (consistent.listed here).found
    rw [found]
    have known : ¬ ∀ t ∈ stores.map depicted, t.name ≠ desc.name := fun none_ =>
      none_ _ (List.mem_map_of_mem (List.mem_of_getElem? here)) rfl
    exact (decide_eq_false known).symm
  · have none_ : ∀ t ∈ stores.map depicted, t.name ≠ name := by
      intro t member
      obtain ⟨store, isStore, rfl⟩ := List.mem_map.mp member
      exact absent store.1 (List.mem_map_of_mem isStore)
    rw [decide_eq_true none_]
    cases found : findSlot d.catalog name with
    | none => rfl
    | some slot =>
      obtain ⟨desc, here, named⟩ := consistent.lists.findSlot_iff.mp found
      exact absurd named (absent desc (List.mem_of_getElem? here))

/-- The catalog describes the new table in the next slot. -/
theorem Consistent.appended (consistent : Consistent d home stores) (tree : TreeHolds d root [root] [])
    (owns : Owns d ((home :: stores.flatMap fun store => store.2.estate.pages) ++ [root]))
    (room : stores.length < kCatalogMaxTables) (new : ∀ store ∈ stores, store.1.name ≠ name)
    (holds : Holds p stores.length (.fresh name schema root.toUInt32))
    (outside : ∀ i, i < slotAt stores.length ∨ slotAt stores.length + 230 ≤ i → p i = d.catalog i) :
    Consistent { d with catalog := setSlotCount p (slotCount d.catalog + 1) } home
      (stores ++ [freshListing name schema root]) := by
  have length : (stores.map Prod.fst).length = stores.length := List.length_map _
  have small := consistent.small root (owns.used root (List.mem_append_right _ List.mem_cons_self))
  constructor
  · rw [List.map_append, List.map_singleton]
    apply consistent.lists.appended
    · rw [length]
      exact Nat.lt_of_lt_of_eq room (by decide)
    · intro desc isTable
      obtain ⟨store, member, rfl⟩ := List.mem_map.mp isTable
      exact new store member
    · rw [length]
      exact holds
    · rw [length]
      exact outside
  · intro store member
    have mine : Held d store.1 store.2 ∧ Owns d store.2.estate.pages := by
      rcases List.mem_append.mp member with old | last
      · obtain ⟨i, here⟩ := List.getElem?_of_mem old
        exact ⟨consistent.held store old, (consistent.start here).owns⟩
      · rw [List.mem_singleton.mp last, freshListing_pages]
        exact ⟨freshListing_held tree small, owns.sublist (List.sublist_append_right _ _)⟩
    exact ⟨mine.1.parts.withCatalog mine.2 _, mine.1.counted, mine.1.unique⟩
  · rw [List.flatMap_append, List.flatMap_singleton, freshListing_pages]
    exact ⟨owns.nodup, owns.used, owns.real⟩
  · exact consistent.small

/-- `create_table` on the disk adds a table to the database, or refuses it. -/
theorem createTable_refines {db : List Relation} (represents : Represents home d db)
    (plain : ∀ c ∈ schema.columns, 0 ∉ c.name)
    (fits_ : ((createTable alloc name schema).leaves d).Small) :
    Stateful.Alike (Represents home) (Represents home)
      ((createTable alloc name schema).runOn d) ((DatabaseM.createTable name schema).runOn db) := by
  obtain ⟨stores, consistent, rfl⟩ := represents
  have same : Represents home d (stores.map depicted) := ⟨stores, consistent, rfl⟩
  have loaded : loadCatalogPage.runOn d = (.ok d.catalog, d) := rfl
  have isNew := consistent.isNew name
  have count : (slotCount d.catalog).toNat = (stores.map depicted).length := by
    rw [consistent.lists.count, List.length_map, List.length_map]
  unfold createTable at fits_ ⊢
  unfold DatabaseM.createTable
  rw [Stateful.leaves_bind_ok loaded, isNew] at fits_
  rw [Stateful.runOn_bind_ok loaded, Stateful.runOn_get_bind, isNew]
  dsimp only at fits_ ⊢
  rw [count] at fits_ ⊢
  by_cases new : ∀ t ∈ stores.map depicted, t.name ≠ name
  · have check := checkThat_true (decide_eq_true new)
      (bytes "a table with this name already exists")
    rw [Stateful.leaves_bind_ok (runOn_checked_ok check _)] at fits_
    rw [Stateful.runOn_bind_ok (runOn_checked_ok check _),
      Stateful.runOn_bind_ok (runOn_checked_ok check _)]
    by_cases room : (stores.map depicted).length < kCatalogMaxTables
    · have check := checkThat_true (decide_eq_true room)
        (bytes "catalog page is full (one page limits table count)")
      rw [Stateful.leaves_bind_ok (runOn_checked_ok check _)] at fits_
      rw [Stateful.runOn_bind_ok (runOn_checked_ok check _),
        Stateful.runOn_bind_ok (runOn_checked_ok check _)]
      obtain ⟨d₁, root, planted, tree, -, takes, -, catalog⟩ := plantTree_spec alloc d
      rw [Stateful.leaves_bind_ok planted] at fits_
      rw [Stateful.runOn_bind_ok planted]
      have small : d₁.Small := by
        have climbs := @Grows.bind _ _ _ (fun p => saveCatalogPage (setSlotCount p (slotCount d.catalog + 1)))
          (grows_checked (writeDesc d.catalog (stores.map depicted).length name schema kNullPage
            root.toUInt32)) (fun _ => grows_onCatalog _)
        exact Disk.Small.of_subset fits_ (climbs d₁)
      obtain ⟨consistent₁, owns⟩ := consistent.planted takes catalog small
      have rootSmall := small root (takes.owned root List.mem_cons_self)
      cases fitting : fits name schema with
      | error fault =>
        rw [Stateful.runOn_bind_error (runOn_checked_error (writeDesc_error fitting _ _) _),
          Stateful.runOn_bind_error (runOn_checked_error rfl _)]
        exact .error fault ⟨stores, consistent₁, rfl⟩
      | ok value =>
        have ok : fits name schema = .ok () := fitting
        obtain ⟨q, wrote, holds, outside⟩ :=
          @writeDesc_ok d.catalog (stores.map depicted).length name schema ok plain root.toUInt32
        rw [Stateful.runOn_bind_ok (runOn_checked_ok wrote _),
          Stateful.runOn_bind_ok (runOn_checked_ok rfl _)]
        rw [List.length_map] at room holds outside
        have others : ∀ store ∈ stores, store.1.name ≠ name := fun store member =>
          new _ (List.mem_map_of_mem member)
        refine .ok () ⟨stores ++ [freshListing name schema root], ?_, ?_⟩
        · have appended := consistent₁.appended tree owns room others holds (catalog ▸ outside)
          rw [catalog] at appended
          exact appended
        · rw [List.map_append, List.map_singleton, depicted_freshListing]
    · have check := checkThat_false (decide_eq_false room)
        (bytes "catalog page is full (one page limits table count)")
      rw [Stateful.runOn_bind_error (runOn_checked_error check _),
        Stateful.runOn_bind_error (runOn_checked_error check _)]
      exact .error _ same
  · have check := checkThat_false (decide_eq_false new)
      (bytes "a table with this name already exists")
    rw [Stateful.runOn_bind_error (runOn_checked_error check _),
      Stateful.runOn_bind_error (runOn_checked_error check _)]
    exact .error _ same

end Labdb.Engine
