import Labdb.Catalog.Layout

/-! The tables that the catalog page lists. Every call on the page is, on the list, the same
call on the one table of its name. -/

namespace Labdb.Catalog

open Labdb.Data Labdb.Heap Labdb.Program Labdb.Query Labdb.Record

variable {p q : Image} {tables : List RawDesc} {slot : Nat} {d : RawDesc} {name : Text}

/-- The page lists the tables, each in a slot of its own. -/
structure Lists (p : Image) (tables : List RawDesc) : Prop where
  count : (slotCount p).toNat = tables.length
  room : tables.length ≤ 17
  names : (tables.map (·.name)).Nodup
  holds : ∀ slot d, tables[slot]? = some d → Holds p slot d

theorem Lists.same_slot (lists : Lists p tables) {slot' : Nat} {d' : RawDesc}
    (here : tables[slot]? = some d) (there : tables[slot']? = some d') (same : d.name = d'.name) :
    slot = slot' := by
  have first : (tables.map (·.name))[slot]? = some d.name := by rw [List.getElem?_map, here]; rfl
  have second : (tables.map (·.name))[slot']? = some d.name := by
    rw [List.getElem?_map, there, same]
    rfl
  have inside := (List.getElem?_eq_some_iff.mp first).1
  exact (List.getElem?_inj inside lists.names).mp (first.trans second.symm)

/-- A slot's name is the one looked for: the length decides, and then the bytes. -/
theorem Holds.matches_iff (held : Holds p slot d) :
    ((p (slotAt slot + kCatalogMaxNameLen)).toNat = name.length ∧
      Memory.read p (slotAt slot) name.length = name) ↔ d.name = name := by
  have length : (p (slotAt slot + kCatalogMaxNameLen)).toNat = d.name.length := by
    rw [kCatalogMaxNameLen, held.length, toNat_length held.short (by omega)]
  rw [length]
  constructor
  · rintro ⟨same, read⟩
    rw [← same, held.name] at read
    exact read
  · rintro rfl
    exact ⟨rfl, held.name⟩

theorem Lists.findSlot_iff (lists : Lists p tables) :
    findSlot p name = some slot ↔ ∃ d, tables[slot]? = some d ∧ d.name = name := by
  unfold findSlot
  rw [List.find?_range_eq_some, lists.count]
  constructor
  · rintro ⟨hit, inside, -⟩
    have here := List.getElem?_eq_getElem (List.mem_range.mp inside)
    exact ⟨_, here, (lists.holds slot _ here).matches_iff.mp (of_decide_eq_true hit)⟩
  · rintro ⟨d, here, same⟩
    have inside := (List.getElem?_eq_some_iff.mp here).1
    refine ⟨decide_eq_true ((lists.holds slot d here).matches_iff.mpr same),
      List.mem_range.mpr inside, fun other before => ?_⟩
    have there := List.getElem?_eq_getElem (Nat.lt_trans before inside)
    refine Bool.not_eq_true' _ ▸ decide_eq_false fun hit => ?_
    have named := (lists.holds other _ there).matches_iff.mp hit
    have := lists.same_slot there here (named.trans same.symm)
    omega

theorem Lists.findSlot_none (lists : Lists p tables) (absent : findSlot p name = none) :
    ∀ d ∈ tables, d.name ≠ name := by
  intro d member same
  obtain ⟨slot, here⟩ := List.getElem?_of_mem member
  rw [lists.findSlot_iff.mpr ⟨d, here, same⟩] at absent
  cases absent

section Changes

variable {write : Image → Nat → Image} {update : RawDesc → RawDesc}

/-- A write to a slot changes its description so, and nothing else on the page. -/
structure Writes (write : Image → Nat → Image) (update : RawDesc → RawDesc) : Prop where
  holds : ∀ p slot d, Holds p slot d → Holds (write p slot) slot (update d)
  outside : ∀ p slot i, i < slotAt slot ∨ slotAt slot + 230 ≤ i → write p slot i = p i
  name : ∀ d, (update d).name = d.name

/-- The tables after a change to the one of that name. -/
def changed (name : Text) (update : RawDesc → RawDesc) (tables : List RawDesc) : List RawDesc :=
  tables.map fun d => if d.name = name then update d else d

theorem names_changed (keeps : ∀ d, (update d).name = d.name) :
    (changed name update tables).map (·.name) = tables.map (·.name) := by
  rw [changed, List.map_map]
  refine List.map_congr_left fun d _ => ?_
  rw [Function.comp_apply]
  split
  · exact keeps d
  · rfl

theorem slotCount_congr (same : ∀ i < 24, q i = p i) : slotCount q = slotCount p :=
  Memory.load16_congr (same 20 (by omega)) (same 21 (by omega))

theorem Lists.changed (lists : Lists p tables) (writes : Writes write update)
    (found : findSlot p name = some slot) :
    Lists (write p slot) (changed name update tables) where
  count := by
    have below : ∀ i < 24, write p slot i = p i := fun i low =>
      writes.outside p slot i (.inl (by rw [slotAt_eq]; omega))
    rw [slotCount_congr below, lists.count, Catalog.changed, List.length_map]
  room := by
    rw [Catalog.changed, List.length_map]
    exact lists.room
  names := (names_changed writes.name).symm ▸ lists.names
  holds := by
    intro other d isTable
    rw [Catalog.changed, List.getElem?_map] at isTable
    obtain ⟨old, there, rfl⟩ := Option.map_eq_some_iff.mp isTable
    obtain ⟨target, here, named⟩ := lists.findSlot_iff.mp found
    have held := lists.holds other old there
    split
    · rename_i same
      obtain rfl := lists.same_slot there here (same.trans named.symm)
      exact writes.holds p other old held
    · rename_i differ
      have apart : other ≠ slot := by
        rintro rfl
        rw [here] at there
        exact differ (Option.some.inj there ▸ named)
      refine held.congr fun i least most => writes.outside p slot i ?_
      rw [slotAt_eq] at least most ⊢
      omega

/-- A table of a new name, in the next slot. -/
theorem Lists.appended (lists : Lists p tables) (room : tables.length < 17)
    (new : ∀ d' ∈ tables, d'.name ≠ d.name) (held : Holds q tables.length d)
    (outside : ∀ i, i < slotAt tables.length ∨ slotAt tables.length + 230 ≤ i → q i = p i) :
    Lists (setSlotCount q (slotCount p + 1)) (tables ++ [d]) where
  count := by
    rw [slotCount, setSlotCount, Memory.load16_store16, UInt16.toNat_add, lists.count,
      List.length_append]
    exact Nat.mod_eq_of_lt (Nat.lt_of_le_of_lt (Nat.succ_le_succ lists.room) (by decide))
  room := by
    rw [List.length_append]
    exact room
  names := by
    rw [List.map_append]
    refine List.nodup_append.mpr ⟨lists.names, List.pairwise_singleton _ _, ?_⟩
    intro name member name' last same
    obtain ⟨d', isTable, rfl⟩ := List.mem_map.mp member
    exact new d' isTable (same.trans (List.mem_singleton.mp last))
  holds := by
    have kept : ∀ slot i, slotAt slot ≤ i → setSlotCount q (slotCount p + 1) i = q i := by
      intro slot i least
      rw [slotAt_eq] at least
      exact Memory.store16_outside (.inr (by rw [kCatalogCountOff, kPageHeaderSize]; omega))
    intro slot d' isTable
    rcases Nat.lt_or_ge slot tables.length with old | next
    · rw [List.getElem?_append_left old] at isTable
      refine (lists.holds slot d' isTable).congr fun i least most => ?_
      rw [kept slot i least]
      apply outside
      rw [slotAt_eq] at least most ⊢
      omega
    · rw [List.getElem?_append_right next] at isTable
      have last : slot = tables.length := by
        have inside := (List.getElem?_eq_some_iff.mp isTable).1
        rw [List.length_singleton] at inside
        omega
      subst last
      rw [Nat.sub_self] at isTable
      obtain rfl := Option.some.inj isTable
      exact held.congr fun i least _ => kept tables.length i least

private theorem slot_outside {value : UInt32} {at_ i : Nat} (least : slotAt slot ≤ at_)
    (most : at_ + 4 ≤ slotAt slot + 230) (out : i < slotAt slot ∨ slotAt slot + 230 ≤ i) :
    Memory.store32 p at_ value i = p i :=
  Memory.store32_outside (by omega)

theorem writes_heapHead (page : PageId) :
    Writes (fun p i => (p.store32 (slotAt i + 34) page).store32 (slotAt i + 50)
        ((p.store32 (slotAt i + 34) page).load32 (slotAt i + 50) + 1))
      fun d => { d with heapHead := page, heapPages := d.heapPages + 1 } where
  holds := by
    intro p slot d held
    have moved := held.withHeapHead page
    have pages : (p.store32 (slotAt slot + 34) page).load32 (slotAt slot + 50) = d.heapPages :=
      moved.heapPages
    rw [pages]
    exact moved.withHeapPages (d.heapPages + 1)
  outside := by
    intro p slot i out
    rw [slot_outside (by omega) (by omega) out, slot_outside (by omega) (by omega) out]
  name := fun _ => rfl

theorem writes_btreeRoot (page : PageId) :
    Writes (fun p i => p.store32 (slotAt i + 38) page) fun d => { d with btreeRoot := page } where
  holds := fun _ _ _ held => held.withBtreeRoot page
  outside := fun _ _ _ out => slot_outside (by omega) (by omega) out
  name := fun _ => rfl

theorem writes_indexRoot {column : Nat} (small : column < 8) (page : PageId) :
    Writes (fun p i => p.store32 (rootAt i column) page)
      fun d => { d with indexRoots := d.indexRoots.set column page } where
  holds := fun _ _ _ held => held.withIndexRoot small page
  outside := by
    intro p slot i out
    have place : rootAt slot column = slotAt slot + 72 + 22 * column := by
      rw [rootAt_eq, columnAt_eq]
      omega
    exact slot_outside (by omega) (by omega) out
  name := fun _ => rfl

theorem writes_rows : Writes bumpRows fun d => { d with rows := d.rows + 1 } where
  holds := by
    intro p slot d held
    unfold bumpRows kCatalogRowCountOff
    dsimp only
    rw [held.rows]
    exact held.withRows (d.rows + 1)
  outside := fun _ _ _ out => Memory.store64_outside (by rw [kCatalogRowCountOff]; omega)
  name := fun _ => rfl

end Changes

end Labdb.Catalog
