import Labdb.Catalog.Directory
import Labdb.Record.Decode

/-! What a slot of the catalog page holds: a table's description, field by field. What is
written elsewhere leaves it, and a description that is written is there. -/

namespace Labdb.Catalog

open Labdb.Data Labdb.Heap Labdb.Program Labdb.Query Labdb.Record

variable {p q : Image} {slot i cd : Nat} {d : RawDesc}

section Offsets

theorem slotAt_eq (slot : Nat) : slotAt slot = 24 + 230 * slot := by
  simp only [slotAt, kCatalogSlotsOff, kCatalogCountOff, kPageHeaderSize, kCatalogSlotSize,
    kCatalogDescFixed, kCatalogMaxNameLen, kCatalogMaxColumns, kCatalogColDescSize,
    kCatalogColNameLen]
  omega

theorem columnAt_eq (slot i : Nat) : columnAt slot i = slotAt slot + 54 + 22 * i := by
  simp only [columnAt, kCatalogDescFixed, kCatalogMaxNameLen, kCatalogColDescSize,
    kCatalogColNameLen]
  omega

theorem rootAt_eq (slot i : Nat) : rootAt slot i = columnAt slot i + 18 := rfl

end Offsets

/-- The page holds the description in the slot. -/
structure Holds (p : Image) (slot : Nat) (d : RawDesc) : Prop where
  short : d.name.length ≤ 32
  few : d.schema.columns.length ≤ 8
  length : p (slotAt slot + 32) = d.name.length.toUInt8
  name : Memory.read p (slotAt slot) d.name.length = d.name
  count : p (slotAt slot + 33) = d.schema.columns.length.toUInt8
  column : ∀ i c, d.schema.columns[i]? = some c → readColumn p (columnAt slot i) = .ok c
  heapHead : p.load32 (slotAt slot + 34) = d.heapHead
  btreeRoot : p.load32 (slotAt slot + 38) = d.btreeRoot
  rows : p.load64 (slotAt slot + 42) = d.rows
  heapPages : p.load32 (slotAt slot + 50) = d.heapPages
  roots : ((List.range d.schema.columns.length).map fun i => p.load32 (rootAt slot i)) =
    d.indexRoots

theorem toNat_length {α : Type} {items : List α} {bound : Nat} (short : items.length ≤ bound)
    (small : bound < 256) : items.length.toUInt8.toNat = items.length := by
  rw [Nat.toUInt8, UInt8.toNat_ofNat']
  omega

theorem Holds.readDesc (held : Holds p slot d) : readDesc p slot = .ok d := by
  obtain ⟨name, ⟨columns⟩, heapHead, btreeRoot, rows, heapPages, roots⟩ := d
  have short := toNat_length held.short (by omega)
  have few := toNat_length held.few (by omega)
  have looped : (List.range columns.length).mapM (fun i => readColumn p (columnAt slot i)) =
      .ok columns := by
    obtain ⟨read, looped, all⟩ := @mapM_each _ _ (fun i => readColumn p (columnAt slot i))
      (fun i c => columns[i]? = some c) (List.range columns.length) fun i member => by
        have here := List.getElem?_eq_getElem (List.mem_range.mp member)
        exact ⟨_, held.column i _ here, here⟩
    obtain ⟨same, each⟩ := List.forall₂_iff_get.mp all
    rw [List.length_range] at same
    rw [looped]
    refine congrArg Except.ok (List.ext_getElem same.symm fun i inside inside' => ?_)
    have here := each i (List.length_range.symm ▸ inside') inside
    simp only [List.get_eq_getElem, List.getElem_range, List.getElem?_eq_getElem inside',
      Option.some.injEq] at here
    exact here.symm
  have read := held.roots
  unfold Catalog.readDesc
  dsimp only [kCatalogMaxNameLen, kCatalogRowCountOff, kCatalogHeapPagesOff]
  rw [held.count, few, looped, ok_bind, held.length, short, held.name, held.heapHead,
    held.btreeRoot, held.rows, held.heapPages, read]
  rfl

section Frames

private theorem readColumn_congr (same : ∀ i, cd ≤ i → i < cd + 18 → q i = p i) :
    readColumn q cd = readColumn p cd := by
  have name : Memory.read q cd 16 = Memory.read p cd 16 :=
    Memory.read_congr fun i least most => same i least (by omega)
  unfold readColumn kCatalogColNameLen
  rw [same (cd + 16) (by omega) (by omega), same (cd + 16 + 1) (by omega) (by omega), name]

/-- The name and the columns stay, and the other fields are what the page says now. -/
theorem Holds.fields (held : Holds p slot d)
    (head : ∀ i, slotAt slot ≤ i → i < slotAt slot + 34 → q i = p i)
    (columns : ∀ c < 8, ∀ i, columnAt slot c ≤ i → i < columnAt slot c + 18 → q i = p i) :
    Holds q slot
      { d with
        heapHead := q.load32 (slotAt slot + 34)
        btreeRoot := q.load32 (slotAt slot + 38)
        rows := q.load64 (slotAt slot + 42)
        heapPages := q.load32 (slotAt slot + 50)
        indexRoots :=
          (List.range d.schema.columns.length).map fun i => q.load32 (rootAt slot i) } where
  short := held.short
  few := held.few
  length := (head _ (by omega) (by omega)).trans held.length
  name := by
    have short := held.short
    have same : Memory.read q (slotAt slot) d.name.length =
        Memory.read p (slotAt slot) d.name.length :=
      Memory.read_congr fun i least most => head i least (by omega)
    exact same.trans held.name
  count := (head _ (by omega) (by omega)).trans held.count
  column := by
    intro i c isColumn
    have inside := (List.getElem?_eq_some_iff.mp isColumn).1
    rw [readColumn_congr (columns i (Nat.lt_of_lt_of_le inside held.few))]
    exact held.column i c isColumn
  heapHead := rfl
  btreeRoot := rfl
  rows := rfl
  heapPages := rfl
  roots := rfl

private theorem roots_congr {count : Nat} (few : count ≤ 8)
    (same : ∀ i, slotAt slot + 54 ≤ i → i < slotAt slot + 230 → q i = p i) :
    ((List.range count).map fun i => q.load32 (rootAt slot i)) =
      (List.range count).map fun i => p.load32 (rootAt slot i) := by
  refine List.map_congr_left fun c member => ?_
  have small := List.mem_range.mp member
  rw [rootAt_eq, columnAt_eq]
  exact Memory.load32_congr fun i least most => same i (by omega) (by omega)

/-- What is written between the name and the columns. -/
theorem Holds.numbers (held : Holds p slot d)
    (same : ∀ i, i < slotAt slot + 34 ∨ slotAt slot + 54 ≤ i → q i = p i) :
    Holds q slot
      { d with
        heapHead := q.load32 (slotAt slot + 34)
        btreeRoot := q.load32 (slotAt slot + 38)
        rows := q.load64 (slotAt slot + 42)
        heapPages := q.load32 (slotAt slot + 50) } := by
  have fields := held.fields (fun i _ most => same i (.inl most)) fun c _ i least _ =>
    same i (.inr (by rw [columnAt_eq] at least; omega))
  rw [roots_congr held.few fun i least _ => same i (.inr least), held.roots] at fields
  exact fields

/-- Of the description nothing changes where the slot does not. -/
theorem Holds.congr (held : Holds p slot d)
    (same : ∀ i, slotAt slot ≤ i → i < slotAt slot + 230 → q i = p i) : Holds q slot d := by
  have fields := @Holds.fields p q slot d held (fun i least most => same i least (by omega))
    fun c small i least most => by
      rw [columnAt_eq] at least most
      exact same i (by omega) (by omega)
  rw [roots_congr held.few fun i least most => same i (by omega) most, held.roots,
    @Memory.load32_congr q p _ fun i least most => same i (by omega) (by omega),
    @Memory.load32_congr q p _ fun i least most => same i (by omega) (by omega),
    @Memory.load64_congr q p _ fun i least most => same i (by omega) (by omega),
    @Memory.load32_congr q p _ fun i least most => same i (by omega) (by omega),
    held.heapHead, held.btreeRoot, held.rows, held.heapPages] at fields
  exact fields

theorem Holds.withHeapHead (held : Holds p slot d) (page : PageId) :
    Holds (p.store32 (slotAt slot + 34) page) slot { d with heapHead := page } := by
  have numbers := held.numbers (q := p.store32 (slotAt slot + 34) page)
    fun i out => Memory.store32_outside (by omega)
  rwa [Memory.load32_store32, Memory.load32_store32_of_disjoint (.inr (by omega)),
    Memory.load64_store32_of_disjoint (.inr (by omega)),
    Memory.load32_store32_of_disjoint (.inr (by omega)), held.btreeRoot, held.rows,
    held.heapPages] at numbers

theorem Holds.withBtreeRoot (held : Holds p slot d) (page : PageId) :
    Holds (p.store32 (slotAt slot + 38) page) slot { d with btreeRoot := page } := by
  have numbers := held.numbers (q := p.store32 (slotAt slot + 38) page)
    fun i out => Memory.store32_outside (by omega)
  rwa [Memory.load32_store32_of_disjoint (.inl (by omega)), Memory.load32_store32,
    Memory.load64_store32_of_disjoint (.inr (by omega)),
    Memory.load32_store32_of_disjoint (.inr (by omega)), held.heapHead, held.rows,
    held.heapPages] at numbers

theorem Holds.withRows (held : Holds p slot d) (rows : UInt64) :
    Holds (p.store64 (slotAt slot + 42) rows) slot { d with rows } := by
  have numbers := held.numbers (q := p.store64 (slotAt slot + 42) rows)
    fun i out => Memory.store64_outside (by omega)
  rwa [Memory.load32_store64_of_disjoint (.inl (by omega)),
    Memory.load32_store64_of_disjoint (.inl (by omega)), Memory.load64_store64,
    Memory.load32_store64_of_disjoint (.inr (by omega)), held.heapHead, held.btreeRoot,
    held.heapPages] at numbers

theorem Holds.withHeapPages (held : Holds p slot d) (pages : UInt32) :
    Holds (p.store32 (slotAt slot + 50) pages) slot { d with heapPages := pages } := by
  have numbers := held.numbers (q := p.store32 (slotAt slot + 50) pages)
    fun i out => Memory.store32_outside (by omega)
  rwa [Memory.load32_store32_of_disjoint (.inl (by omega)),
    Memory.load32_store32_of_disjoint (.inl (by omega)),
    Memory.load64_store32_of_disjoint (.inl (by omega)), Memory.load32_store32, held.heapHead,
    held.btreeRoot, held.rows] at numbers

/-- A root beyond those of the table's columns is none of its fields. -/
theorem Holds.withIndexRoot (held : Holds p slot d) {column : Nat} (small : column < 8)
    (page : PageId) : Holds (p.store32 (rootAt slot column) page) slot
      { d with indexRoots := d.indexRoots.set column page } := by
  have place : rootAt slot column = slotAt slot + 72 + 22 * column := by
    rw [rootAt_eq, columnAt_eq]
    omega
  have outside : ∀ i, i < rootAt slot column ∨ rootAt slot column + 4 ≤ i →
      (p.store32 (rootAt slot column) page) i = p i := fun i out => Memory.store32_outside out
  have fields := held.fields (q := p.store32 (rootAt slot column) page)
    (fun i _ most => outside i (by omega)) fun c _ i least most => by
      rw [columnAt_eq] at least most
      exact outside i (by omega)
  have roots : ((List.range d.schema.columns.length).map fun i =>
      (p.store32 (rootAt slot column) page).load32 (rootAt slot i)) =
      d.indexRoots.set column page := by
    rw [← held.roots]
    apply List.ext_getElem
    · rw [List.length_set, List.length_map, List.length_map]
    · intro i _ _
      rw [List.getElem_set, List.getElem_map, List.getElem_map, List.getElem_range]
      split
      · rename_i same
        rw [← same, Memory.load32_store32]
      · have apart : rootAt slot i = slotAt slot + 72 + 22 * i := by
          rw [rootAt_eq, columnAt_eq]
          omega
        exact Memory.load32_store32_of_disjoint (by omega)
  rwa [roots, Memory.load32_store32_of_disjoint (.inl (by omega)),
    Memory.load32_store32_of_disjoint (.inl (by omega)),
    Memory.load64_store32_of_disjoint (.inl (by omega)),
    Memory.load32_store32_of_disjoint (.inl (by omega)), held.heapHead, held.btreeRoot, held.rows,
    held.heapPages] at fields

end Frames

section Writes

variable {c : Column} {columns : List Column} {name : Text} {schema : Schema}

private theorem typeOf_typeByte (type : ColType) : typeOf (typeByte type) = some type := by
  cases type <;> rfl

private theorem writeColumn_outside (short : c.name.length ≤ 16) (out : i < cd ∨ cd + 18 ≤ i) :
    writeColumn p cd c i = p i := by
  unfold writeColumn kCatalogColNameLen
  rw [Memory.write_outside (by rw [List.length_singleton]; omega),
    Memory.write_outside (by rw [List.length_singleton]; omega), Memory.write_outside (by omega)]

private theorem writeColumn_name (out : i < cd + 16) :
    writeColumn p cd c i = Memory.write p cd c.name i := by
  unfold writeColumn kCatalogColNameLen
  rw [Memory.write_outside (by rw [List.length_singleton]; omega),
    Memory.write_outside (by rw [List.length_singleton]; omega)]

/-- A name without a zero byte comes back as it was written on zeros. -/
theorem readColumn_writeColumn (short : c.name.length ≤ 16) (plain : 0 ∉ c.name)
    (clear : ∀ i, cd ≤ i → i < cd + 16 → p i = 0) :
    readColumn (writeColumn p cd c) cd = .ok c := by
  obtain ⟨name, type, nullable⟩ := c
  have padded : Memory.read (writeColumn p cd ⟨name, type, nullable⟩) cd 16 =
      name ++ List.replicate (16 - name.length) 0 := by
    have same : Memory.read (writeColumn p cd ⟨name, type, nullable⟩) cd 16 =
        Memory.read (Memory.write p cd name) cd 16 :=
      Memory.read_congr fun i _ most => writeColumn_name most
    have split := Memory.read_add (Memory.write p cd name) cd name.length (16 - name.length)
    rw [Nat.add_sub_of_le short, Memory.read_write] at split
    rw [same, split, Memory.read_zeros fun i least most => ?_]
    rw [Memory.write_outside (.inr least)]
    exact clear i (by omega) (by omega)
  have trimmed : (name ++ List.replicate (16 - name.length) 0).takeWhile (· ≠ 0) = name := by
    have visible : ∀ byte ∈ name, decide (byte ≠ 0) = true := fun byte here =>
      decide_eq_true fun zero => plain (zero ▸ here)
    rw [List.takeWhile_append_of_pos visible, List.takeWhile_replicate, if_neg (by decide),
      List.append_nil]
  have typed : writeColumn p cd ⟨name, type, nullable⟩ (cd + 16) = typeByte type := by
    unfold writeColumn kCatalogColNameLen
    rw [Memory.write_outside (.inl (by omega)), Memory.write_byte]
  have flag : writeColumn p cd ⟨name, type, nullable⟩ (cd + 17) = if nullable then 1 else 0 :=
    Memory.write_byte ..
  unfold readColumn kCatalogColNameLen
  rw [typed, typeOf_typeByte, padded, trimmed, flag]
  cases nullable <;> rfl

/-- The columns are written on zeros, and their roots stay zero. -/
theorem writeColumns_ok (short : ∀ c ∈ columns, c.name.length ≤ 16)
    (plain : ∀ c ∈ columns, 0 ∉ c.name)
    (clear : ∀ i, cd ≤ i → i < cd + 22 * columns.length → p i = 0) :
    ∃ q, writeColumns p cd columns = .ok q ∧
      (∀ i, i < cd ∨ cd + 22 * columns.length ≤ i → q i = p i) ∧
      ∀ k c, columns[k]? = some c →
        readColumn q (cd + 22 * k) = .ok c ∧ q.load32 (cd + 22 * k + 18) = 0 := by
  induction columns generalizing p cd with
  | nil => exact ⟨p, rfl, fun _ _ => rfl, fun k c isColumn => by simp at isColumn⟩
  | cons first rest ih =>
    rw [List.length_cons] at clear
    have fits := short first List.mem_cons_self
    have clearRest : ∀ i, cd + 22 ≤ i → i < cd + 22 + 22 * rest.length →
        writeColumn p cd first i = 0 := by
      intro i least most
      rw [writeColumn_outside fits (.inr (by omega))]
      exact clear i (by omega) (by omega)
    obtain ⟨q, wrote, outside, read⟩ := ih
      (fun c member => short c (List.mem_cons_of_mem _ member))
      (fun c member => plain c (List.mem_cons_of_mem _ member)) clearRest
    have here : ∀ i, i < cd + 22 → q i = writeColumn p cd first i := fun i most =>
      outside i (.inl most)
    refine ⟨q, ?_, fun i out => ?_, fun k c isColumn => ?_⟩
    · rw [writeColumns, kCatalogColNameLen, checkThat_true (decide_eq_true fits), ok_bind]
      exact wrote
    · rw [List.length_cons] at out
      rw [outside i (by omega), writeColumn_outside fits (by omega)]
    · cases k with
      | zero =>
        obtain rfl := Option.some.inj isColumn
        constructor
        · rw [Nat.mul_zero, Nat.add_zero, readColumn_congr fun i _ most => here i (by omega)]
          exact readColumn_writeColumn fits (plain _ List.mem_cons_self) fun i least most =>
            clear i least (by omega)
        · refine Memory.load32_zeros fun i least most => ?_
          rw [here i (by omega), writeColumn_outside fits (.inr (by omega))]
          exact clear i (by omega) (by omega)
      | succ k =>
        rw [Nat.mul_succ, Nat.add_comm (22 * k), ← Nat.add_assoc]
        exact read k c isColumn

private theorem writeColumns_error (long : ¬ ∀ c ∈ columns, c.name.length ≤ 16) :
    writeColumns p cd columns = .error (.failed (bytes "column name too long")) := by
  induction columns generalizing p cd with
  | nil => exact absurd (fun c member => absurd member List.not_mem_nil) long
  | cons first rest ih =>
    rw [writeColumns, kCatalogColNameLen]
    by_cases fits : first.name.length ≤ 16
    · rw [checkThat_true (decide_eq_true fits), ok_bind]
      exact ih fun short => long (List.forall_mem_cons.mpr ⟨fits, short⟩)
    · rw [checkThat_false (decide_eq_false fits)]
      rfl

/-- What `write_desc` checks of a table. -/
def fits (name : Text) (schema : Schema) : Codec Unit := do
  checkThat (name.length ≤ kCatalogMaxNameLen) (bytes "table name too long")
  checkThat (schema.columns.length ≤ kCatalogMaxColumns) (bytes "too many columns for the catalog")
  checkThat (∀ c ∈ schema.columns, c.name.length ≤ kCatalogColNameLen)
    (bytes "column name too long")

/-- A table without rows, without pages and without indexes. -/
def RawDesc.fresh (name : Text) (schema : Schema) (broot : PageId) : RawDesc where
  name
  schema
  heapHead := kNullPage
  btreeRoot := broot
  rows := 0
  heapPages := 0
  indexRoots := List.replicate schema.columns.length kNullPage

/-- A slot before its columns are written. -/
def headWritten (p : Image) (slot : Nat) (name : Text) (count : Nat) (head broot : PageId) :
    Image :=
  let s := slotAt slot
  let p := Memory.write p s (List.replicate 230 0)
  let p := Memory.write p s name
  let p := Memory.write p (s + 32) [name.length.toUInt8]
  let p := Memory.write p (s + 33) [count.toUInt8]
  Memory.store32 (Memory.store32 p (s + 34) head) (s + 38) broot

section Head

variable {count : Nat} {head broot : PageId}

private theorem headWritten_outside (short : name.length ≤ 32)
    (out : i < slotAt slot ∨ slotAt slot + 230 ≤ i) :
    headWritten p slot name count head broot i = p i := by
  unfold headWritten
  rw [Memory.store32_outside (by omega), Memory.store32_outside (by omega),
    Memory.write_outside (by rw [List.length_singleton]; omega),
    Memory.write_outside (by rw [List.length_singleton]; omega), Memory.write_outside (by omega),
    Memory.write_outside (by rwa [List.length_replicate])]

private theorem write_zeros {at_ count : Nat} (least : at_ ≤ i) (most : i < at_ + count) :
    Memory.write p at_ (List.replicate count 0) i = 0 := by
  have inside : i - at_ < (List.replicate count (0 : UInt8)).length := by
    rw [List.length_replicate]
    omega
  have written := @Memory.write_inside p at_ _ _ inside
  rwa [Nat.add_sub_of_le least, List.getElem_replicate] at written

private theorem headWritten_zero (short : name.length ≤ 32) (least : slotAt slot + 42 ≤ i)
    (most : i < slotAt slot + 230) : headWritten p slot name count head broot i = 0 := by
  unfold headWritten
  rw [Memory.store32_outside (by omega), Memory.store32_outside (by omega),
    Memory.write_outside (by rw [List.length_singleton]; omega),
    Memory.write_outside (by rw [List.length_singleton]; omega), Memory.write_outside (by omega),
    write_zeros (by omega) most]

private theorem headWritten_name (short : name.length ≤ 32) :
    Memory.read (headWritten p slot name count head broot) (slotAt slot) name.length = name := by
  unfold headWritten Memory.store32
  rw [Memory.read_write_of_disjoint (.inl (by omega)),
    Memory.read_write_of_disjoint (.inl (by omega)),
    Memory.read_write_of_disjoint (.inl (by omega)),
    Memory.read_write_of_disjoint (.inl (by omega)), Memory.read_write]

private theorem headWritten_length :
    headWritten p slot name count head broot (slotAt slot + 32) = name.length.toUInt8 := by
  unfold headWritten
  rw [Memory.store32_outside (by omega), Memory.store32_outside (by omega),
    Memory.write_outside (by omega), Memory.write_byte]

private theorem headWritten_count :
    headWritten p slot name count head broot (slotAt slot + 33) = count.toUInt8 := by
  unfold headWritten
  rw [Memory.store32_outside (by omega), Memory.store32_outside (by omega), Memory.write_byte]

private theorem headWritten_pages :
    (headWritten p slot name count head broot).load32 (slotAt slot + 34) = head ∧
      (headWritten p slot name count head broot).load32 (slotAt slot + 38) = broot := by
  unfold headWritten
  constructor
  · rw [Memory.load32_store32_of_disjoint (.inl (by omega)), Memory.load32_store32]
  · rw [Memory.load32_store32]

end Head

theorem fits_ok_iff : fits name schema = .ok () ↔
    name.length ≤ 32 ∧ schema.columns.length ≤ 8 ∧ ∀ c ∈ schema.columns, c.name.length ≤ 16 := by
  unfold fits kCatalogMaxNameLen kCatalogMaxColumns kCatalogColNameLen
  by_cases short : name.length ≤ 32
  · rw [checkThat_true (decide_eq_true short), ok_bind]
    by_cases few : schema.columns.length ≤ 8
    · rw [checkThat_true (decide_eq_true few), ok_bind]
      by_cases narrow : ∀ c ∈ schema.columns, c.name.length ≤ 16
      · rw [checkThat_true (decide_eq_true narrow)]
        exact ⟨fun _ => ⟨short, few, narrow⟩, fun _ => rfl⟩
      · rw [checkThat_false (decide_eq_false narrow)]
        exact ⟨fun same => (by cases same), fun all => absurd all.2.2 narrow⟩
    · rw [checkThat_false (decide_eq_false few)]
      exact ⟨fun same => (by cases same), fun all => absurd all.2.1 few⟩
  · rw [checkThat_false (decide_eq_false short)]
    exact ⟨fun same => (by cases same), fun all => absurd all.1 short⟩

/-- A slot is written with a description if the description fits, and nothing else is written. -/
theorem writeDesc_ok (fits_ : fits name schema = .ok ()) (plain : ∀ c ∈ schema.columns, 0 ∉ c.name)
    (broot : PageId) :
    ∃ q, writeDesc p slot name schema kNullPage broot = .ok q ∧
      Holds q slot (.fresh name schema broot) ∧
      ∀ i, i < slotAt slot ∨ slotAt slot + 230 ≤ i → q i = p i := by
  obtain ⟨short, few, narrow⟩ := fits_ok_iff.mp fits_
  have clear : ∀ i, slotAt slot + 42 ≤ i → i < slotAt slot + 230 →
      headWritten p slot name schema.columns.length kNullPage broot i = 0 :=
    fun i least most => headWritten_zero short least most
  obtain ⟨q, wrote, outside, read⟩ := @writeColumns_ok _ (slotAt slot + 54) _ narrow plain
    fun i least most => clear i (by omega) (by omega)
  have head : ∀ i, i < slotAt slot + 54 →
      q i = headWritten p slot name schema.columns.length kNullPage broot i :=
    fun i most => outside i (.inl most)
  refine ⟨q, ?_, ?_, fun i out => ?_⟩
  · unfold writeDesc kCatalogMaxNameLen kCatalogMaxColumns
    rw [checkThat_true (decide_eq_true short), ok_bind, checkThat_true (decide_eq_true few),
      ok_bind]
    exact wrote
  · have zero : ∀ i, slotAt slot + 42 ≤ i → i < slotAt slot + 54 → q i = 0 := fun i least most =>
      (head i most).trans (clear i least (by omega))
    have heads := @headWritten_pages p slot name schema.columns.length kNullPage broot
    constructor
    · exact short
    · exact few
    · exact (head _ (by omega)).trans headWritten_length
    · have same := @Memory.read_congr q _ (slotAt slot) name.length fun i _ most =>
        head i (by omega)
      exact same.trans (headWritten_name short)
    · exact (head _ (by omega)).trans headWritten_count
    · intro i c isColumn
      rw [columnAt_eq]
      exact (read i c isColumn).1
    · exact (Memory.load32_congr fun i _ most => head i (by omega)).trans heads.1
    · exact (Memory.load32_congr fun i _ most => head i (by omega)).trans heads.2
    · exact Memory.load64_zeros fun i least most => zero i (by omega) (by omega)
    · exact Memory.load32_zeros fun i least most => zero i (by omega) (by omega)
    · refine List.eq_replicate_iff.mpr ⟨?_, ?_⟩
      · rw [List.length_map, List.length_range]
        rfl
      · intro root member
        obtain ⟨i, inside, rfl⟩ := List.mem_map.mp member
        rw [rootAt_eq, columnAt_eq]
        exact (read i _ (List.getElem?_eq_getElem (List.mem_range.mp inside))).2
  · rw [outside i (by omega), headWritten_outside short out]

theorem writeDesc_error {fault : Fault} (refused : fits name schema = .error fault)
    (head broot : PageId) : writeDesc p slot name schema head broot = .error fault := by
  unfold writeDesc
  unfold fits at refused
  by_cases short : name.length ≤ kCatalogMaxNameLen
  · rw [checkThat_true (decide_eq_true short), ok_bind] at refused ⊢
    by_cases few : schema.columns.length ≤ kCatalogMaxColumns
    · rw [checkThat_true (decide_eq_true few), ok_bind] at refused ⊢
      by_cases narrow : ∀ c ∈ schema.columns, c.name.length ≤ kCatalogColNameLen
      · rw [checkThat_true (decide_eq_true narrow)] at refused
        cases refused
      · rw [checkThat_false (decide_eq_false narrow)] at refused
        obtain rfl := Except.error.inj refused
        exact writeColumns_error narrow
    · rw [checkThat_false (decide_eq_false few)] at refused ⊢
      obtain rfl := Except.error.inj refused
      rfl
  · rw [checkThat_false (decide_eq_false short)] at refused ⊢
    obtain rfl := Except.error.inj refused
    rfl

end Writes

end Labdb.Catalog
