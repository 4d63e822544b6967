import Labdb.Engine.Pages
import Labdb.Heap.Links
import Labdb.Record.Layout

/-! A heap is a chain of slotted pages: what it holds, and what `insert`, `get` and `erase` make of
that. -/

namespace Labdb.Engine

open Labdb.BTree Labdb.Catalog Labdb.Data Labdb.Heap Labdb.Program Labdb.Query Labdb.Record
open Labdb.Heap.Image (content)

variable {d d' : Disk} {head id : PageNo} {chain : List PageNo}
  {records : List (RID × List UInt8)} {rid : RID} {rec : List UInt8}

/-- The pages of a chain, each linked to the next one. -/
def Threaded (d : Disk) : List PageNo → Prop
  | [] => True
  | id :: rest =>
    (d.records id).nextPage.toNat = rest.headD Storage.kNullPage ∧ Threaded d rest

/-- The page of that number shows the records with an address on it. -/
def Keeps (p : Image) (id : PageNo) (records : List (RID × List UInt8)) : Prop :=
  ∃ slots, Image.Shows p slots ∧ ∀ slot rec, content slots slot = some rec ↔
    ∃ rid, (rid, rec) ∈ records ∧ rid.page.toNat = id ∧ rid.slot.toNat = slot

/-- A heap whose first page is `head`, the pages of its chain, and its records by their addresses. -/
structure HeapHolds (d : Disk) (head : PageNo) (chain : List PageNo)
    (records : List (RID × List UInt8)) : Prop where
  starts : chain.headD Storage.kNullPage = head
  threaded : Threaded d chain
  keeps : ∀ id ∈ chain, Keeps (d.records id) id records
  inside : ∀ e ∈ records, e.1.page.toNat ∈ chain
  once : (records.map Prod.fst).Nodup

theorem Threaded.congr (threaded : Threaded d chain)
    (same : ∀ id ∈ chain, (d'.records id).nextPage = (d.records id).nextPage) :
    Threaded d' chain := by
  induction chain with
  | nil => trivial
  | cons id rest ih =>
    refine ⟨?_, ih threaded.2 fun other member => same other (List.mem_cons_of_mem _ member)⟩
    rw [same id List.mem_cons_self]
    exact threaded.1

/-- A heap holds as long as its pages are not written. -/
theorem HeapHolds.congr (holds : HeapHolds d head chain records)
    (same : ∀ id ∈ chain, d'.records id = d.records id) : HeapHolds d' head chain records where
  starts := holds.starts
  threaded := holds.threaded.congr fun id member => congrArg Image.nextPage (same id member)
  keeps id member := by
    rw [same id member]
    exact holds.keeps id member
  inside := holds.inside
  once := holds.once

theorem HeapHolds.nil (d : Disk) : HeapHolds d Storage.kNullPage [] [] where
  starts := rfl
  threaded := trivial
  keeps _ member := absurd member List.not_mem_nil
  inside _ member := absurd member List.not_mem_nil
  once := List.nodup_nil

theorem HeapHolds.read (holds : HeapHolds d head chain records) (member : (rid, rec) ∈ records) :
    (d.records rid.page.toNat).read rid.slot.toNat = some rec := by
  obtain ⟨slots, shows_, same⟩ := holds.keeps _ (holds.inside _ member)
  rw [shows_.read_eq, same]
  exact ⟨rid, member, rfl, rfl⟩

/-- `get` comes to the record of an address. -/
theorem HeapHolds.get (holds : HeapHolds d head chain records) (member : (rid, rec) ∈ records) :
    (heapGet rid).runOn d = (.ok rec, d) := by
  unfold heapGet
  rw [Stateful.runOn_bind_ok (runOn_readPage _ d), holds.read member]
  rfl

private theorem rid_ext {rid rid' : RID} (page : rid.page.toNat = rid'.page.toNat)
    (slot : rid.slot.toNat = rid'.slot.toNat) : rid = rid' := by
  obtain ⟨p, s⟩ := rid
  obtain ⟨p', s'⟩ := rid'
  obtain rfl := UInt32.toNat_inj.mp page
  obtain rfl := UInt16.toNat_inj.mp slot
  rfl

section Write

variable {q : Image}

/-- One page of the chain is written, and its link stays. -/
theorem HeapHolds.written {records' : List (RID × List UInt8)}
    (holds : HeapHolds d head chain records) (link : q.nextPage = (d.records id).nextPage)
    (here : Keeps q id records')
    (others : ∀ other ∈ chain, other ≠ id → ∀ slot rec,
      (∃ rid, (rid, rec) ∈ records' ∧ rid.page.toNat = other ∧ rid.slot.toNat = slot) ↔
        ∃ rid, (rid, rec) ∈ records ∧ rid.page.toNat = other ∧ rid.slot.toNat = slot)
    (inside : ∀ e ∈ records', e.1.page.toNat ∈ chain) (once : (records'.map Prod.fst).Nodup) :
    HeapHolds (d.put id q) head chain records' where
  starts := holds.starts
  threaded := holds.threaded.congr fun other _ => by
    by_cases same : other = id
    · subst same
      rw [records_put]
      exact link
    · rw [records_put_ne d q same]
  keeps other member := by
    by_cases same : other = id
    · subst same
      rw [records_put]
      exact here
    · obtain ⟨slots, shows_, kept⟩ := holds.keeps other member
      rw [records_put_ne d q same]
      exact ⟨slots, shows_, fun slot rec => (kept slot rec).trans (others other member same slot rec).symm⟩
  inside := inside
  once := once

/-- A record that a page has room for, and the page then. -/
theorem insertOn_some (scratch : Memory) (holds : HeapHolds d head chain records)
    (member : id ∈ chain) (small : id < 2 ^ 32) (accepted : ¬ (d.records id).Refused rec) :
    ∃ rid q, (insertOn scratch id rec).runOn d =
        (.ok (some rid), (d.put id q)) ∧
      HeapHolds (d.put id q) head chain
        (records ++ [(rid, rec)]) := by
  obtain ⟨slots, shows_, same⟩ := holds.keeps id member
  obtain ⟨slot, slots', answer, shows', free, contents, -⟩ :=
    (Image.insert_spec shows_ scratch rec).2 accepted
  have link := shows_.insert_link scratch rec
  rcases inserted : (d.records id).insert scratch rec with ⟨found, q⟩
  rw [inserted] at answer shows' link
  obtain rfl : found = some slot := answer
  have short := shows'.length_lt
  have there : content slots' slot = some rec := by rw [contents, if_pos rfl]
  have isSlot : slot < slots'.length := (List.getElem?_eq_some_iff.mp (Image.content_some.mp there)).1
  have slotNat : slot.toUInt16.toNat = slot :=
    UInt16.toNat_ofNat_of_lt' (by change slot < 65536; omega)
  have pageNat := toNat_toUInt32 small
  have new : ∀ other rec', (other, rec') ∈ records →
      other ≠ (⟨id.toUInt32, slot.toUInt16⟩ : RID) := by
    rintro other rec' isRecord rfl
    have held := (same slot rec').mpr ⟨_, isRecord, pageNat, slotNat⟩
    rw [free] at held
    cases held
  refine ⟨⟨id.toUInt32, slot.toUInt16⟩, q, ?_, holds.written link ⟨slots', shows', ?_⟩ ?_ ?_ ?_⟩
  · unfold insertOn
    rw [Stateful.runOn_bind_ok (runOn_readPage id d), inserted]
    rfl
  · intro i rec'
    rw [contents]
    constructor
    · intro held
      split at held
      · rename_i here
        obtain rfl := Option.some.inj held
        exact ⟨_, List.mem_append_right _ List.mem_cons_self, pageNat, slotNat.trans here.symm⟩
      · obtain ⟨other, isRecord, place⟩ := (same i rec').mp held
        exact ⟨other, List.mem_append_left _ isRecord, place⟩
    · rintro ⟨other, isRecord, page, place⟩
      rcases List.mem_append.mp isRecord with old | last
      · have held := (same i rec').mpr ⟨other, old, page, place⟩
        rw [if_neg, held]
        rintro rfl
        rw [free] at held
        cases held
      · obtain ⟨rfl, rfl⟩ := Prod.mk.inj (List.mem_singleton.mp last)
        rw [if_pos (place.symm.trans slotNat)]
  · intro other _ apart i rec'
    constructor
    · rintro ⟨address, isRecord, page, place⟩
      rcases List.mem_append.mp isRecord with old | last
      · exact ⟨address, old, page, place⟩
      · obtain ⟨rfl, rfl⟩ := Prod.mk.inj (List.mem_singleton.mp last)
        exact absurd (page.symm.trans pageNat) apart
    · rintro ⟨address, isRecord, place⟩
      exact ⟨address, List.mem_append_left _ isRecord, place⟩
  · intro e isRecord
    rcases List.mem_append.mp isRecord with old | last
    · exact holds.inside e old
    · obtain rfl := List.mem_singleton.mp last
      exact pageNat.symm ▸ member
  · rw [List.map_append, List.nodup_append]
    refine ⟨holds.once, List.nodup_singleton _, ?_⟩
    intro address isOld other isNew
    obtain ⟨⟨_, rec'⟩, isRecord, rfl⟩ := List.mem_map.mp isOld
    rw [List.mem_singleton.mp isNew]
    exact new _ _ isRecord

private theorem insertOn_none (scratch : Memory) (holds : HeapHolds d head chain records)
    (member : id ∈ chain) (refused : (d.records id).Refused rec) :
    (insertOn scratch id rec).runOn d = (.ok none, d) := by
  obtain ⟨slots, shows_, -⟩ := holds.keeps id member
  have answer := (Image.insert_spec shows_ scratch rec).1 refused
  unfold insertOn
  rw [Stateful.runOn_bind_ok (runOn_readPage id d), answer]
  rfl

/-- `erase` takes the record of an address out. -/
theorem HeapHolds.erase (holds : HeapHolds d head chain records) (member : (rid, rec) ∈ records) :
    ∃ q, (heapErase rid).runOn d =
        (.ok true, (d.put rid.page.toNat q)) ∧
      HeapHolds (d.put rid.page.toNat q) head chain
        (records.filter fun e => e.1 ≠ rid) := by
  obtain ⟨slots, shows_, same⟩ := holds.keeps _ (holds.inside _ member)
  obtain ⟨erases, slots', shows', contents, -⟩ := Image.erase_spec shows_ rid.slot.toNat
  have link := shows_.erase_link rid.slot.toNat
  have live : content slots rid.slot.toNat = some rec := (same _ _).mpr ⟨rid, member, rfl, rfl⟩
  rcases erased : (d.records rid.page.toNat).erase rid.slot.toNat with ⟨answer, q⟩
  rw [erased] at erases shows' link
  obtain rfl : answer = true := erases.mpr (live ▸ Option.some_ne_none rec)
  have left : ∀ e, e ∈ records.filter (fun e => e.1 ≠ rid) ↔ e ∈ records ∧ e.1 ≠ rid := by
    intro e
    rw [List.mem_filter, decide_eq_true_iff]
  refine ⟨q, ?_, holds.written link ⟨slots', shows', ?_⟩ ?_ ?_ ?_⟩
  · unfold heapErase
    rw [Stateful.runOn_bind_ok (runOn_readPage _ d), erased]
    rfl
  · intro i rec'
    rw [contents]
    constructor
    · intro held
      split at held
      · cases held
      · rename_i apart
        obtain ⟨other, isRecord, page, place⟩ := (same i rec').mp held
        refine ⟨other, (left _).mpr ⟨isRecord, ?_⟩, page, place⟩
        rintro rfl
        exact apart place.symm
    · rintro ⟨other, isRecord, page, place⟩
      obtain ⟨old, apart⟩ := (left _).mp isRecord
      rw [if_neg]
      · exact (same i rec').mpr ⟨other, old, page, place⟩
      · rintro rfl
        exact apart (rid_ext page place)
  · intro other _ apart i rec'
    constructor
    · rintro ⟨address, isRecord, place⟩
      exact ⟨address, ((left _).mp isRecord).1, place⟩
    · rintro ⟨address, isRecord, page, place⟩
      refine ⟨address, (left _).mpr ⟨isRecord, ?_⟩, page, place⟩
      rintro rfl
      exact apart page.symm
  · exact fun e isRecord => holds.inside e ((left e).mp isRecord).1
  · exact holds.once.sublist (List.filter_sublist.map Prod.fst)

end Write

section Insert

variable {alloc : Allocator} {scratch : Memory} {onNewHead : PageNo → DiskM Unit}
  {told : PageNo → Image}

/-- A fresh page is empty and linked to the head, and the owner is told. -/
theorem runOn_newPage (tells : ∀ d' : Disk, d'.catalog = d.catalog → ∀ id,
    (onNewHead id).runOn d' = (.ok (), { d' with catalog := told id })) (head : PageNo) :
    ∃ p, Image.Shows p [] ∧ p.nextPage = head.toUInt32 ∧ (newPage alloc onNewHead head).runOn d =
      (.ok (alloc.pick d.requests d.used),
        { d.grown alloc p with catalog := told (alloc.pick d.requests d.used) }) := by
  refine ⟨((Image.setId (fun _ => 0) (alloc.pick d.requests d.used).toUInt32).init
    (alloc.pick d.requests d.used).toUInt32).setNextPage head.toUInt32,
    (Image.init_shows _ _).withLink _, Image.nextPage_setNextPage _ _, ?_⟩
  unfold newPage
  rw [Stateful.runOn_bind_ok (runOn_allocatePage alloc d), Stateful.runOn_bind_ok (runOn_readPage _ _),
    records_grown, Stateful.runOn_bind_ok (runOn_writePage _ _ _), put_grown,
    Stateful.runOn_bind_ok (tells _ _ _)]
  · rfl
  · rfl

/-- A heap with a fresh page before its chain. -/
theorem HeapHolds.grown (holds : HeapHolds d head chain records) (owns : Owns d chain)
    (small : head < 2 ^ 32) {p : Image} (shows_ : Image.Shows p [])
    (link : p.nextPage = head.toUInt32) :
    HeapHolds (d.grown alloc p) (alloc.pick d.requests d.used)
        (alloc.pick d.requests d.used :: chain) records ∧
      Takes d chain (d.grown alloc p) (alloc.pick d.requests d.used :: chain) := by
  have unused := alloc.unused d.requests d.used
  have real := alloc.real d.requests d.used
  generalize isNew : alloc.pick d.requests d.used = id at *
  have outside : id ∉ chain := fun member => unused (owns.used id member)
  have here : (d.grown alloc p).records id = p := isNew ▸ records_grown alloc d p
  have others : ∀ other ≠ id, (d.grown alloc p).records other = d.records other :=
    fun other apart => records_grown_ne d p (isNew.symm ▸ apart)
  have apart : ∀ other ∈ chain, other ≠ id := fun other member same => outside (same ▸ member)
  constructor
  · constructor
    · rfl
    · refine ⟨?_, holds.threaded.congr fun other member => ?_⟩
      · rw [here, link, toNat_toUInt32 small]
        exact holds.starts.symm
      · rw [others other (apart other member)]
    · intro other member
      rcases List.mem_cons.mp member with rfl | old
      · refine ⟨[], here.symm ▸ shows_, fun slot rec => ⟨fun never => ?_, ?_⟩⟩
        · cases never
        · rintro ⟨rid, isRecord, page, -⟩
          exact absurd (page ▸ holds.inside _ isRecord) outside
      · rw [others other (apart other old)]
        exact holds.keeps other old
    · exact fun e member => List.mem_cons_of_mem _ (holds.inside e member)
    · exact holds.once
  · constructor
    · exact List.nodup_cons.mpr ⟨outside, owns.nodup⟩
    · intro other member
      rw [Disk.grown, isNew]
      exact (List.mem_cons.mp member).elim (fun same => same ▸ List.mem_cons_self)
        fun old => List.mem_cons_of_mem _ (owns.used other old)
    · intro other member
      rcases List.mem_cons.mp member with rfl | old
      · exact .inr ⟨unused, real⟩
      · exact .inl old
    · exact fun other used => List.mem_cons_of_mem _ used
    · exact fun _ _ _ => rfl
    · exact fun other used _ => others other fun same => unused (same ▸ used)

/-- How a heap has changed with a record more: its chain is what it was, or a page was put before it
and the owner was told. -/
structure Inserted (d : Disk) (chain : List PageNo) (records : List (RID × List UInt8))
    (told : PageNo → Image) (rid : RID) (rec : List UInt8) (d' : Disk) (chain' : List PageNo) :
    Prop where
  holds : HeapHolds d' (chain'.headD Storage.kNullPage) chain' (records ++ [(rid, rec)])
  takes : Takes d chain d' chain'
  nodes : d'.nodes = d.nodes
  told : chain' = chain ∧ d'.catalog = d.catalog ∨
    ∃ id, chain' = id :: chain ∧ d'.catalog = told id

/-- A record on a fresh page. -/
theorem newPage_insert (scratch : Memory) (holds : HeapHolds d head chain records)
    (owns : Owns d chain) (small : head < 2 ^ 32)
    (tells : ∀ d' : Disk, d'.catalog = d.catalog → ∀ id,
      (onNewHead id).runOn d' = (.ok (), { d' with catalog := told id }))
    (some_ : rec ≠ []) (short : rec.length ≤ kMaxRecordSize) :
    ∃ id d₁ rid d',
      (newPage alloc onNewHead head).runOn d = (.ok id, d₁) ∧
      (insertOn scratch id rec).runOn d₁ = (.ok (some rid), d') ∧
      d'.used = id :: d.used ∧
      (id < 2 ^ 32 → Inserted d chain records told rid rec d' (id :: chain)) := by
  obtain ⟨p, shows_, link, ran⟩ := @runOn_newPage d alloc onNewHead told tells head
  obtain ⟨grown, takes⟩ := @HeapHolds.grown d head chain records alloc holds owns small p shows_ link
  generalize isNew : alloc.pick d.requests d.used = id at *
  have here : ({ d.grown alloc p with catalog := told id } : Disk).records id = p :=
    isNew ▸ records_grown alloc d p
  have roomy := shows_.takes some_ short
  obtain ⟨slot, slots', answer, -⟩ := (Image.insert_spec shows_ scratch rec).2 roomy
  have ran' : (insertOn scratch id rec).runOn { d.grown alloc p with catalog := told id } =
      (.ok (some ⟨id.toUInt32, slot.toUInt16⟩),
        ({ d.grown alloc p with catalog := told id } : Disk).put id (p.insert scratch rec).2) := by
    have whole : p.insert scratch rec = (some slot, (p.insert scratch rec).2) := Prod.ext answer rfl
    unfold insertOn
    rw [Stateful.runOn_bind_ok (runOn_readPage id _), here, whole]
    rfl
  refine ⟨id, _, _, _, ran, ran', ?_, fun fits => ?_⟩
  · change alloc.pick d.requests d.used :: d.used = _
    rw [isNew]
  · have held : HeapHolds { d.grown alloc p with catalog := told id } id (id :: chain) records :=
      grown.congr fun _ _ => rfl
    obtain ⟨rid, q, ran'', holds'⟩ :=
      insertOn_some scratch held List.mem_cons_self fits (here.symm ▸ roomy)
    obtain ⟨same, sameDisk⟩ := Prod.mk.inj (ran'.symm.trans ran'')
    obtain rfl := Option.some.inj (Except.ok.inj same)
    constructor
    · rw [sameDisk]
      exact holds'
    · exact (takes.withCatalog (told id)).written List.mem_cons_self _
    · rfl
    · exact .inr ⟨id, rfl, rfl⟩

/-- A record goes into a heap, as long as the pages have numbers of 32 bits. -/
theorem heapInsert_spec (scratch : Memory) (holds : HeapHolds d head chain records)
    (owns : Owns d chain) (small : d.Small)
    (tells : ∀ d' : Disk, d'.catalog = d.catalog → ∀ id,
      (onNewHead id).runOn d' = (.ok (), { d' with catalog := told id }))
    (some_ : rec ≠ []) (short : rec.length ≤ kMaxRecordSize)
    (fits : ((heapInsert alloc scratch onNewHead head rec).leaves d).Small) :
    ∃ rid d' chain', (heapInsert alloc scratch onNewHead head rec).runOn d = (.ok rid, d') ∧
      Inserted d chain records told rid rec d' chain' := by
  have checks : (checked (checkThat (rec ≠ [] ∧ rec.length ≤ kMaxRecordSize)
      (bytes "record does not fit in a single page (overflow pages are a later unit)")) :
        DiskM Unit).runOn d = (.ok (), d) := by
    rw [checkThat_true (decide_eq_true ⟨some_, short⟩)]
    rfl
  have starts := holds.starts
  unfold heapInsert at fits ⊢
  rw [Stateful.leaves_bind_ok checks] at fits
  rw [Stateful.runOn_bind_ok checks]
  cases chain with
  | nil =>
    obtain rfl : Storage.kNullPage = head := starts
    obtain ⟨id, d₁, rid, d', ran, ran', used, inserted⟩ :=
      @newPage_insert d Storage.kNullPage [] records rec alloc onNewHead told scratch holds owns
        (by decide) tells some_ short
    have first : (firstPage alloc onNewHead Storage.kNullPage).runOn d = (.ok id, d₁) := by
      rw [firstPage, if_pos rfl]
      exact ran
    rw [Stateful.leaves_bind_ok first, Stateful.leaves_bind_ok ran'] at fits
    rw [Stateful.runOn_bind_ok first, Stateful.runOn_bind_ok ran']
    have ends : id < 2 ^ 32 := fits id (used ▸ List.mem_cons_self)
    exact ⟨rid, d', [id], rfl, inserted ends⟩
  | cons first rest =>
    obtain rfl : first = head := starts
    have real := owns.real first List.mem_cons_self
    have headSmall := small first (owns.used first List.mem_cons_self)
    have ran : (firstPage alloc onNewHead first).runOn d = (.ok first, d) := by
      rw [firstPage, if_neg real]
      rfl
    rw [Stateful.leaves_bind_ok ran] at fits
    rw [Stateful.runOn_bind_ok ran]
    by_cases refused : (d.records first).Refused rec
    · have none_ := insertOn_none scratch holds List.mem_cons_self refused
      obtain ⟨id, d₁, rid, d', ran, ran', used, inserted⟩ :=
        @newPage_insert d first (first :: rest) records rec alloc onNewHead told scratch holds owns
          headSmall tells some_ short
      rw [Stateful.leaves_bind_ok none_] at fits
      rw [Stateful.runOn_bind_ok none_]
      dsimp only at fits ⊢
      rw [Stateful.leaves_bind_ok ran, Stateful.leaves_bind_ok ran'] at fits
      rw [Stateful.runOn_bind_ok ran, Stateful.runOn_bind_ok ran']
      have ends : id < 2 ^ 32 := fits id (used ▸ List.mem_cons_self)
      exact ⟨rid, d', id :: first :: rest, rfl, inserted ends⟩
    · obtain ⟨rid, q, ran', held⟩ :=
        insertOn_some scratch holds List.mem_cons_self headSmall refused
      rw [Stateful.runOn_bind_ok ran']
      refine ⟨rid, _, first :: rest, rfl, held, ?_, rfl, .inl ⟨rfl, rfl⟩⟩
      exact (Takes.refl owns).written List.mem_cons_self q

end Insert

end Labdb.Engine
