import Labdb.Heap.SlotRuns

/-! The link of a page to the next one, which is kept whatever goes on in the slots. -/

namespace Labdb.Heap.Image

open Labdb.Data

variable {p q : Image} {slots : Slots} {rec : List UInt8} {i slot : Nat}

/-- `Page::next_page`. -/
def nextPage (p : Image) : UInt32 := p.load32 16

theorem nextPage_setNextPage (p : Image) (id : UInt32) : (p.setNextPage id).nextPage = id :=
  Memory.load32_store32 id

theorem nextPage_congr (same : ∀ i, 16 ≤ i → i < 20 → q i = p i) : q.nextPage = p.nextPage :=
  Memory.load32_congr same

/-- What a page shows does not depend on its link. -/
theorem Shows.congr (shows_ : Shows p slots) (same : ∀ i, i < 14 ∨ 20 ≤ i → q i = p i) :
    Shows q slots := by
  have header : ∀ at_, at_ + 2 ≤ 14 → q.load16 at_ = p.load16 at_ := fun at_ before =>
    Memory.load16_congr (same _ (.inl (by omega))) (same _ (.inl (by omega)))
  have directory : ∀ at_, 20 ≤ at_ → q.load16 at_ = p.load16 at_ := fun at_ above =>
    Memory.load16_congr (same _ (.inr above)) (same _ (.inr (by omega)))
  have offs : ∀ slot, q.slotOff slot = p.slotOff slot := fun slot =>
    directory _ (by rw [slotPos_eq]; omega)
  have lens : ∀ slot, q.slotLen slot = p.slotLen slot := fun slot =>
    directory _ (by rw [slotPos_eq]; omega)
  have count : q.slotCount = p.slotCount := header 6 (by omega)
  have start : q.freeStart = p.freeStart := header 8 (by omega)
  have end_ : q.freeEnd = p.freeEnd := header 10 (by omega)
  have frag : q.fragBytes = p.fragBytes := header 12 (by omega)
  have room := shows_.room
  constructor
  · rw [count]
    exact shows_.count
  · rw [start]
    exact shows_.start
  · rw [end_]
    exact room
  · rw [end_, frag]
    exact shows_.account
  · intro i dead
    rw [offs]
    exact shows_.dead i dead
  · intro i rec live
    have holds := shows_.live i rec live
    have above := holds.above
    have cell : q.cell (q.slotOff i).toNat rec.length = p.cell (p.slotOff i).toNat rec.length := by
      rw [offs]
      exact Memory.read_congr fun at_ least _ => same at_ (.inr (by omega))
    constructor
    · exact holds.some_
    · rw [lens]
      exact holds.len
    · rw [offs, end_]
      exact above
    · rw [offs]
      exact holds.inside
    · rw [cell]
      exact holds.bytes
  · intro i j rec rec' differ here there
    rw [offs, offs]
    exact shows_.apart i j rec rec' differ here there

theorem Shows.withLink (shows_ : Shows p slots) (id : UInt32) : Shows (p.setNextPage id) slots :=
  shows_.congr fun _ outside => Memory.store32_outside (by omega)

theorem Shows.length_lt (shows_ : Shows p slots) : slots.length < 1020 := by
  have room := shows_.room
  have account := shows_.account
  omega

private theorem put_link (above : 20 ≤ (p.freeEnd - .ofNat rec.length).toNat) (least : 14 ≤ i)
    (most : i < 20) : p.put rec i = p i := by
  rw [put, setFreeEnd, Memory.store16_outside (.inr (by omega)), setCell,
    Memory.write_outside (.inl (by omega))]

theorem compact_link (shows_ : Shows p slots) (scratch : Memory) (least : 14 ≤ i) (most : i < 20) :
    p.compact scratch i = p i := by
  have packed := compact_packed shows_ scratch (Nat.le_refl slots.length)
  have room := shows_.room
  have account := shows_.account
  unfold compact
  rw [shows_.count]
  generalize (List.range slots.length).foldl compactSlot _ = c at packed
  have writePos := packed.writePos
  rw [List.take_length] at writePos
  rw [setFragBytes, Memory.store16_outside (.inr (by omega)), setFreeEnd,
    Memory.store16_outside (.inr (by omega)), setCell, Memory.write_outside (.inl (by omega))]
  exact packed.same i (.inl most)

/-- An insertion keeps the link. -/
theorem Shows.insert_link (shows_ : Shows p slots) (scratch : Memory) (rec : List UInt8) :
    (p.insert scratch rec).2.nextPage = p.nextPage := by
  apply nextPage_congr
  intro i least most
  by_cases refused : p.Refused rec
  · rw [(insert_spec shows_ scratch rec).1 refused]
  rw [insert_eq]
  dsimp only
  rw [Refused, not_or, not_or] at refused
  obtain ⟨some_, short, enough⟩ := refused
  rw [if_neg (not_or.mpr ⟨some_, short⟩), if_neg fun full => enough full.2]
  obtain ⟨roomy, room, -⟩ := room_for shows_ (Nat.not_lt.mp enough) scratch
  have kept : ∀ need, (if p.contiguousFree.toNat < need then p.compact scratch else p) i = p i := by
    intro need
    split
    · exact compact_link shows_ scratch (by omega) most
    · rfl
  replace kept := kept (rec.length + if p.deadSlot.isSome then 0 else kSlotSize)
  generalize (if p.contiguousFree.toNat < _ then p.compact scratch else p) = p' at roomy room kept ⊢
  have small := p'.freeEnd.toNat_lt
  have fits : UInt16.ofNat rec.length ≤ p'.freeEnd := by
    rw [UInt16.le_iff_toNat_le, UInt16.toNat_ofNat_of_lt' (by change _ < 65536; omega)]
    omega
  have above : 20 ≤ (p'.freeEnd - .ofNat rec.length).toNat := by
    rw [UInt16.toNat_sub_of_le _ _ fits, UInt16.toNat_ofNat_of_lt' (by change _ < 65536; omega)]
    omega
  cases p.deadSlot with
  | some slot =>
    dsimp only
    rw [setSlot_outside (by rw [slotPos_eq]; omega), put_link above (by omega) most, kept]
  | none =>
    dsimp only
    rw [setSlot_outside (by rw [slotPos_eq]; omega), setFreeStart,
      Memory.store16_outside (by omega), setSlotCount, Memory.store16_outside (by omega),
      put_link above (by omega) most, kept]

/-- An erasure keeps the link. -/
theorem Shows.erase_link (shows_ : Shows p slots) (slot : Nat) :
    (p.erase slot).2.nextPage = p.nextPage := by
  apply nextPage_congr
  intro i least most
  by_cases isLive : p.live slot = true
  · obtain ⟨rec, here⟩ := (shows_.live_iff slot).mp isLive
    have dead := dead_shows shows_ here
    have given := giveBack_spec (slots.set slot none).length
      ((p.setFragBytes (p.fragBytes + p.slotLen slot)).setSlot slot 0 0)
      (by rw [dead.start]; omega)
    rw [erase, if_pos isLive]
    dsimp only
    rw [dead.count, setSlotCount, Memory.store16_outside (by omega), given.same i (.inr (by omega)),
      setSlot_outside (by rw [slotPos_eq]; omega), setFragBytes, Memory.store16_outside (by omega)]
  · rw [erase, if_neg isLive]

/-- An empty page takes every record that a page can hold. -/
theorem Shows.takes (shows_ : Shows p []) (some_ : rec ≠ []) (short : rec.length ≤ kMaxRecordSize) :
    ¬ p.Refused rec := by
  have account := shows_.account
  have room := shows_.room
  have short_ : rec.length ≤ 4072 := short
  rw [shows_.refused_iff, shows_.total]
  simp only [liveBytes, List.map_nil, List.sum_nil, List.length_nil] at account ⊢
  rintro (none_ | long | full | ⟨-, full⟩)
  · exact some_ none_
  · exact absurd short (Nat.not_le.mpr long)
  · omega
  · omega

end Labdb.Heap.Image
