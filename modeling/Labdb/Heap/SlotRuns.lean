import Labdb.Heap.Slots
import Mathlib.Data.List.Induction

/-! Inserting and erasing records: what each call answers and what the page shows after it, and
from that what any sequence of calls leaves. -/

namespace Labdb.Heap

open Labdb.Data

namespace Image

variable {p q : Image} {slots slots' : Slots} {i j slot : Nat} {rec : List UInt8} {scratch : Memory}

/-- The record of a live slot. -/
def content (slots : Slots) (slot : Nat) : Option (List UInt8) := slots[slot]?.join

private theorem content_set (inRange : slot < slots.length) (new : Option (List UInt8)) (i : Nat) :
    content (slots.set slot new) i = if i = slot then new else content slots i := by
  unfold content
  split
  · rename_i same
    rw [same, List.getElem?_set_self inRange]
    rfl
  · rename_i differ
    rw [List.getElem?_set_ne (Ne.symm differ)]

private theorem content_append (new : Option (List UInt8)) (i : Nat) :
    content (slots ++ [new]) i = if i = slots.length then new else content slots i := by
  unfold content
  split
  · rename_i same
    rw [same, List.getElem?_concat_length]
    rfl
  · rename_i differ
    rcases Nat.lt_or_ge i slots.length with inRange | beyond
    · rw [List.getElem?_append_left inRange]
    · rw [List.getElem?_eq_none (by rw [List.length_append, List.length_singleton]; omega),
        List.getElem?_eq_none beyond]

section Space

private theorem Shows.contiguous (shows_ : Shows p slots) :
    p.contiguousFree.toNat = p.freeEnd.toNat - (20 + 4 * slots.length) := by
  have room := shows_.room
  have start := shows_.start
  have ordered : p.freeStart.toUInt64 ≤ p.freeEnd.toUInt64 := by
    rw [UInt64.le_iff_toNat_le, UInt16.toNat_toUInt64, UInt16.toNat_toUInt64]
    omega
  rw [contiguousFree, UInt64.toNat_sub_of_le _ _ ordered, UInt16.toNat_toUInt64,
    UInt16.toNat_toUInt64, start]

theorem Shows.total (shows_ : Shows p slots) :
    p.totalFree.toNat = p.freeEnd.toNat - (20 + 4 * slots.length) + p.fragBytes.toNat := by
  have account := shows_.account
  rw [totalFree, UInt64.toNat_add, shows_.contiguous, UInt16.toNat_toUInt64]
  omega

private theorem Shows.dead_iff (shows_ : Shows p slots) (inRange : i < slots.length) :
    p.slotOff i = 0 ↔ slots[i]? = some none := by
  refine ⟨fun zero => ?_, shows_.dead i⟩
  have here : slots[i]? = some slots[i] := List.getElem?_eq_getElem inRange
  cases isSlot : slots[i] with
  | none => rw [here, isSlot]
  | some rec =>
    rw [isSlot] at here
    have above := (shows_.live i rec here).above
    have room := shows_.room
    rw [zero] at above
    have least : 20 ≤ (0 : UInt16).toNat := by omega
    cases least

/-- The first dead slot, if there is one. -/
theorem Shows.deadSlot_spec (shows_ : Shows p slots) :
    (∃ slot, p.deadSlot = some slot ∧ slots[slot]? = some none) ∨
      (p.deadSlot = none ∧ ∀ slot : Nat, slots[slot]? ≠ some none) := by
  cases found : p.deadSlot with
  | some slot =>
    rw [deadSlot, shows_.count] at found
    have inRange := List.mem_range.mp (List.mem_of_find?_eq_some found)
    have zero := of_decide_eq_true (List.find?_some (p := fun slot => decide (p.slotOff slot = 0)) found)
    exact .inl ⟨slot, rfl, (shows_.dead_iff inRange).mp zero⟩
  | none =>
    rw [deadSlot, shows_.count, List.find?_eq_none] at found
    refine .inr ⟨rfl, fun slot isDead => ?_⟩
    obtain ⟨inRange, -⟩ := List.getElem?_eq_some_iff.mp isDead
    exact found slot (List.mem_range.mpr inRange) (decide_eq_true (shows_.dead slot isDead))

end Space

section Insert

/-- A record below the cells, and a slot for it. -/
theorem Shows.placed (shows_ : Shows p slots) (some_ : rec ≠ [])
    (room : 20 + 4 * slots'.length + rec.length ≤ p.freeEnd.toNat)
    (count : q.slotCount.toNat = slots'.length) (start : q.freeStart.toNat = 20 + 4 * slots'.length)
    (end_ : q.freeEnd.toNat + rec.length = p.freeEnd.toNat) (frag : q.fragBytes = p.fragBytes)
    (total : liveBytes slots' = liveBytes slots + rec.length)
    (here : slots'[slot]? = some (some rec)) (others : ∀ i ≠ slot, slots'[i]? = slots[i]?)
    (off : q.slotOff slot = q.freeEnd) (len : (q.slotLen slot).toNat = rec.length)
    (offs : ∀ i < slots'.length, i ≠ slot → q.slotOff i = p.slotOff i)
    (lens : ∀ i < slots'.length, i ≠ slot → q.slotLen i = p.slotLen i)
    (bytes : q.cell q.freeEnd.toNat rec.length = rec)
    (cells : ∀ i, p.freeEnd.toNat ≤ i → q i = p i) : Shows q slots' := by
  have account := shows_.account
  have old : ∀ i rec', i ≠ slot → slots'[i]? = some (some rec') → p.Holds i rec' := by
    intro i rec' differ isLive
    exact shows_.live i rec' ((others i differ).symm.trans isLive)
  have inRange : ∀ i slot', slots'[i]? = some slot' → i < slots'.length := fun i slot' isSlot =>
    (List.getElem?_eq_some_iff.mp isSlot).1
  refine ⟨count, start, by omega, ?_, fun i isDead => ?_, fun i rec' isLive => ?_, ?_⟩
  · rw [frag]
    omega
  · have differ : i ≠ slot := by
      rintro rfl
      cases here.symm.trans isDead
    rw [offs i (inRange i _ isDead) differ]
    exact shows_.dead i ((others i differ).symm.trans isDead)
  · by_cases differ : i = slot
    · subst differ
      cases here.symm.trans isLive
      refine ⟨some_, len, ?_, ?_, ?_⟩
      · exact Nat.le_of_eq (congrArg UInt16.toNat off.symm)
      · rw [off]
        omega
      · rw [off, bytes]
    · have holds := old i rec' differ isLive
      have above := holds.above
      have offs_eq := offs i (inRange i _ isLive) differ
      refine ⟨holds.some_, ?_, ?_, ?_, ?_⟩
      · rw [lens i (inRange i _ isLive) differ, holds.len]
      · rw [offs_eq]
        omega
      · rw [offs_eq]
        exact holds.inside
      · rw [offs_eq]
        refine Eq.trans (Memory.read_congr fun a least _ => cells a (by omega)) holds.bytes
  · intro i j rec₁ rec₂ differ isLive isLive'
    by_cases first : i = slot
    · subst first
      cases here.symm.trans isLive
      have above := (old j rec₂ (Ne.symm differ) isLive').above
      rw [off, offs j (inRange j _ isLive') (Ne.symm differ)]
      left
      omega
    · by_cases second : j = slot
      · subst second
        cases here.symm.trans isLive'
        have above := (old i rec₁ differ isLive).above
        rw [off, offs i (inRange i _ isLive) differ]
        right
        omega
      · rw [offs i (inRange i _ isLive) first, offs j (inRange j _ isLive') second]
        exact shows_.apart i j rec₁ rec₂ differ ((others i first).symm.trans isLive)
          ((others j second).symm.trans isLive')

/-- The page after a record's bytes were put below the cells. -/
def put (p : Image) (rec : List UInt8) : Image :=
  (p.setCell (p.freeEnd - .ofNat rec.length).toNat rec).setFreeEnd (p.freeEnd - .ofNat rec.length)

structure Put (p : Image) (rec : List UInt8) (q : Image) : Prop where
  end_ : q.freeEnd.toNat + rec.length = p.freeEnd.toNat
  header : ∀ at_, at_ + 2 ≤ 10 ∨ 12 ≤ at_ ∧ at_ + 2 ≤ 20 → q.load16 at_ = p.load16 at_
  directory : ∀ i, 20 ≤ i → i < q.freeEnd.toNat → q i = p i
  bytes : q.cell q.freeEnd.toNat rec.length = rec
  cells : ∀ i, p.freeEnd.toNat ≤ i → q i = p i

private theorem put_spec (room : 20 + rec.length ≤ p.freeEnd.toNat) : Put p rec (p.put rec) := by
  have small := p.freeEnd.toNat_lt
  have len_eq : (UInt16.ofNat rec.length).toNat = rec.length := UInt16.toNat_ofNat_of_lt' (by change _ < 65536; omega)
  have fits : UInt16.ofNat rec.length ≤ p.freeEnd := UInt16.le_iff_toNat_le.mpr (by omega)
  have off_eq : (p.freeEnd - .ofNat rec.length).toNat = p.freeEnd.toNat - rec.length := by
    rw [UInt16.toNat_sub_of_le _ _ fits, len_eq]
  have end_ : (p.put rec).freeEnd = p.freeEnd - .ofNat rec.length := Memory.load16_store16 _
  refine ⟨?_, fun at_ inHeader => ?_, fun i above before => ?_, ?_, fun i above => ?_⟩
  · rw [end_, off_eq]
    omega
  · rw [put, setFreeEnd, Memory.load16_store16_of_disjoint (by omega), setCell,
      Memory.load16_write (.inl (by omega))]
  · rw [end_, off_eq] at before
    rw [put, setFreeEnd, Memory.store16_outside (.inr (by omega)), setCell,
      Memory.write_outside (.inl (by omega))]
  · rw [end_, put, setFreeEnd, cell_store (by omega) (by omega)]
    exact Memory.read_write
  · rw [put, setFreeEnd, Memory.store16_outside (.inr (by omega)), setCell,
      Memory.write_outside (.inr (by omega))]

/-- Why a record is refused. -/
def Refused (p : Image) (rec : List UInt8) : Prop :=
  rec = [] ∨ kMaxRecordSize < rec.length ∨
    p.totalFree.toNat < rec.length + if p.deadSlot.isSome then 0 else kSlotSize

/-- Room for the record, with its slot, between the directory and the cells. -/
theorem room_for (shows_ : Shows p slots) {need : Nat} (enough : need ≤ p.totalFree.toNat) (scratch : Memory) :
    let p' := if p.contiguousFree.toNat < need then p.compact scratch else p
    Shows p' slots ∧ 20 + 4 * slots.length + need ≤ p'.freeEnd.toNat ∧ ∀ i, 4096 ≤ i → p' i = p i := by
  have room := shows_.room
  have account := shows_.account
  rw [shows_.total] at enough
  rw [shows_.contiguous]
  dsimp only
  split
  · obtain ⟨compacted, frag, outside⟩ := compact_shows shows_ scratch
    have account' := compacted.account
    rw [frag] at account'
    change _ + _ + 0 = 4096 at account'
    exact ⟨compacted, by omega, outside⟩
  · exact ⟨shows_, by omega, fun _ _ => rfl⟩

theorem insert_eq (scratch : Memory) (p : Image) (rec : List UInt8) :
    p.insert scratch rec =
      let need := rec.length + if p.deadSlot.isSome then 0 else kSlotSize
      if rec = [] ∨ kMaxRecordSize < rec.length then (none, p)
      else if p.contiguousFree.toNat < need ∧ p.totalFree.toNat < need then (none, p)
      else
        let p' := if p.contiguousFree.toNat < need then p.compact scratch else p
        let off := p'.freeEnd - .ofNat rec.length
        match p.deadSlot with
        | some slot => (some slot, (p'.put rec).setSlot slot off (.ofNat rec.length))
        | none =>
          let q := (p'.put rec).setSlotCount (p.slotCount + 1)
          (some p.slotCount.toNat, (q.setFreeStart (q.freeStart + .ofNat kSlotSize)).setSlot
            p.slotCount.toNat off (.ofNat rec.length)) := by
  unfold insert
  dsimp only
  split
  · rfl
  · rename_i fits
    have short : rec.length ≤ 4072 := by
      rw [not_or, Nat.not_lt] at fits
      exact fits.2
    have need_eq : ((UInt16.ofNat rec.length).toUInt64 +
        (if p.deadSlot.isSome = true then 0 else .ofNat kSlotSize)).toNat =
          rec.length + if p.deadSlot.isSome then 0 else kSlotSize := by
      have len_eq : (UInt16.ofNat rec.length).toNat = rec.length :=
        UInt16.toNat_ofNat_of_lt' (by change _ < 65536; omega)
      rw [UInt64.toNat_add, UInt16.toNat_toUInt64, len_eq]
      split
      · change (rec.length + 0) % 2 ^ 64 = rec.length + 0
        omega
      · change (rec.length + 4) % 2 ^ 64 = rec.length + 4
        omega
    simp only [UInt64.lt_iff_toNat_lt, need_eq]
    rfl

private theorem put_slot (put_ : Put p rec q) (below : slotPos i + 4 ≤ q.freeEnd.toNat) :
    q.slotOff i = p.slotOff i ∧ q.slotLen i = p.slotLen i := by
  rw [slotPos_eq] at below
  constructor
  · exact Memory.load16_congr (put_.directory _ (by rw [slotPos_eq]; omega) (by rw [slotPos_eq]; omega))
      (put_.directory _ (by rw [slotPos_eq]; omega) (by rw [slotPos_eq]; omega))
  · exact Memory.load16_congr (put_.directory _ (by rw [slotPos_eq]; omega) (by rw [slotPos_eq]; omega))
      (put_.directory _ (by rw [slotPos_eq]; omega) (by rw [slotPos_eq]; omega))

/-- The record in a dead slot. -/
theorem reuse_shows (shows_ : Shows p slots) (isDead : slots[slot]? = some none) (some_ : rec ≠ [])
    (room : 20 + 4 * slots.length + rec.length ≤ p.freeEnd.toNat) :
    Shows ((p.put rec).setSlot slot (p.freeEnd - .ofNat rec.length) (.ofNat rec.length))
      (slots.set slot (some rec)) := by
  have put_ := @put_spec p rec (by omega)
  obtain ⟨inRange, -⟩ := List.getElem?_eq_some_iff.mp isDead
  have account := shows_.account
  have end_ := put_.end_
  have end_eq : (p.put rec).freeEnd = p.freeEnd - .ofNat rec.length := Memory.load16_store16 _
  have len_eq : (UInt16.ofNat rec.length).toNat = rec.length :=
    UInt16.toNat_ofNat_of_lt' (by change _ < 65536; omega)
  have total := liveBytes_set isDead (some rec)
  obtain ⟨q, q_eq⟩ : ∃ q, q = (p.put rec).setSlot slot (p.freeEnd - .ofNat rec.length)
    (.ofNat rec.length) := ⟨_, rfl⟩
  have header : ∀ at_, at_ + 2 ≤ 20 → q.load16 at_ = (p.put rec).load16 at_ := fun at_ inHeader => by
    rw [q_eq, header_setSlot inHeader]
  have end_q : q.freeEnd = (p.put rec).freeEnd := header 10 (by omega)
  rw [← q_eq]
  refine @Shows.placed p q slots _ slot rec shows_ some_ ?_ ?_ ?_ ?_ ?_ total ?_ ?_ ?_ ?_ ?_ ?_ ?_ ?_
  · rwa [List.length_set]
  · rw [List.length_set, ← shows_.count]
    exact congrArg UInt16.toNat ((header 6 (by omega)).trans (put_.header 6 (by omega)))
  · rw [List.length_set, ← shows_.start]
    exact congrArg UInt16.toNat ((header 8 (by omega)).trans (put_.header 8 (by omega)))
  · rwa [end_q]
  · exact (header 12 (by omega)).trans (put_.header 12 (by omega))
  · rw [List.getElem?_set_self inRange]
  · exact fun i differ => List.getElem?_set_ne (Ne.symm differ)
  · rw [end_q, end_eq, q_eq, slotOff_setSlot]
  · rw [q_eq, slotLen_setSlot, len_eq]
  · intro i inRange' differ
    rw [List.length_set] at inRange'
    rw [q_eq, slotOff_setSlot_ne differ, (put_slot put_ (by rw [slotPos_eq]; omega)).1]
  · intro i inRange' differ
    rw [List.length_set] at inRange'
    rw [q_eq, slotLen_setSlot_ne differ, (put_slot put_ (by rw [slotPos_eq]; omega)).2]
  · rw [end_q, q_eq, cell_setSlot (by rw [slotPos_eq]; omega), put_.bytes]
  · intro i above
    rw [q_eq, setSlot_outside (by rw [slotPos_eq]; omega), put_.cells i above]

/-- The record in a new slot. -/
theorem append_shows (shows_ : Shows p slots) (some_ : rec ≠ [])
    (room : 24 + 4 * slots.length + rec.length ≤ p.freeEnd.toNat) :
    Shows (((((p.put rec).setSlotCount (p.slotCount + 1)).setFreeStart
        (((p.put rec).setSlotCount (p.slotCount + 1)).freeStart + .ofNat kSlotSize)).setSlot
      p.slotCount.toNat (p.freeEnd - .ofNat rec.length) (.ofNat rec.length)))
      (slots ++ [some rec]) := by
  have put_ := @put_spec p rec (by omega)
  have account := shows_.account
  have end_ := put_.end_
  have count := shows_.count
  have start := shows_.start
  have end_eq : (p.put rec).freeEnd = p.freeEnd - .ofNat rec.length := Memory.load16_store16 _
  have len_eq : (UInt16.ofNat rec.length).toNat = rec.length :=
    UInt16.toNat_ofNat_of_lt' (by change _ < 65536; omega)
  have start_eq : ((p.put rec).setSlotCount (p.slotCount + 1)).freeStart = p.freeStart := by
    rw [freeStart, setSlotCount, Memory.load16_store16_of_disjoint (by omega), put_.header 8 (by omega),
      freeStart]
  rw [start_eq, count]
  obtain ⟨q, q_eq⟩ : ∃ q, q = (((p.put rec).setSlotCount (p.slotCount + 1)).setFreeStart
    (p.freeStart + .ofNat kSlotSize)).setSlot slots.length (p.freeEnd - .ofNat rec.length)
      (.ofNat rec.length) := ⟨_, rfl⟩
  have end_q : q.freeEnd = (p.put rec).freeEnd := by
    rw [q_eq, freeEnd, header_setSlot (by omega), setFreeStart, Memory.load16_store16_of_disjoint (by omega),
      setSlotCount, Memory.load16_store16_of_disjoint (by omega), freeEnd]
  have here : (slots ++ [some rec])[slots.length]? = some (some rec) := by simp
  rw [← q_eq]
  refine @Shows.placed p q slots _ slots.length rec shows_ some_ ?_ ?_ ?_ ?_ ?_ ?_ here ?_ ?_ ?_ ?_ ?_ ?_ ?_
  · rw [List.length_append, List.length_singleton]
    omega
  · rw [q_eq, slotCount, header_setSlot (by omega), setFreeStart,
      Memory.load16_store16_of_disjoint (by omega), setSlotCount, Memory.load16_store16,
      UInt16.toNat_add, count, List.length_append, List.length_singleton]
    change (slots.length + 1) % 65536 = _
    omega
  · rw [q_eq, freeStart, header_setSlot (by omega), setFreeStart, Memory.load16_store16,
      UInt16.toNat_add, start, List.length_append, List.length_singleton]
    change (20 + 4 * slots.length + 4) % 65536 = _
    omega
  · rwa [end_q]
  · rw [q_eq, fragBytes, header_setSlot (by omega), setFreeStart,
      Memory.load16_store16_of_disjoint (by omega), setSlotCount,
      Memory.load16_store16_of_disjoint (by omega), put_.header 12 (by omega), fragBytes]
  · rw [liveBytes_append, liveBytes_singleton]
    rfl
  · intro i differ
    rcases Nat.lt_or_ge i slots.length with inRange | beyond
    · exact List.getElem?_append_left inRange
    · rw [List.getElem?_eq_none (by rw [List.length_append, List.length_singleton]; omega),
        List.getElem?_eq_none beyond]
  · rw [end_q, end_eq, q_eq, slotOff_setSlot]
  · rw [q_eq, slotLen_setSlot, len_eq]
  · intro i inRange differ
    rw [List.length_append, List.length_singleton] at inRange
    rw [q_eq, slotOff_setSlot_ne differ, setFreeStart, slotOff_store (by omega), setSlotCount,
      slotOff_store (by omega), (put_slot put_ (by rw [slotPos_eq]; omega)).1]
  · intro i inRange differ
    rw [List.length_append, List.length_singleton] at inRange
    rw [q_eq, slotLen_setSlot_ne differ, setFreeStart, slotLen_store (by omega), setSlotCount,
      slotLen_store (by omega), (put_slot put_ (by rw [slotPos_eq]; omega)).2]
  · rw [end_q, q_eq, cell_setSlot (by rw [slotPos_eq]; omega), setFreeStart,
      cell_store (by omega) (by omega), setSlotCount, cell_store (by omega) (by omega), put_.bytes]
  · intro i above
    rw [q_eq, setSlot_outside (by rw [slotPos_eq]; omega), setFreeStart,
      Memory.store16_outside (by omega), setSlotCount, Memory.store16_outside (by omega),
      put_.cells i above]

/-- What an insertion answers, and what the page shows then. -/
theorem insert_spec (shows_ : Shows p slots) (scratch : Memory) (rec : List UInt8) :
    (p.Refused rec → p.insert scratch rec = (none, p)) ∧
      (¬ p.Refused rec → ∃ slot slots', (p.insert scratch rec).1 = some slot ∧
        Shows (p.insert scratch rec).2 slots' ∧ content slots slot = none ∧
        (∀ i, content slots' i = if i = slot then some rec else content slots i) ∧
        ∀ i, 4096 ≤ i → (p.insert scratch rec).2 i = p i) := by
  rw [insert_eq]
  dsimp only
  constructor
  · intro refused
    by_cases fits : rec = [] ∨ kMaxRecordSize < rec.length
    · rw [if_pos fits]
    · have full := (refused.resolve_left fun none_ => fits (.inl none_)).resolve_left
        fun long => fits (.inr long)
      have contiguous := shows_.contiguous
      have total := shows_.total
      rw [if_neg fits, if_pos ⟨by omega, full⟩]
  · intro accepted
    rw [Refused, not_or, not_or] at accepted
    obtain ⟨some_, short, enough⟩ := accepted
    rw [if_neg (not_or.mpr ⟨some_, short⟩), if_neg fun full => enough full.2]
    obtain ⟨roomy, room, outside⟩ := room_for shows_ (Nat.not_lt.mp enough) scratch
    generalize (if p.contiguousFree.toNat < _ then p.compact scratch else p) = p' at roomy room outside ⊢
    rcases shows_.deadSlot_spec with ⟨slot, found, isDead⟩ | ⟨none_, alive⟩
    · rw [found] at room ⊢
      refine ⟨slot, _, rfl, reuse_shows roomy isDead some_ room, ?_, fun i => ?_, fun i above => ?_⟩
      · rw [content, isDead]
        rfl
      · exact content_set (List.getElem?_eq_some_iff.mp isDead).1 _ i
      · obtain ⟨inRange, -⟩ := List.getElem?_eq_some_iff.mp isDead
        have account := roomy.account
        change ((p'.put rec).setSlot slot _ _) i = p i
        rw [setSlot_outside (by rw [slotPos_eq]; omega),
          (@put_spec p' rec (by omega)).cells i (by omega), outside i above]
    · rw [none_] at room ⊢
      change 20 + 4 * slots.length + (rec.length + 4) ≤ _ at room
      have count_eq : p.slotCount = p'.slotCount := by
        rw [← UInt16.toNat_inj, shows_.count, roomy.count]
      have account := roomy.account
      rw [count_eq]
      refine ⟨p'.slotCount.toNat, _, rfl, append_shows roomy some_ (by omega), ?_, fun i => ?_,
        fun i above => ?_⟩
      · rw [roomy.count, content, List.getElem?_eq_none (Nat.le_refl _)]
        rfl
      · rw [roomy.count]
        exact content_append _ i
      · dsimp only
        rw [roomy.count, setSlot_outside (by rw [slotPos_eq]; omega), setFreeStart,
          Memory.store16_outside (by omega), setSlotCount, Memory.store16_outside (by omega),
          (@put_spec p' rec (by omega)).cells i (by omega), outside i above]

end Insert

section Erase

/-- Dead slots at the end of the directory, given back: only `free_start` changes. -/
structure GivenBack (n : Nat) (p : Image) (m : Nat) (q : Image) : Prop where
  le : m ≤ n
  dead : ∀ i, m ≤ i → i < n → p.slotOff i = 0
  start : q.freeStart.toNat + 4 * n = p.freeStart.toNat + 4 * m
  same : ∀ i, i < 8 ∨ 10 ≤ i → q i = p i

theorem giveBack_spec (n : Nat) (p : Image) (start : 4 * n ≤ p.freeStart.toNat) :
    GivenBack n p (giveBack n p).1 (giveBack n p).2 := by
  induction n generalizing p with
  | zero => exact ⟨Nat.le_refl 0, fun i _ inRange => absurd inRange (Nat.not_lt_zero i), rfl, fun _ _ => rfl⟩
  | succ n ih =>
    rw [giveBack]
    split
    · rename_i isDead
      have fits : UInt16.ofNat kSlotSize ≤ p.freeStart := by
        rw [UInt16.le_iff_toNat_le]
        change 4 ≤ _
        omega
      have start_eq : (p.setFreeStart (p.freeStart - .ofNat kSlotSize)).freeStart.toNat =
          p.freeStart.toNat - 4 := by
        rw [setFreeStart, freeStart, Memory.load16_store16]
        exact UInt16.toNat_sub_of_le _ _ fits
      have given := ih (p.setFreeStart (p.freeStart - .ofNat kSlotSize)) (by rw [start_eq]; omega)
      have start' := given.start
      rw [start_eq] at start'
      refine ⟨Nat.le_succ_of_le given.le, fun i above before => ?_, by omega, fun i outside => ?_⟩
      · rcases Nat.lt_succ_iff_lt_or_eq.mp before with earlier | rfl
        · have isDead' := given.dead i above earlier
          rwa [setFreeStart, slotOff_store (by omega)] at isDead'
        · exact isDead
      · rw [given.same i outside, setFreeStart, Memory.store16_outside (by omega)]
    · exact ⟨Nat.le_refl _, fun i above before => absurd before (Nat.not_lt.mpr above), rfl,
        fun _ _ => rfl⟩

theorem Shows.live_iff (shows_ : Shows p slots) (slot : Nat) :
    p.live slot = true ↔ ∃ rec, slots[slot]? = some (some rec) := by
  rw [Image.live, decide_eq_true_iff, shows_.count]
  constructor
  · rintro ⟨inRange, some_⟩
    have here : slots[slot]? = some slots[slot] := List.getElem?_eq_getElem inRange
    cases isSlot : slots[slot] with
    | none =>
      rw [isSlot] at here
      exact absurd (shows_.dead slot here) some_
    | some rec => exact ⟨rec, by rw [here, isSlot]⟩
  · rintro ⟨rec, isLive⟩
    obtain ⟨inRange, -⟩ := List.getElem?_eq_some_iff.mp isLive
    refine ⟨inRange, fun zero => ?_⟩
    cases ((shows_.dead_iff inRange).mp zero).symm.trans isLive

/-- The page with a dead slot more. -/
theorem dead_shows (shows_ : Shows p slots) (isLive : slots[slot]? = some (some rec)) :
    Shows ((p.setFragBytes (p.fragBytes + p.slotLen slot)).setSlot slot 0 0) (slots.set slot none) := by
  obtain ⟨inRange, -⟩ := List.getElem?_eq_some_iff.mp isLive
  have holds := shows_.live slot rec isLive
  have account := shows_.account
  have room := shows_.room
  have len := holds.len
  have total := liveBytes_set isLive none
  change _ + rec.length = _ + 0 at total
  have header : ∀ at_, at_ + 2 ≤ 12 →
      ((p.setFragBytes (p.fragBytes + p.slotLen slot)).setSlot slot 0 0).load16 at_ = p.load16 at_ := by
    intro at_ inHeader
    rw [header_setSlot (by omega), setFragBytes, Memory.load16_store16_of_disjoint (by omega)]
  obtain ⟨q, q_eq⟩ : ∃ q, q = (p.setFragBytes (p.fragBytes + p.slotLen slot)).setSlot slot 0 0 := ⟨_, rfl⟩
  rw [← q_eq] at header ⊢
  have frag : q.fragBytes.toNat = p.fragBytes.toNat + rec.length := by
    rw [q_eq, fragBytes, header_setSlot (by omega), setFragBytes, Memory.load16_store16,
      UInt16.toNat_add, len]
    omega
  have end_ : q.freeEnd = p.freeEnd := header 10 (by omega)
  have off_eq : ∀ i ≠ slot, q.slotOff i = p.slotOff i := fun i differ => by
    rw [q_eq, slotOff_setSlot_ne differ, setFragBytes, slotOff_store (by omega)]
  have len_eq : ∀ i ≠ slot, q.slotLen i = p.slotLen i := fun i differ => by
    rw [q_eq, slotLen_setSlot_ne differ, setFragBytes, slotLen_store (by omega)]
  have other : ∀ i rec', (slots.set slot none)[i]? = some (some rec') →
      i ≠ slot ∧ slots[i]? = some (some rec') := by
    intro i rec' isLive'
    have differ : i ≠ slot := by
      rintro rfl
      rw [List.getElem?_set_self inRange] at isLive'
      cases isLive'
    rw [List.getElem?_set_ne (Ne.symm differ)] at isLive'
    exact ⟨differ, isLive'⟩
  refine ⟨?_, ?_, ?_, ?_, fun i isDead => ?_, fun i rec' isLive' => ?_, ?_⟩
  · rw [List.length_set, ← shows_.count]
    exact congrArg UInt16.toNat (header 6 (by omega))
  · rw [List.length_set, ← shows_.start]
    exact congrArg UInt16.toNat (header 8 (by omega))
  · rwa [List.length_set, end_]
  · rw [end_, frag]
    omega
  · by_cases same : i = slot
    · rw [same, q_eq, slotOff_setSlot]
    · rw [List.getElem?_set_ne (Ne.symm same)] at isDead
      rw [off_eq i same]
      exact shows_.dead i isDead
  · obtain ⟨differ, isLive'⟩ := other i rec' isLive'
    have holds' := shows_.live i rec' isLive'
    have above := holds'.above
    refine ⟨holds'.some_, ?_, ?_, ?_, ?_⟩
    · rw [len_eq i differ, holds'.len]
    · rwa [off_eq i differ, end_]
    · rw [off_eq i differ]
      exact holds'.inside
    · rw [off_eq i differ, q_eq, cell_setSlot (by rw [slotPos_eq]; omega), setFragBytes,
        cell_store (by omega) (by omega), holds'.bytes]
  · intro i j rec₁ rec₂ differ isLive₁ isLive₂
    obtain ⟨differ₁, isLive₁⟩ := other i rec₁ isLive₁
    obtain ⟨differ₂, isLive₂⟩ := other j rec₂ isLive₂
    rw [off_eq i differ₁, off_eq j differ₂]
    exact shows_.apart i j rec₁ rec₂ differ isLive₁ isLive₂

/-- The page with the dead slots at the end of its directory given back. -/
theorem giveBack_shows (shows_ : Shows p slots) {m : Nat} {q : Image}
    (given : GivenBack slots.length p m q) :
    Shows (q.setSlotCount (.ofNat m)) (slots.take m) ∧
      (∀ i, content (slots.take m) i = content slots i) ∧
      ∀ i, 4096 ≤ i → q.setSlotCount (.ofNat m) i = p i := by
  have le := given.le
  have room := shows_.room
  have account := shows_.account
  have start := given.start
  have small := p.freeEnd.toNat_lt
  rw [shows_.start] at start
  have bytes : ∀ i, 10 ≤ i → q.setSlotCount (.ofNat m) i = p i := fun i above => by
    rw [setSlotCount, Memory.store16_outside (by omega), given.same i (.inr above)]
  have load_eq : ∀ at_, 10 ≤ at_ → (q.setSlotCount (.ofNat m)).load16 at_ = p.load16 at_ :=
    fun at_ above => Memory.load16_congr (bytes _ above) (bytes _ (by omega))
  have take_ : ∀ (i : Nat) slot, (slots.take m)[i]? = some slot → slots[i]? = some slot := by
    intro i slot isSlot
    obtain ⟨inRange, -⟩ := List.getElem?_eq_some_iff.mp isSlot
    rw [List.length_take] at inRange
    rwa [List.getElem?_take_of_lt (by omega)] at isSlot
  have contents : ∀ i, content (slots.take m) i = content slots i := by
    intro i
    unfold content
    rcases Nat.lt_or_ge i m with before | above
    · rw [List.getElem?_take_of_lt before]
    · rw [List.getElem?_eq_none (by rw [List.length_take]; omega)]
      rcases Nat.lt_or_ge i slots.length with inRange | beyond
      · rw [(shows_.dead_iff inRange).mp (given.dead i above inRange)]
        rfl
      · rw [List.getElem?_eq_none beyond]
  have total : liveBytes (slots.take m) = liveBytes slots := by
    have gone : liveBytes (slots.drop m) = 0 := by
      refine List.sum_eq_zero_iff_forall_eq_nat.mpr ?_
      intro length member
      obtain ⟨slot, dropped, rfl⟩ := List.mem_map.mp member
      obtain ⟨i, inRange, rfl⟩ := List.mem_iff_getElem.mp dropped
      rw [List.length_drop] at inRange
      have isDead := (shows_.dead_iff (by omega)).mp (given.dead (m + i) (by omega) (by omega))
      obtain ⟨_, isNone⟩ := List.getElem?_eq_some_iff.mp isDead
      rw [List.getElem_drop, isNone]
      rfl
    have split := liveBytes_append (slots.take m) (slots.drop m)
    rw [List.take_append_drop, gone] at split
    omega
  refine ⟨⟨?_, ?_, ?_, ?_, fun i isDead => ?_, fun i rec isLive => ?_, ?_⟩, contents,
    fun i above => bytes i (by omega)⟩
  · rw [slotCount, setSlotCount, Memory.load16_store16, List.length_take, Nat.min_eq_left le]
    exact UInt16.toNat_ofNat_of_lt' (by change _ < 65536; omega)
  · rw [freeStart, setSlotCount, Memory.load16_store16_of_disjoint (by omega), List.length_take,
      Nat.min_eq_left le]
    change q.freeStart.toNat = _
    omega
  · rw [freeEnd, load_eq 10 (by omega), List.length_take]
    change _ ≤ p.freeEnd.toNat
    omega
  · rw [freeEnd, fragBytes, load_eq 10 (by omega), load_eq 12 (by omega), total]
    exact account
  · rw [slotOff, load_eq _ (by rw [slotPos_eq]; omega)]
    exact shows_.dead i (take_ i _ isDead)
  · have holds := shows_.live i rec (take_ i _ isLive)
    have above := holds.above
    have off_eq : (q.setSlotCount (.ofNat m)).slotOff i = p.slotOff i :=
      load_eq _ (by rw [slotPos_eq]; omega)
    refine ⟨holds.some_, ?_, ?_, ?_, ?_⟩
    · rw [slotLen, load_eq _ (by rw [slotPos_eq]; omega)]
      exact holds.len
    · rw [off_eq, freeEnd, load_eq 10 (by omega)]
      exact above
    · rw [off_eq]
      exact holds.inside
    · rw [off_eq]
      refine Eq.trans (Memory.read_congr fun a _ _ => ?_) holds.bytes
      exact bytes a (by omega)
  · intro i j rec rec' differ isLive isLive'
    rw [slotOff, slotOff, load_eq _ (by rw [slotPos_eq]; omega), load_eq _ (by rw [slotPos_eq]; omega)]
    exact shows_.apart i j rec rec' differ (take_ i _ isLive) (take_ j _ isLive')

/-- What an erasure answers, and what the page shows then. -/
theorem erase_spec (shows_ : Shows p slots) (slot : Nat) :
    ((p.erase slot).1 = true ↔ content slots slot ≠ none) ∧
      ∃ slots', Shows (p.erase slot).2 slots' ∧
        (∀ i, content slots' i = if i = slot then none else content slots i) ∧
        ∀ i, 4096 ≤ i → (p.erase slot).2 i = p i := by
  by_cases isLive : p.live slot = true
  · obtain ⟨rec, here⟩ := (shows_.live_iff slot).mp isLive
    obtain ⟨inRange, -⟩ := List.getElem?_eq_some_iff.mp here
    have dead := dead_shows shows_ here
    obtain ⟨q, q_eq⟩ : ∃ q, q = (p.setFragBytes (p.fragBytes + p.slotLen slot)).setSlot slot 0 0 :=
      ⟨_, rfl⟩
    rw [← q_eq] at dead
    have erased : p.erase slot = (true, (giveBack (slots.set slot none).length q).2.setSlotCount
        (.ofNat (giveBack (slots.set slot none).length q).1)) := by
      rw [erase, if_pos isLive]
      dsimp only
      rw [← q_eq, dead.count]
    have given := giveBack_spec (slots.set slot none).length q (by rw [dead.start]; omega)
    obtain ⟨shown, contents, outside⟩ := giveBack_shows dead given
    have account := shows_.account
    have room := shows_.room
    rw [erased]
    have isContent : content slots slot ≠ none := by
      rw [content, here]
      exact Option.some_ne_none rec
    refine ⟨⟨fun _ => isContent, fun _ => rfl⟩, _, shown, fun i => ?_, fun i above => ?_⟩
    · rw [contents, content_set inRange]
    · refine (outside i above).trans ?_
      rw [q_eq, setSlot_outside (by rw [slotPos_eq]; omega), setFragBytes,
        Memory.store16_outside (by omega)]
  · have unchanged : p.erase slot = (false, p) := by
      rw [erase, if_neg isLive]
    have none_ : content slots slot = none := by
      by_contra some_
      obtain ⟨rec, isSome⟩ := Option.ne_none_iff_exists'.mp some_
      exact isLive ((shows_.live_iff slot).mpr ⟨rec, Option.join_eq_some_iff.mp isSome⟩)
    rw [unchanged]
    refine ⟨⟨fun done => absurd done Bool.false_ne_true, fun some_ => absurd none_ some_⟩, slots,
      shows_, fun i => ?_, fun _ _ => rfl⟩
    split
    · rename_i same
      rw [same, none_]
    · rfl

end Erase

section Runs

inductive Call where
  | insert (scratch : Memory) (rec : List UInt8)
  | erase (slot : Nat)

/-- A call on a page, and the records that were inserted and not erased since, by their
slots. -/
def step (state : Image × (Nat → Option (List UInt8))) : Call → Image × (Nat → Option (List UInt8))
  | .insert scratch rec =>
    match state.1.insert scratch rec with
    | (some slot, p) => (p, Function.update state.2 slot (some rec))
    | (none, p) => (p, state.2)
  | .erase slot =>
    match state.1.erase slot with
    | (true, p) => (p, Function.update state.2 slot none)
    | (false, p) => (p, state.2)

/-- Calls on a page that was formatted. -/
def run (p₀ : Image) (id : UInt32) (calls : List Call) : Image × (Nat → Option (List UInt8)) :=
  calls.foldl step (p₀.init id, fun _ => none)

/-- The page gives back the records, its fields are exact, and nothing beyond it was written. -/
structure Sound (p₀ p : Image) (contents : Nat → Option (List UInt8)) : Prop where
  read : ∀ slot, p.read slot = contents slot
  readRecord : ∀ slot, p.readRecord slot = contents slot
  beyond : ∀ slot, p.slotCount.toNat ≤ slot → contents slot = none
  start : p.freeStart.toNat = 20 + 4 * p.slotCount.toNat
  ordered : p.freeStart.toNat ≤ p.freeEnd.toNat ∧ p.freeEnd.toNat ≤ 4096
  account : 4096 - p.freeEnd.toNat = ((List.range p.slotCount.toNat).map fun slot =>
    ((contents slot).getD []).length).sum + p.fragBytes.toNat
  inside : ∀ slot rec, contents slot = some rec →
    p.freeEnd.toNat ≤ (p.slotOff slot).toNat ∧ (p.slotOff slot).toNat + rec.length ≤ 4096
  apart : ∀ slot slot' rec rec', slot ≠ slot' → contents slot = some rec → contents slot' = some rec' →
    (p.slotOff slot).toNat + rec.length ≤ (p.slotOff slot').toNat ∨
      (p.slotOff slot').toNat + rec'.length ≤ (p.slotOff slot).toNat
  outside : ∀ i, 4096 ≤ i → p i = p₀ i

theorem content_some {slots : Slots} {slot : Nat} {rec : List UInt8} :
    content slots slot = some rec ↔ slots[slot]? = some (some rec) := Option.join_eq_some_iff

theorem Shows.read_eq (shows_ : Shows p slots) (slot : Nat) : p.read slot = content slots slot := by
  unfold read
  split
  · rename_i isLive
    obtain ⟨rec, here⟩ := (shows_.live_iff slot).mp isLive
    have holds := shows_.live slot rec here
    rw [holds.len, holds.bytes, content_some.mpr here]
  · rename_i isDead
    symm
    by_contra some_
    obtain ⟨rec, isSome⟩ := Option.ne_none_iff_exists'.mp some_
    exact isDead ((shows_.live_iff slot).mpr ⟨rec, content_some.mp isSome⟩)

private theorem readRecord_eq (p : Image) (slot : Nat) : p.readRecord slot = p.read slot := by
  unfold readRecord read live
  by_cases inRange : p.slotCount.toNat ≤ slot
  · rw [if_pos inRange, if_neg]
    rw [decide_eq_true_iff]
    exact fun isLive => absurd isLive.1 (Nat.not_lt.mpr inRange)
  · rw [if_neg inRange]
    by_cases zero : p.slotOff slot = 0
    · rw [if_pos zero, if_neg]
      rw [decide_eq_true_iff]
      exact fun isLive => isLive.2 zero
    · rw [if_neg zero, if_pos]
      exact decide_eq_true ⟨Nat.not_le.mp inRange, zero⟩

private theorem liveBytes_eq (slots : Slots) : liveBytes slots =
    ((List.range slots.length).map fun slot => ((content slots slot).getD []).length).sum := by
  induction slots using List.reverseRecOn with
  | nil => rfl
  | append_singleton slots last ih =>
    have earlier : ∀ slot ∈ List.range slots.length,
        ((content (slots ++ [last]) slot).getD []).length = ((content slots slot).getD []).length := by
      intro slot member
      rw [content_append, if_neg (Nat.ne_of_lt (List.mem_range.mp member))]
    rw [liveBytes_append, liveBytes_singleton, ih, List.length_append, List.length_singleton,
      List.range_succ, List.map_append, List.sum_append, List.map_congr_left earlier,
      List.map_singleton, List.sum_singleton, content_append, if_pos rfl]

theorem Shows.sound {p₀ : Image} (shows_ : Shows p slots) (outside : ∀ i, 4096 ≤ i → p i = p₀ i) :
    Sound p₀ p (content slots) := by
  have account := shows_.account
  have room := shows_.room
  refine ⟨shows_.read_eq, fun slot => (readRecord_eq p slot).trans (shows_.read_eq slot),
    fun slot beyond => ?_, ?_, ⟨?_, by omega⟩, ?_, fun slot rec isLive => ?_,
    fun slot slot' rec rec' differ isLive isLive' => ?_, outside⟩
  · rw [shows_.count] at beyond
    rw [content, List.getElem?_eq_none beyond]
    rfl
  · rw [shows_.start, shows_.count]
  · rw [shows_.start]
    exact room
  · rw [shows_.count, ← liveBytes_eq]
    omega
  · have holds := shows_.live slot rec (content_some.mp isLive)
    exact ⟨holds.above, holds.inside⟩
  · exact shows_.apart slot slot' rec rec' differ (content_some.mp isLive) (content_some.mp isLive')

theorem Shows.refused_iff (shows_ : Shows p slots) (rec : List UInt8) :
    p.Refused rec ↔ rec = [] ∨ kMaxRecordSize < rec.length ∨ p.totalFree.toNat < rec.length ∨
      (∀ slot < p.slotCount.toNat, content slots slot ≠ none) ∧
        p.totalFree.toNat < rec.length + 4 := by
  unfold Refused
  refine or_congr_right (or_congr_right ?_)
  rw [shows_.count]
  rcases shows_.deadSlot_spec with ⟨slot, found, isDead⟩ | ⟨none_, alive⟩
  · rw [found]
    refine ⟨.inl, fun full => full.resolve_right fun ⟨allLive, _⟩ => ?_⟩
    refine allLive slot (List.getElem?_eq_some_iff.mp isDead).1 ?_
    rw [content, isDead]
    rfl
  · rw [none_]
    have allLive : ∀ slot < slots.length, content slots slot ≠ none := by
      intro slot inRange isNone
      rw [content, List.getElem?_eq_getElem inRange, Option.join_some] at isNone
      exact alive slot (List.getElem?_eq_some_iff.mpr ⟨inRange, isNone⟩)
    refine ⟨fun full => .inr ⟨allLive, full⟩, fun full => ?_⟩
    rcases full with full | ⟨-, full⟩
    · exact Nat.lt_of_lt_of_le full (Nat.le_add_right _ _)
    · exact full

private theorem run_shows (p₀ : Image) (id : UInt32) (calls : List Call) :
    ∃ slots, Shows (run p₀ id calls).1 slots ∧ (run p₀ id calls).2 = content slots ∧
      ∀ i, 4096 ≤ i → (run p₀ id calls).1 i = p₀ i := by
  induction calls using List.reverseRecOn with
  | nil => exact ⟨[], init_shows p₀ id, rfl, fun i above => init_outside (by omega)⟩
  | append_singleton calls call ih =>
    obtain ⟨slots, shows_, contents, outside⟩ := ih
    have step_eq : run p₀ id (calls ++ [call]) = step (run p₀ id calls) call := by
      rw [run, List.foldl_append]
      rfl
    rw [step_eq]
    cases call with
    | insert scratch rec =>
      obtain ⟨refused, accepted⟩ := insert_spec shows_ scratch rec
      by_cases isRefused : (run p₀ id calls).1.Refused rec
      · rw [step, refused isRefused]
        exact ⟨slots, shows_, contents, outside⟩
      · obtain ⟨slot, slots', answer, shows', -, contents', outside'⟩ := accepted isRefused
        obtain ⟨q, inserted⟩ : ∃ q, (run p₀ id calls).1.insert scratch rec = (some slot, q) :=
          ⟨_, Prod.ext answer rfl⟩
        rw [inserted] at shows' outside'
        rw [step, inserted]
        refine ⟨slots', shows', ?_, fun i above => (outside' i above).trans (outside i above)⟩
        funext i
        rw [contents', contents]
        exact Function.update_apply _ _ _ _
    | erase slot =>
      obtain ⟨erases, slots', shows', contents', outside'⟩ := erase_spec shows_ slot
      have others : ∀ i, i ≠ slot → content slots' i = content slots i := fun i differ => by
        rw [contents', if_neg differ]
      refine ⟨slots', ?_⟩
      rcases erased : (run p₀ id calls).1.erase slot with ⟨answer, q⟩
      rw [erased] at erases shows' outside'
      rw [step, erased]
      have rest : ∀ i, 4096 ≤ i → q i = p₀ i := fun i above => (outside' i above).trans (outside i above)
      cases answer with
      | true =>
        refine ⟨shows', ?_, rest⟩
        funext i
        rw [contents', contents]
        exact Function.update_apply _ _ _ _
      | false =>
        refine ⟨shows', ?_, rest⟩
        have none_ : content slots slot = none := by
          by_contra some_
          cases erases.mpr some_
        funext i
        rw [contents', contents]
        split
        · rename_i same
          rw [same, none_]
        · rfl

end Runs

end Image

open Image in
/-- Whatever was inserted into a page and erased, the page is sound; a record is refused exactly
where it does not fit, and then nothing changes; its slot was not live; and erasing takes
exactly the slot's record away. -/
theorem slotted_page (p₀ : Image) (id : UInt32) (calls : List Call) :
    let (p, contents) := run p₀ id calls
    Sound p₀ p contents ∧
      (∀ scratch rec, (p.insert scratch rec).1 = none ↔ rec = [] ∨ kMaxRecordSize < rec.length ∨
        p.totalFree.toNat < rec.length ∨
          (∀ slot < p.slotCount.toNat, contents slot ≠ none) ∧ p.totalFree.toNat < rec.length + 4) ∧
      (∀ scratch rec, (p.insert scratch rec).1 = none → (p.insert scratch rec).2 = p) ∧
      (∀ scratch rec slot, (p.insert scratch rec).1 = some slot → contents slot = none) ∧
      (∀ slot, (p.erase slot).1 = true ↔ contents slot ≠ none) ∧
      ∀ slot other, (p.erase slot).2.read other = if other = slot then none else p.read other := by
  obtain ⟨slots, shows_, contents, outside⟩ := run_shows p₀ id calls
  dsimp only
  generalize (run p₀ id calls).1 = p at *
  generalize (run p₀ id calls).2 = contents' at *
  subst contents
  refine ⟨shows_.sound outside, fun scratch rec => ?_, fun scratch rec none_ => ?_,
    fun scratch rec slot some_ => ?_, fun slot => (erase_spec shows_ slot).1, fun slot other => ?_⟩
  · obtain ⟨refused, accepted⟩ := insert_spec shows_ scratch rec
    rw [← shows_.refused_iff]
    refine ⟨fun none_ => ?_, fun isRefused => by rw [refused isRefused]⟩
    by_contra isAccepted
    obtain ⟨slot, slots', answer, -⟩ := accepted isAccepted
    rw [none_] at answer
    cases answer
  · obtain ⟨refused, accepted⟩ := insert_spec shows_ scratch rec
    by_cases isRefused : p.Refused rec
    · rw [refused isRefused]
    · obtain ⟨slot, slots', answer, -⟩ := accepted isRefused
      rw [none_] at answer
      cases answer
  · obtain ⟨refused, accepted⟩ := insert_spec shows_ scratch rec
    by_cases isRefused : p.Refused rec
    · rw [refused isRefused] at some_
      cases some_
    · obtain ⟨slot', slots', answer, -, isDead, -⟩ := accepted isRefused
      rw [some_] at answer
      cases answer
      exact isDead
  · obtain ⟨-, slots', shows', contents', -⟩ := erase_spec shows_ slot
    rw [shows'.read_eq, contents', shows_.read_eq]

end Labdb.Heap
