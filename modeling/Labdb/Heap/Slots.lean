import Labdb.Heap.SlottedPage
import Mathlib.Algebra.BigOperators.Group.List.Basic

/-! A slotted page shows a list of slots, dead ones and ones with a record; compaction keeps
what it shows, and gathers the free bytes. -/

namespace Labdb.Heap

open Labdb.Data

/-- What a directory holds: a record for each live slot. -/
abbrev Slots := List (Option (List UInt8))

def liveBytes (slots : Slots) : Nat := (slots.map fun slot => (slot.getD []).length).sum

@[simp] theorem liveBytes_append (slots more : Slots) :
    liveBytes (slots ++ more) = liveBytes slots + liveBytes more := by
  rw [liveBytes, List.map_append, List.sum_append]
  rfl

@[simp] theorem liveBytes_singleton (slot : Option (List UInt8)) :
    liveBytes [slot] = (slot.getD []).length := by
  simp [liveBytes]

theorem liveBytes_take_le (slots : Slots) (k : Nat) : liveBytes (slots.take k) ≤ liveBytes slots := by
  have split := liveBytes_append (slots.take k) (slots.drop k)
  rw [List.take_append_drop] at split
  omega

private theorem liveBytes_take_succ {slots : Slots} {k : Nat} {slot : Option (List UInt8)}
    (here : slots[k]? = some slot) :
    liveBytes (slots.take (k + 1)) = liveBytes (slots.take k) + (slot.getD []).length := by
  rw [List.take_add_one, here, liveBytes_append]
  simp

private theorem liveBytes_take_mono (slots : Slots) {i k : Nat} (before : i ≤ k) :
    liveBytes (slots.take i) ≤ liveBytes (slots.take k) := by
  have shorter := liveBytes_take_le (slots.take k) i
  rwa [List.take_take, Nat.min_eq_left before] at shorter

theorem liveBytes_set {slots : Slots} {k : Nat} {slot : Option (List UInt8)}
    (here : slots[k]? = some slot) (other : Option (List UInt8)) :
    liveBytes (slots.set k other) + (slot.getD []).length =
      liveBytes slots + (other.getD []).length := by
  induction slots generalizing k with
  | nil => cases here
  | cons first slots ih =>
    cases k with
    | zero =>
      cases here
      simp only [List.set_cons_zero, liveBytes, List.map_cons, List.sum_cons]
      omega
    | succ k =>
      have later := ih (k := k) here
      simp only [List.set_cons_succ, liveBytes, List.map_cons, List.sum_cons] at later ⊢
      omega

namespace Image

variable {p q : Image} {slots : Slots} {i j slot off at_ count : Nat} {value len : UInt16}
  {bytes rec : List UInt8}

section Frame

theorem slotPos_eq (slot : Nat) : slotPos slot = 20 + 4 * slot := rfl

/-- The header's fields lie before the directory. -/
theorem slotOff_store (inHeader : at_ + 2 ≤ 20) :
    slotOff (p.store16 at_ value) slot = slotOff p slot :=
  Memory.load16_store16_of_disjoint (by rw [slotPos_eq]; omega)

theorem slotLen_store (inHeader : at_ + 2 ≤ 20) :
    slotLen (p.store16 at_ value) slot = slotLen p slot :=
  Memory.load16_store16_of_disjoint (by rw [slotPos_eq]; omega)

theorem cell_store (inHeader : at_ + 2 ≤ 20) (above : 20 ≤ off) :
    cell (p.store16 at_ value) off count = cell p off count :=
  Memory.read_store16 (by omega)

theorem header_setSlot (inHeader : at_ + 2 ≤ 20) :
    (p.setSlot slot value len).load16 at_ = p.load16 at_ := by
  rw [setSlot, Memory.load16_store16_of_disjoint (by rw [slotPos_eq]; omega),
    Memory.load16_store16_of_disjoint (by rw [slotPos_eq]; omega)]

theorem slotOff_setSlot : (p.setSlot slot value len).slotOff slot = value := by
  rw [setSlot, slotOff, Memory.load16_store16_of_disjoint (by omega), Memory.load16_store16]

theorem slotLen_setSlot : (p.setSlot slot value len).slotLen slot = len := by
  rw [setSlot, slotLen, Memory.load16_store16]

theorem slotOff_setSlot_ne (other : i ≠ slot) :
    (p.setSlot slot value len).slotOff i = p.slotOff i := by
  rw [setSlot, slotOff, Memory.load16_store16_of_disjoint (by rw [slotPos_eq, slotPos_eq]; omega),
    Memory.load16_store16_of_disjoint (by rw [slotPos_eq, slotPos_eq]; omega), slotOff]

theorem slotLen_setSlot_ne (other : i ≠ slot) :
    (p.setSlot slot value len).slotLen i = p.slotLen i := by
  rw [setSlot, slotLen, Memory.load16_store16_of_disjoint (by rw [slotPos_eq, slotPos_eq]; omega),
    Memory.load16_store16_of_disjoint (by rw [slotPos_eq, slotPos_eq]; omega), slotLen]

theorem setSlot_outside (outside : i < slotPos slot ∨ slotPos slot + 4 ≤ i) :
    p.setSlot slot value len i = p i := by
  rw [setSlot, Memory.store16_outside (by omega), Memory.store16_outside (by omega)]

theorem cell_setSlot (above : slotPos slot + 4 ≤ off) :
    (p.setSlot slot value len).cell off count = p.cell off count :=
  Memory.read_congr fun i _ _ => setSlot_outside (by omega)

end Frame

/-- A live slot with its record. -/
structure Holds (p : Image) (slot : Nat) (rec : List UInt8) : Prop where
  some_ : rec ≠ []
  len : (p.slotLen slot).toNat = rec.length
  above : p.freeEnd.toNat ≤ (p.slotOff slot).toNat
  inside : (p.slotOff slot).toNat + rec.length ≤ 4096
  bytes : p.cell (p.slotOff slot).toNat rec.length = rec

/-- The page holds these slots, and every field is what it should be. -/
structure Shows (p : Image) (slots : Slots) : Prop where
  count : p.slotCount.toNat = slots.length
  start : p.freeStart.toNat = 20 + 4 * slots.length
  room : 20 + 4 * slots.length ≤ p.freeEnd.toNat
  account : p.freeEnd.toNat + liveBytes slots + p.fragBytes.toNat = 4096
  dead : ∀ i, slots[i]? = some none → p.slotOff i = 0
  live : ∀ i rec, slots[i]? = some (some rec) → p.Holds i rec
  apart : ∀ i j rec rec', i ≠ j → slots[i]? = some (some rec) → slots[j]? = some (some rec') →
    (p.slotOff i).toNat + rec.length ≤ (p.slotOff j).toNat ∨
      (p.slotOff j).toNat + rec'.length ≤ (p.slotOff i).toNat

theorem init_shows (p : Image) (id : UInt32) : Shows (p.init id) [] := by
  have last : ∀ at_, at_ + 2 ≤ 16 → (p.init id).load16 at_ =
      ((((((p.setId id).setType kSlotted).setSlotCount 0).setFreeStart
        (.ofNat kPageHeaderSize)).setFreeEnd (.ofNat kPageSize)).setFragBytes 0).load16 at_ :=
    fun at_ before => Memory.load16_write (.inl before)
  have count : (p.init id).slotCount = 0 := by
    rw [slotCount, last 6 (by omega), setFragBytes, Memory.load16_store16_of_disjoint (by omega),
      setFreeEnd, Memory.load16_store16_of_disjoint (by omega), setFreeStart,
      Memory.load16_store16_of_disjoint (by omega), setSlotCount, Memory.load16_store16]
  have start : (p.init id).freeStart = .ofNat kPageHeaderSize := by
    rw [freeStart, last 8 (by omega), setFragBytes, Memory.load16_store16_of_disjoint (by omega),
      setFreeEnd, Memory.load16_store16_of_disjoint (by omega), setFreeStart, Memory.load16_store16]
  have end_ : (p.init id).freeEnd = .ofNat kPageSize := by
    rw [freeEnd, last 10 (by omega), setFragBytes, Memory.load16_store16_of_disjoint (by omega),
      setFreeEnd, Memory.load16_store16]
  have frag : (p.init id).fragBytes = 0 := by
    rw [fragBytes, last 12 (by omega), setFragBytes, Memory.load16_store16]
  refine ⟨?_, ?_, ?_, ?_, nofun, nofun, nofun⟩
  · rw [count]
    rfl
  · rw [start]
    rfl
  · rw [end_]
    decide
  · rw [end_, frag]
    rfl

theorem init_outside {id : UInt32} (outside : 20 ≤ i) : p.init id i = p i := by
  have length_eq : ∀ value, (leBytes 4 value).length = 4 := length_leBytes 4
  unfold init setNextPage setFragBytes setFreeEnd setFreeStart setSlotCount setType setId
  rw [Memory.write_outside (by rw [length_eq]; omega), Memory.store16_outside (by omega),
    Memory.store16_outside (by omega), Memory.store16_outside (by omega),
    Memory.store16_outside (by omega), Memory.store16_outside (by omega),
    Memory.write_outside (by rw [length_eq]; omega)]

section Compact

/-- Where the packed cells of the first slots are, as far as the loop of `compact` has come. -/
structure Packed (p : Image) (slots : Slots) (k : Nat) (c : Compaction) : Prop where
  writePos : c.writePos.toNat + liveBytes (slots.take k) = 4096
  same : ∀ i, i < 20 ∨ slotPos k ≤ i → c.page i = p i
  dead : ∀ i < k, slots[i]? = some none → c.page.slotOff i = 0
  live : ∀ i < k, ∀ rec, slots[i]? = some (some rec) →
    (c.page.slotOff i).toNat + liveBytes (slots.take (i + 1)) = 4096 ∧
      (c.page.slotLen i).toNat = rec.length ∧
        c.scratch.read (c.page.slotOff i).toNat rec.length = rec

private theorem compactSlot_packed {k : Nat} {c : Compaction} (shows_ : Shows p slots)
    (packed : Packed p slots k c) (inRange : k < slots.length) :
    Packed p slots (k + 1) (compactSlot c k) := by
  have off_eq : c.page.slotOff k = p.slotOff k :=
    Memory.load16_congr (packed.same _ (.inr (Nat.le_refl _))) (packed.same _ (.inr (Nat.le_succ _)))
  have len_eq : c.page.slotLen k = p.slotLen k :=
    Memory.load16_congr (packed.same _ (.inr (by omega))) (packed.same _ (.inr (by omega)))
  have here : slots[k]? = some slots[k] := List.getElem?_eq_getElem inRange
  cases isSlot : slots[k] with
  | none =>
    rw [isSlot] at here
    have dead := shows_.dead k here
    have unchanged : compactSlot c k = c := by
      rw [compactSlot, off_eq, dead]
      rfl
    rw [unchanged]
    refine ⟨?_, fun i outside => packed.same i ?_, fun i before isDead => ?_, fun i before rec isLive => ?_⟩
    · rw [liveBytes_take_succ here]
      exact packed.writePos
    · rw [slotPos_eq] at outside ⊢
      omega
    · rcases Nat.lt_succ_iff_lt_or_eq.mp before with earlier | rfl
      · exact packed.dead i earlier isDead
      · rw [off_eq, dead]
    · rcases Nat.lt_succ_iff_lt_or_eq.mp before with earlier | rfl
      · exact packed.live i earlier rec isLive
      · cases here.symm.trans isLive
  | some rec =>
    rw [isSlot] at here
    have holds := shows_.live k rec here
    have room := shows_.room
    have account := shows_.account
    have writePos := packed.writePos
    have above := holds.above
    have inside := holds.inside
    have grown : liveBytes (slots.take (k + 1)) = liveBytes (slots.take k) + rec.length :=
      liveBytes_take_succ here
    have total := liveBytes_take_le slots (k + 1)
    have some_ : c.page.slotOff k ≠ 0 := by
      intro zero
      rw [← off_eq, zero] at above
      have least : 20 ≤ (0 : UInt16).toNat := by omega
      cases least
    have len_eq' : (c.page.slotLen k).toNat = rec.length := by rw [len_eq, holds.len]
    have fits : c.page.slotLen k ≤ c.writePos := UInt16.le_iff_toNat_le.mpr (by omega)
    have writePos' : (c.writePos - c.page.slotLen k).toNat + liveBytes (slots.take (k + 1)) = 4096 := by
      rw [UInt16.toNat_sub_of_le _ _ fits]
      omega
    have cell_eq : c.page.cell (c.page.slotOff k).toNat (c.page.slotLen k).toNat = rec := by
      have unmoved : c.page.cell (p.slotOff k).toNat rec.length = p.cell (p.slotOff k).toNat rec.length :=
        Memory.read_congr fun i _ _ => packed.same i (.inr (by rw [slotPos_eq]; omega))
      rw [len_eq', off_eq, unmoved, holds.bytes]
    have step : compactSlot c k = {
        scratch := c.scratch.write (c.writePos - c.page.slotLen k).toNat rec
        page := c.page.setSlot k (c.writePos - c.page.slotLen k) (c.page.slotLen k)
        writePos := c.writePos - c.page.slotLen k } := by
      rw [compactSlot]
      dsimp only
      rw [if_neg some_, cell_eq]
    rw [step]
    refine ⟨writePos', fun i outside => ?_, fun i before isDead => ?_, fun i before rec' isLive => ?_⟩
    · change c.page.setSlot k _ _ i = p i
      rw [setSlot_outside (by rw [slotPos_eq] at outside ⊢; omega)]
      exact packed.same i (by rw [slotPos_eq] at outside ⊢; omega)
    · have earlier : i < k := by
        refine (Nat.lt_succ_iff_lt_or_eq.mp before).resolve_right ?_
        rintro rfl
        cases here.symm.trans isDead
      change (c.page.setSlot k _ _).slotOff i = 0
      rw [slotOff_setSlot_ne (Nat.ne_of_lt earlier)]
      exact packed.dead i earlier isDead
    · change ((c.page.setSlot k _ _).slotOff i).toNat + _ = _ ∧
        ((c.page.setSlot k _ _).slotLen i).toNat = _ ∧
          (Memory.write c.scratch _ rec).read ((c.page.setSlot k _ _).slotOff i).toNat _ = _
      rcases Nat.lt_succ_iff_lt_or_eq.mp before with earlier | rfl
      · obtain ⟨off, len, bytes⟩ := packed.live i earlier rec' isLive
        have packedBefore := @liveBytes_take_mono slots (i + 1) k earlier
        rw [slotOff_setSlot_ne (Nat.ne_of_lt earlier), slotLen_setSlot_ne (Nat.ne_of_lt earlier)]
        refine ⟨off, len, ?_⟩
        rw [Memory.read_write_of_disjoint (.inr (by omega)), bytes]
      · cases here.symm.trans isLive
        rw [slotOff_setSlot, slotLen_setSlot]
        exact ⟨writePos', len_eq', Memory.read_write⟩

/-- The loop of `compact`, all the way. -/
theorem compact_packed (shows_ : Shows p slots) (scratch : Memory) {k : Nat} (inRange : k ≤ slots.length) :
    Packed p slots k ((List.range k).foldl compactSlot
      { scratch, page := p, writePos := .ofNat kPageSize }) := by
  induction k with
  | zero => exact ⟨rfl, fun _ _ => rfl, nofun, nofun⟩
  | succ k ih =>
    rw [List.range_succ, List.foldl_append]
    exact compactSlot_packed shows_ (ih (Nat.le_of_succ_le inRange)) inRange

/-- Compaction keeps what the page shows, and no byte is lost to fragments any more. -/
theorem compact_shows (shows_ : Shows p slots) (scratch : Memory) :
    Shows (p.compact scratch) slots ∧ (p.compact scratch).fragBytes = 0 ∧
      ∀ i, 4096 ≤ i → p.compact scratch i = p i := by
  have packed := compact_packed shows_ scratch (Nat.le_refl slots.length)
  have room := shows_.room
  have account := shows_.account
  unfold compact
  rw [shows_.count]
  generalize (List.range slots.length).foldl compactSlot _ = c at packed
  have writePos := packed.writePos
  rw [List.take_length] at writePos
  obtain ⟨w, w_eq⟩ : ∃ w, w = c.writePos.toNat := ⟨_, rfl⟩
  obtain ⟨q, q_eq⟩ : ∃ q, q = ((c.page.setCell c.writePos.toNat
      (c.scratch.read c.writePos.toNat (kPageSize - c.writePos.toNat))).setFreeEnd c.writePos).setFragBytes 0 :=
    ⟨_, rfl⟩
  rw [← w_eq] at writePos
  have packed_bytes : (c.scratch.read w (kPageSize - w)).length = 4096 - w := Memory.length_read
  have bytes : ∀ i, 20 ≤ i → q i = c.page.setCell w (c.scratch.read w (kPageSize - w)) i := by
    intro i above
    rw [q_eq, setFragBytes, Memory.store16_outside (by omega), setFreeEnd,
      Memory.store16_outside (by omega), w_eq]
  have below : ∀ i, 20 ≤ i → i < w → q i = c.page i := fun i above before => by
    rw [bytes i above, setCell, Memory.write_outside (.inl before)]
  have cells : ∀ i, w ≤ i → i < 4096 → q i = c.scratch i := fun i above before => by
    have inside : i - w < (c.scratch.read w (kPageSize - w)).length := by omega
    rw [bytes i (by omega), setCell, ← Nat.add_sub_of_le above, Memory.write_inside inside]
    simp only [Memory.read, List.getElem_map, List.getElem_range]
  have off_eq : ∀ i < slots.length, q.slotOff i = c.page.slotOff i := fun i inRange =>
    Memory.load16_congr (below _ (by rw [slotPos_eq]; omega) (by rw [slotPos_eq]; omega))
      (below _ (by rw [slotPos_eq]; omega) (by rw [slotPos_eq]; omega))
  have len_eq : ∀ i < slots.length, q.slotLen i = c.page.slotLen i := fun i inRange =>
    Memory.load16_congr (below _ (by rw [slotPos_eq]; omega) (by rw [slotPos_eq]; omega))
      (below _ (by rw [slotPos_eq]; omega) (by rw [slotPos_eq]; omega))
  have freeEnd_eq : q.freeEnd = c.writePos := by
    rw [q_eq, setFragBytes, freeEnd, Memory.load16_store16_of_disjoint (by omega), setFreeEnd,
      Memory.load16_store16]
  have frag : q.fragBytes = 0 := by
    rw [q_eq, setFragBytes, fragBytes, Memory.load16_store16]
  have header : ∀ at_, at_ + 2 ≤ 10 → q.load16 at_ = p.load16 at_ := by
    intro at_ inHeader
    rw [q_eq, setFragBytes, Memory.load16_store16_of_disjoint (by omega), setFreeEnd,
      Memory.load16_store16_of_disjoint (by omega), setCell, Memory.load16_write (by omega)]
    exact Memory.load16_congr (packed.same _ (by omega)) (packed.same _ (by omega))
  rw [← q_eq]
  have live : ∀ i rec, slots[i]? = some (some rec) → (q.slotOff i).toNat + liveBytes (slots.take (i + 1)) = 4096 ∧
      q.Holds i rec := by
    intro i rec isLive
    obtain ⟨inRange, -⟩ := List.getElem?_eq_some_iff.mp isLive
    obtain ⟨off, len, isRec⟩ := packed.live i inRange rec isLive
    have total := liveBytes_take_le slots (i + 1)
    have grown : liveBytes (slots.take (i + 1)) = liveBytes (slots.take i) + rec.length :=
      liveBytes_take_succ isLive
    rw [off_eq i inRange]
    refine ⟨off, (shows_.live i rec isLive).some_, ?_, ?_, ?_, ?_⟩
    · rw [len_eq i inRange, len]
    · rw [freeEnd_eq, off_eq i inRange]
      omega
    · rw [off_eq i inRange]
      omega
    · rw [off_eq i inRange]
      refine Eq.trans (Memory.read_congr fun a _ _ => ?_) isRec
      exact cells a (by omega) (by omega)
  refine ⟨⟨?_, ?_, ?_, ?_, fun i isDead => ?_, fun i rec isLive => (live i rec isLive).2, ?_⟩, frag, ?_⟩
  · rw [← shows_.count]
    exact congrArg UInt16.toNat (header 6 (by omega))
  · rw [← shows_.start]
    exact congrArg UInt16.toNat (header 8 (by omega))
  · rw [freeEnd_eq, ← w_eq]
    omega
  · rw [freeEnd_eq, frag, ← w_eq]
    exact writePos
  · obtain ⟨inRange, -⟩ := List.getElem?_eq_some_iff.mp isDead
    rw [off_eq i inRange]
    exact packed.dead i inRange isDead
  · intro i j rec rec' differ isLive isLive'
    have here := (live i rec isLive).1
    have here' := (live j rec' isLive').1
    have grown : liveBytes (slots.take (i + 1)) = liveBytes (slots.take i) + rec.length :=
      liveBytes_take_succ isLive
    have grown' : liveBytes (slots.take (j + 1)) = liveBytes (slots.take j) + rec'.length :=
      liveBytes_take_succ isLive'
    rcases Nat.lt_or_gt_of_ne differ with before | before
    · have mono := @liveBytes_take_mono slots (i + 1) j before
      right
      omega
    · have mono := @liveBytes_take_mono slots (j + 1) i before
      left
      omega
  · intro i outside
    rw [bytes i (by omega), setCell, Memory.write_outside (.inr (by omega)),
      packed.same i (.inr (by rw [slotPos_eq]; omega))]

end Compact

end Image

end Labdb.Heap
