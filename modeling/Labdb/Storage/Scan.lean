import Labdb.Storage.Wal

/-! The recovery loop over a log: what it accumulates after each slot. Memory is
later tied to the log by saying that it holds what the loop would. -/

namespace Labdb.Storage.Wal

variable {generation databaseId : Nat} {frames frames' : List Slot} {count : Nat}

/-- The loop accepts this slot. -/
def Accepts (generation databaseId : Nat) (slot : Slot) : Prop :=
  ∃ frame, slot = some frame ∧ frame.generation = generation ∧ frame.databaseId = databaseId

/-- What the loop has accumulated after the first `count` slots. -/
def scanTo (generation databaseId : Nat) (frames : List Slot) (count : Nat) : Scan :=
  scanFrom generation databaseId (frames.take count) 0 {}

theorem scanFrom_append (accepted : ∀ slot ∈ frames, Accepts generation databaseId slot)
    (rest : List Slot) (start : Nat) (scan : Scan) :
    scanFrom generation databaseId (frames ++ rest) start scan =
      scanFrom generation databaseId rest (start + frames.length)
        (scanFrom generation databaseId frames start scan) := by
  induction frames generalizing start scan with
  | nil => simp [scanFrom]
  | cons head tail ih =>
    obtain ⟨frame, rfl, same⟩ := accepted head (by simp)
    have later := ih (fun slot member => accepted slot (by simp [member])) (start + 1)
      (scan.accept start frame)
    simp only [List.cons_append, scanFrom, if_pos same, later, List.length_cons]
    congr 1
    omega

/-- Slots that hold no commit frame of this generation commit nothing. -/
theorem scanFrom_quiet
    (quiet : ∀ frame, some frame ∈ frames → frame.generation = generation → frame.commit = false)
    (start : Nat) (scan : Scan) :
    (scanFrom generation databaseId frames start scan).committed = scan.committed ∧
    (scanFrom generation databaseId frames start scan).commitEnd = scan.commitEnd ∧
    (scanFrom generation databaseId frames start scan).transactions = scan.transactions := by
  induction frames generalizing start scan with
  | nil => exact ⟨rfl, rfl, rfl⟩
  | cons head tail ih =>
    cases head with
    | none => exact ⟨rfl, rfl, rfl⟩
    | some frame =>
      simp only [scanFrom]
      split
      · rename_i same
        have plain := quiet frame (by simp) same.1
        have later := ih (fun frame member => quiet frame (by simp [member])) (start + 1)
          (scan.accept start frame)
        simpa [Scan.accept, plain] using later
      · exact ⟨rfl, rfl, rfl⟩

theorem take_accepted
    (accepted : ∀ index < count, Accepts generation databaseId (frames.getD index none)) :
    ∀ slot ∈ frames.take count, Accepts generation databaseId slot := by
  intro slot member
  obtain ⟨index, found⟩ := List.mem_iff_getElem?.mp member
  have bound : index < count := by
    by_contra beyond
    simp [beyond] at found
  rw [List.getElem?_take, if_pos bound] at found
  simpa [List.getD_eq_getElem?_getD, found] using accepted index bound

theorem count_le_length
    (accepted : ∀ index < count, Accepts generation databaseId (frames.getD index none)) :
    count ≤ frames.length := by
  by_contra short
  obtain ⟨frame, found, _⟩ := accepted frames.length (by omega)
  simp at found

theorem scanTo_succ {frame : Frame}
    (accepted : ∀ index < count, Accepts generation databaseId (frames.getD index none))
    (found : frames.getD count none = some frame)
    (same : frame.generation = generation ∧ frame.databaseId = databaseId) :
    scanTo generation databaseId frames (count + 1) =
      (scanTo generation databaseId frames count).accept count frame := by
  have inside : count < frames.length := by
    by_contra beyond
    simp [List.getD_eq_getElem?_getD, List.getElem?_eq_none (Nat.le_of_not_lt beyond)] at found
  have exactly : frames[count] = some frame := by
    simpa [List.getD_eq_getElem?_getD, List.getElem?_eq_getElem inside] using found
  have split : frames.take (count + 1) = frames.take count ++ [some frame] := by
    rw [List.take_add_one, List.getElem?_eq_getElem inside, exactly]
    rfl
  simp only [scanTo, split, scanFrom_append (take_accepted accepted)]
  simp [scanFrom, same, Nat.min_eq_left (Nat.le_of_lt inside)]

/-- Slots without a commit frame add nothing committed. -/
theorem scanTo_quiet {start : Nat} (beyond : start ≤ count)
    (accepted : ∀ index < count, Accepts generation databaseId (frames.getD index none))
    (quiet : ∀ index frame, start ≤ index → frames.getD index none = some frame →
      frame.generation = generation → frame.commit = false) :
    (scanTo generation databaseId frames count).committed =
      (scanTo generation databaseId frames start).committed ∧
    (scanTo generation databaseId frames count).commitEnd =
      (scanTo generation databaseId frames start).commitEnd := by
  obtain ⟨extra, rfl⟩ := Nat.exists_eq_add_of_le beyond
  clear beyond
  induction extra with
  | zero => exact ⟨rfl, rfl⟩
  | succ extra ih =>
    obtain ⟨frame, found, same⟩ := accepted (start + extra) (by omega)
    have earlier := ih fun index bound => accepted index (by omega)
    have plain := quiet _ frame (by omega) found same.1
    have step := scanTo_succ (fun index bound => accepted index (by omega)) found same
    rw [← Nat.add_assoc, step]
    simpa [Scan.accept, plain] using earlier

/-- The whole loop commits what its first `count` slots commit, when the slots
that follow are quiet. -/
theorem scan_eq_scanTo
    (accepted : ∀ index < count, Accepts generation databaseId (frames.getD index none))
    (quiet : ∀ index frame, count ≤ index → frames.getD index none = some frame →
      frame.generation = generation → frame.commit = false) :
    (scanFrom generation databaseId frames 0 {}).committed =
      (scanTo generation databaseId frames count).committed ∧
    (scanFrom generation databaseId frames 0 {}).commitEnd =
      (scanTo generation databaseId frames count).commitEnd ∧
    (scanFrom generation databaseId frames 0 {}).transactions =
      (scanTo generation databaseId frames count).transactions := by
  have whole := scanFrom_append (take_accepted accepted) (frames.drop count) 0 {}
  rw [List.take_append_drop] at whole
  rw [whole]
  refine scanFrom_quiet ?_ _ _
  intro frame member
  obtain ⟨index, found⟩ := List.mem_iff_getElem?.mp member
  rw [List.getElem?_drop] at found
  exact quiet (count + index) frame (by omega) (by simp [List.getD_eq_getElem?_getD, found])

/-- What the loop looks at in a frame: all but its page. -/
def heading (slot : Slot) : Option (PageId × Bool × Nat × Nat) :=
  slot.map fun frame => (frame.id, frame.commit, frame.generation, frame.databaseId)

theorem Accepts.congr {slot slot' : Slot} (same : heading slot = heading slot')
    (accepted : Accepts generation databaseId slot) : Accepts generation databaseId slot' := by
  obtain ⟨frame, rfl, matching⟩ := accepted
  cases slot' with
  | none => simp [heading] at same
  | some other =>
    simp only [heading, Option.map_some, Option.some.injEq, Prod.mk.injEq] at same
    exact ⟨other, rfl, by simpa [same] using matching⟩

theorem scanTo_congr
    (accepted : ∀ index < count, Accepts generation databaseId (frames.getD index none))
    (same : ∀ index < count, heading (frames.getD index none) = heading (frames'.getD index none)) :
    scanTo generation databaseId frames' count = scanTo generation databaseId frames count := by
  induction count with
  | zero => simp [scanTo]
  | succ count ih =>
    have before := fun index (bound : index < count) => accepted index (by omega)
    obtain ⟨frame, found, matching⟩ := accepted count (by omega)
    have agree := same count (by omega)
    rw [found] at agree
    cases other : frames'.getD count none with
    | none =>
      rw [other] at agree
      cases agree
    | some frame' =>
      rw [other] at agree
      simp only [heading, Option.map_some, Option.some.injEq, Prod.mk.injEq] at agree
      have earlier := ih before fun index bound => same index (by omega)
      have before' := fun index (bound : index < count) =>
        (before index bound).congr (same index (by omega))
      rw [scanTo_succ before found matching,
        scanTo_succ before' other (by simpa [← agree.2.2.1, ← agree.2.2.2] using matching), earlier]
      simp [Scan.accept, agree]

/-- The maps of a scan point at frames of the pages they name: committed ones
before the last commit's end, pending ones behind it. -/
structure Scan.Points (frames : List Slot) (count : Nat) (scan : Scan) : Prop where
  bounded : scan.commitEnd ≤ count
  committed : ∀ id slot, scan.committed.lookup id = some slot →
    slot < scan.commitEnd ∧ ∃ frame, frames.getD slot none = some frame ∧ frame.id = id
  pending : ∀ id slot, scan.pending.lookup id = some slot →
    scan.commitEnd ≤ slot ∧ slot < count ∧
      ∃ frame, frames.getD slot none = some frame ∧ frame.id = id
  counted : scan.transactions = 0 ↔ scan.commitEnd = 0
  empty : scan.commitEnd = 0 → scan.committed = ∅

theorem lookup_union_eq (first second : SlotMap) (id : PageId) :
    (first ∪ second).lookup id = (first.lookup id).or (second.lookup id) := by
  cases found : first.lookup id with
  | none => exact AList.lookup_union_right (AList.lookup_eq_none.mp found)
  | some slot =>
    have member : id ∈ first := AList.lookup_isSome.mp (by simp [found])
    rw [AList.lookup_union_left member, found]
    rfl

theorem scanTo_points
    (accepted : ∀ index < count, Accepts generation databaseId (frames.getD index none)) :
    (scanTo generation databaseId frames count).Points frames count := by
  induction count with
  | zero =>
    refine ⟨by simp [scanTo, scanFrom], ?_, ?_, by simp [scanTo, scanFrom],
      fun _ => by simp [scanTo, scanFrom]⟩
    · intro id slot found
      simp [scanTo, scanFrom] at found
    · intro id slot found
      simp [scanTo, scanFrom] at found
  | succ count ih =>
    have before := ih fun index bound => accepted index (by omega)
    obtain ⟨frame, found, matching⟩ := accepted count (by omega)
    rw [scanTo_succ (fun index bound => accepted index (by omega)) found matching]
    have inserted : ∀ id slot,
        ((scanTo generation databaseId frames count).pending.insert frame.id count).lookup id =
          some slot →
        (scanTo generation databaseId frames count).commitEnd ≤ slot ∧ slot < count + 1 ∧
          ∃ frame, frames.getD slot none = some frame ∧ frame.id = id := by
      intro id slot present
      by_cases same : id = frame.id
      · subst id
        rw [AList.lookup_insert] at present
        cases present
        exact ⟨before.bounded, by omega, frame, found, rfl⟩
      · rw [AList.lookup_insert_ne same] at present
        obtain ⟨low, high, holds⟩ := before.pending id slot present
        exact ⟨low, by omega, holds⟩
    unfold Scan.accept
    split
    · refine ⟨Nat.le_refl _, ?_, by simp, by simp, by simp⟩
      intro id slot present
      rw [lookup_union_eq] at present
      rcases Option.or_eq_some_iff.mp present with fresh | ⟨_, old⟩
      · exact ⟨(inserted id slot fresh).2.1, (inserted id slot fresh).2.2⟩
      · obtain ⟨low, holds⟩ := before.committed id slot old
        exact ⟨by have := before.bounded; simp only; omega, holds⟩
    · exact ⟨by have := before.bounded; simp only; omega, before.committed, inserted,
        before.counted, before.empty⟩

/-- The last slot before the commit's end holds a commit frame, which is the
committed version of its page. -/
theorem scanTo_commits {last : Nat}
    (accepted : ∀ index < count, Accepts generation databaseId (frames.getD index none))
    (commits : (scanTo generation databaseId frames count).commitEnd = last + 1) :
    ∃ frame, frames.getD last none = some frame ∧ frame.commit = true ∧
      frame.generation = generation ∧
      (scanTo generation databaseId frames count).committed.lookup frame.id = some last := by
  induction count with
  | zero => simp [scanTo, scanFrom] at commits
  | succ count ih =>
    obtain ⟨frame, found, matching⟩ := accepted count (by omega)
    have before := ih fun index bound => accepted index (by omega)
    rw [scanTo_succ (fun index bound => accepted index (by omega)) found matching] at commits ⊢
    unfold Scan.accept at commits ⊢
    split at commits
    · rename_i commit
      obtain rfl : count = last := by simpa using commits
      rw [if_pos commit]
      exact ⟨frame, found, commit, matching.1, by simp⟩
    · rename_i plain
      rw [if_neg plain]
      exact before commits

/-- Cutting the scan back to its last commit drops what is pending. -/
theorem scanTo_commitEnd
    (accepted : ∀ index < count, Accepts generation databaseId (frames.getD index none)) :
    let scan := scanTo generation databaseId frames count
    let cut := scanTo generation databaseId frames scan.commitEnd
    cut.committed = scan.committed ∧ cut.commitEnd = scan.commitEnd ∧ cut.pending = ∅ := by
  induction count with
  | zero => simp [scanTo, scanFrom]
  | succ count ih =>
    have before := fun index (bound : index < count) => accepted index (by omega)
    obtain ⟨frame, found, matching⟩ := accepted count (by omega)
    have step := scanTo_succ before found matching
    by_cases commits : frame.commit = true
    · simp [step, Scan.accept, commits]
    · have earlier := ih before
      simp only [step, Scan.accept, commits] at earlier ⊢
      exact earlier

end Labdb.Storage.Wal
