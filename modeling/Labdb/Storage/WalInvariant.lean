import Labdb.Storage.Scan

/-! What ties a `Wal` in memory to the log file: its maps are what the recovery
loop would accumulate. Each operation keeps the tie at every call it makes. -/

namespace Labdb.Storage

open Labdb.Program

/-- What a recovery of this log would accumulate. -/
def LogFile.scan (log : LogFile) : Wal.Scan :=
  match log.header with
  | some header => Wal.scanFrom header.generation header.databaseId log.frames 0 {}
  | none => {}

/-- The page in a slot, whatever its checksum covers. -/
def LogFile.pageAt (log : LogFile) (slot : Nat) : Option Page := (log.slot slot).map Frame.page

/-- The version of a page that a recovery of this log would redo. -/
def LogFile.redo (log : LogFile) (id : PageId) : Option Page :=
  (log.scan.committed.lookup id).bind log.pageAt

namespace Wal

/-- The latest version of a page in the log, as `read` finds it. -/
def version (wal : Wal) (log : LogFile) (id : PageId) : Option Page :=
  ((wal.pending.lookup id).or (wal.committed.lookup id)).bind log.pageAt

/-- The committed part of memory is the committed part of the log, and no commit
frame of this generation lies behind it. -/
structure Holds (wal : Wal) (log : LogFile) : Prop where
  header : wal.headerOk = true → log.header = some ⟨wal.generation, wal.databaseId⟩
  blank : wal.headerOk = false → log = {}
  fresh : ∀ index frame, log.slot index = some frame → frame.generation ≤ wal.generation
  named : ∀ index frame, log.slot index = some frame → frame.commit = true → frame.id = 0
  accepted : ∀ index < wal.commitEnd, Accepts wal.generation wal.databaseId (log.slot index)
  scanned : ∀ id,
    (scanTo wal.generation wal.databaseId log.frames wal.commitEnd).committed.lookup id =
      wal.committed.lookup id
  scannedEnd :
    (scanTo wal.generation wal.databaseId log.frames wal.commitEnd).commitEnd = wal.commitEnd
  quiet : ∀ index frame, wal.commitEnd ≤ index → log.slot index = some frame →
    frame.generation = wal.generation → frame.commit = false
  ordered : wal.commitEnd ≤ wal.end_

/-- The pending part of memory is the tail of the log, too. -/
structure Tracks (wal : Wal) (log : LogFile) : Prop extends Holds wal log where
  filled : ∀ index < wal.end_, Accepts wal.generation wal.databaseId (log.slot index)
  tracked : ∀ id,
    (scanTo wal.generation wal.databaseId log.frames wal.end_).pending.lookup id =
      wal.pending.lookup id

variable {wal : Wal} {log : LogFile}

/-- Up to the write position the loop commits what it commits up to the last commit. -/
theorem Holds.scanTo_eq (holds : wal.Holds log) {count : Nat} (beyond : wal.commitEnd ≤ count)
    (filled : ∀ index < count, Accepts wal.generation wal.databaseId (log.slot index)) :
    (scanTo wal.generation wal.databaseId log.frames count).committed =
      (scanTo wal.generation wal.databaseId log.frames wal.commitEnd).committed ∧
    (scanTo wal.generation wal.databaseId log.frames count).commitEnd = wal.commitEnd := by
  have same := scanTo_quiet beyond filled holds.quiet
  exact ⟨same.1, same.2.trans holds.scannedEnd⟩

theorem Holds.blank_commitEnd (holds : wal.Holds log) (missing : wal.headerOk = false) :
    wal.commitEnd = 0 := by
  have short := count_le_length holds.accepted
  simpa [holds.blank missing] using short

theorem Holds.scan_eq (holds : wal.Holds log) :
    (∀ id, log.scan.committed.lookup id = wal.committed.lookup id) ∧
      log.scan.commitEnd = wal.commitEnd ∧
      (log.scan.transactions = 0 ↔ wal.commitEnd = 0) := by
  have counted := (scanTo_points holds.accepted).counted
  rw [holds.scannedEnd] at counted
  cases ready : wal.headerOk with
  | false =>
    have empty := holds.blank ready
    have none := holds.blank_commitEnd ready
    have scanned := holds.scanned
    subst empty
    simp only [none, scanTo, List.take_nil, scanFrom] at scanned
    simp [LogFile.scan, ← scanned, none]
  | true =>
    have whole := scan_eq_scanTo holds.accepted holds.quiet
    simp only [LogFile.scan, holds.header ready, whole, holds.scannedEnd]
    exact ⟨holds.scanned, trivial, counted⟩

theorem Holds.redo_eq (holds : wal.Holds log) (id : PageId) :
    log.redo id = (wal.committed.lookup id).bind log.pageAt := by
  simp [LogFile.redo, holds.scan_eq.1 id]

/-- Where the maps point. -/
theorem Holds.committed_points (holds : wal.Holds log) {id slot : Nat}
    (found : wal.committed.lookup id = some slot) :
    slot < wal.commitEnd ∧ ∃ frame, log.slot slot = some frame ∧ frame.id = id := by
  rw [← holds.scanned] at found
  have points := (scanTo_points holds.accepted).committed id slot found
  rwa [holds.scannedEnd] at points

/-- The last commit ends in a frame of the meta page. -/
theorem Holds.committed_last (holds : wal.Holds log) {last : Nat}
    (commits : wal.commitEnd = last + 1) :
    ∃ frame, log.slot last = some frame ∧ frame.commit = true ∧
      frame.generation = wal.generation ∧ wal.committed.lookup 0 = some last := by
  obtain ⟨frame, present, commit, own, found⟩ :=
    scanTo_commits holds.accepted (holds.scannedEnd.trans commits)
  rw [holds.scanned, holds.named last frame present commit] at found
  exact ⟨frame, present, commit, own, found⟩

theorem Holds.committed_zero (holds : wal.Holds log) (commits : wal.commitEnd ≠ 0) :
    ∃ slot, wal.committed.lookup 0 = some slot := by
  obtain ⟨last, commits⟩ := Nat.exists_eq_succ_of_ne_zero commits
  obtain ⟨_, _, _, _, found⟩ := holds.committed_last commits
  exact ⟨last, found⟩

theorem Holds.ready (holds : wal.Holds log) {id slot : Nat}
    (found : wal.committed.lookup id = some slot) : wal.headerOk = true := by
  by_contra missing
  obtain ⟨_, frame, present, _⟩ := holds.committed_points found
  rw [holds.blank (by simpa using missing)] at present
  simp [LogFile.slot] at present

theorem Tracks.pending_points (tracks : wal.Tracks log) {id slot : Nat}
    (found : wal.pending.lookup id = some slot) :
    wal.commitEnd ≤ slot ∧ slot < wal.end_ ∧ ∃ frame, log.slot slot = some frame ∧ frame.id = id := by
  rw [← tracks.tracked] at found
  have points := (scanTo_points tracks.filled).pending id slot found
  rwa [(tracks.scanTo_eq tracks.ordered tracks.filled).2] at points

theorem Holds.committed_empty (holds : wal.Holds log) (none : wal.commitEnd = 0) (id : PageId) :
    wal.committed.lookup id = .none := by
  cases found : wal.committed.lookup id with
  | none => rfl
  | some slot =>
    have low := (holds.committed_points found).1
    omega

section Steps

/-- A slot behind the last commit takes a plain frame, or debris, and what is
committed stays. -/
theorem Holds.place (holds : wal.Holds log) (ready : wal.headerOk = true) {index : Nat}
    (behind : wal.commitEnd ≤ index) (content : Slot)
    (plain : ∀ frame, content = some frame →
      frame.generation = wal.generation ∧ frame.commit = false) :
    wal.Holds (log.place index content) := by
  have kept : ∀ other < wal.commitEnd, (log.place index content).slot other = log.slot other := by
    intro other low
    rw [LogFile.slot_place, if_neg (by omega)]
  have same : scanTo wal.generation wal.databaseId (log.place index content).frames wal.commitEnd =
      scanTo wal.generation wal.databaseId log.frames wal.commitEnd :=
    scanTo_congr holds.accepted fun other low => congrArg heading (kept other low).symm
  refine ⟨holds.header, by simp [ready], ?_, ?_, ?_, ?_, ?_, ?_, holds.ordered⟩
  · intro other frame found
    rw [LogFile.slot_place] at found
    split at found
    · exact Nat.le_of_eq (plain frame found).1
    · exact holds.fresh other frame found
  · intro other frame found commits
    rw [LogFile.slot_place] at found
    split at found
    · simp [(plain frame found).2] at commits
    · exact holds.named other frame found commits
  · intro other low
    rw [kept other low]
    exact holds.accepted other low
  · simpa only [same] using holds.scanned
  · simpa only [same] using holds.scannedEnd
  · intro other frame high found matching
    rw [LogFile.slot_place] at found
    split at found
    · exact (plain frame found).2
    · exact holds.quiet other frame high found matching

theorem Holds.redo_place (holds : wal.Holds log) (ready : wal.headerOk = true) {index : Nat}
    (behind : wal.commitEnd ≤ index) (content : Slot)
    (plain : ∀ frame, content = some frame →
      frame.generation = wal.generation ∧ frame.commit = false) (id : PageId) :
    (log.place index content).redo id = log.redo id := by
  rw [holds.redo_eq, (holds.place ready behind content plain).redo_eq]
  cases found : wal.committed.lookup id with
  | none => rfl
  | some slot =>
    have low := (holds.committed_points found).1
    simp only [Option.bind_some, LogFile.pageAt, LogFile.slot_place]
    rw [if_neg (by omega)]

/-- The header of the first write goes to an empty log. -/
theorem Holds.writeHeader (holds : wal.Holds log) (missing : wal.headerOk = false) :
    { wal with headerOk := true }.Holds
      { log with header := some ⟨wal.generation, wal.databaseId⟩ } := by
  have empty := holds.blank missing
  subst empty
  exact ⟨fun _ => rfl, by simp, holds.fresh, holds.named, holds.accepted, holds.scanned,
    holds.scannedEnd, holds.quiet, holds.ordered⟩

theorem Tracks.writeHeader (tracks : wal.Tracks log) (missing : wal.headerOk = false) :
    { wal with headerOk := true }.Tracks
      { log with header := some ⟨wal.generation, wal.databaseId⟩ } :=
  ⟨tracks.toHolds.writeHeader missing, tracks.filled, tracks.tracked⟩

theorem Holds.rollback (holds : wal.Holds log) :
    { wal with pending := ∅, end_ := wal.commitEnd }.Tracks log := by
  refine ⟨⟨holds.header, holds.blank, holds.fresh, holds.named, holds.accepted, holds.scanned,
    holds.scannedEnd, holds.quiet, Nat.le_refl _⟩, holds.accepted, ?_⟩
  intro id
  have cut := (scanTo_commitEnd holds.accepted).2.2
  simp only [holds.scannedEnd] at cut
  simp [cut]

/-- The frame a write makes. -/
def frameOf (wal : Wal) (id : PageId) (commit : Bool) (page : Page) : Frame :=
  ⟨id, commit, wal.generation, wal.databaseId, page⟩

/-- A page new to the transaction takes the next free slot. -/
theorem Tracks.append (tracks : wal.Tracks log) (ready : wal.headerOk = true)
    (id : PageId) (page : Page) :
    { wal with end_ := wal.end_ + 1, pending := wal.pending.insert id wal.end_ }.Tracks
      (log.place wal.end_ (some (wal.frameOf id false page))) := by
  have holds := tracks.toHolds.place ready tracks.ordered (some (wal.frameOf id false page))
    (by rintro frame ⟨⟩; exact ⟨rfl, rfl⟩)
  have kept : ∀ other < wal.end_,
      (log.place wal.end_ (some (wal.frameOf id false page))).slot other = log.slot other := by
    intro other low
    rw [LogFile.slot_place, if_neg (by omega)]
  have filled : ∀ other < wal.end_, Accepts wal.generation wal.databaseId
      ((log.place wal.end_ (some (wal.frameOf id false page))).slot other) := by
    intro other low
    rw [kept other low]
    exact tracks.filled other low
  have newest : (log.place wal.end_ (some (wal.frameOf id false page))).slot wal.end_ =
      some (wal.frameOf id false page) := by simp
  refine ⟨⟨holds.header, holds.blank, holds.fresh, holds.named, holds.accepted, holds.scanned,
    holds.scannedEnd, holds.quiet, Nat.le_succ_of_le holds.ordered⟩, ?_, ?_⟩
  · intro other low
    rcases Nat.lt_succ_iff_lt_or_eq.mp low with earlier | rfl
    · exact filled other earlier
    · exact ⟨_, newest, rfl, rfl⟩
  · intro other
    rw [scanTo_succ filled newest ⟨rfl, rfl⟩,
      scanTo_congr tracks.filled fun index low => congrArg heading (kept index low).symm]
    by_cases same : other = id
    · subst other
      simp [Scan.accept, frameOf]
    · simp [Scan.accept, frameOf, AList.lookup_insert_ne same, tracks.tracked other]

/-- A page the transaction has written before keeps its slot. -/
theorem Tracks.rewrite (tracks : wal.Tracks log) (ready : wal.headerOk = true)
    {id slot : Nat} (found : wal.pending.lookup id = some slot) (page : Page) :
    { wal with pending := wal.pending.insert id slot }.Tracks
      (log.place slot (some (wal.frameOf id false page))) := by
  obtain ⟨low, high, frame, present, same⟩ := tracks.pending_points found
  have holds := tracks.toHolds.place ready low (some (wal.frameOf id false page))
    (by rintro frame ⟨⟩; exact ⟨rfl, rfl⟩)
  obtain ⟨frame', present', generation, database⟩ := tracks.filled slot high
  obtain rfl : frame = frame' := Option.some.inj (present.symm.trans present')
  have plain := tracks.quiet slot frame low present generation
  have headings : ∀ other < wal.end_, heading (log.slot other) =
      heading ((log.place slot (some (wal.frameOf id false page))).slot other) := by
    intro other _
    rw [LogFile.slot_place]
    split
    · subst other
      rw [present]
      simp [heading, frameOf, same, plain, generation, database]
    · rfl
  refine ⟨⟨holds.header, holds.blank, holds.fresh, holds.named, holds.accepted, holds.scanned,
    holds.scannedEnd, holds.quiet, holds.ordered⟩, ?_, ?_⟩
  · intro other bound
    exact (tracks.filled other bound).congr (headings other bound)
  · intro other
    rw [scanTo_congr tracks.filled headings, tracks.tracked other]
    by_cases equal : other = id
    · subst other
      simp [found]
    · simp [AList.lookup_insert_ne equal]

/-- Pages of one slot are versions of one page. -/
theorem Tracks.version_place (tracks : wal.Tracks log) {id slot : Nat}
    (own : wal.pending.lookup id = some slot ∨ slot = wal.end_) (content : Slot)
    {other : PageId} (different : other ≠ id) :
    wal.version (log.place slot content) other = wal.version log other := by
  unfold version
  cases found : (wal.pending.lookup other).or (wal.committed.lookup other) with
  | none => rfl
  | some place =>
    have apart : slot ≠ place := by
      intro same
      subst place
      rcases Option.or_eq_some_iff.mp found with pending | ⟨_, committed⟩
      · obtain ⟨_, high, frame, present, named⟩ := tracks.pending_points pending
        rcases own with mine | last
        · obtain ⟨_, _, frame', present', named'⟩ := tracks.pending_points mine
          rw [present] at present'
          cases present'
          exact different (named.symm.trans named')
        · omega
      · have low := (tracks.committed_points committed).1
        have ordered := tracks.ordered
        rcases own with mine | last
        · have behind := (tracks.pending_points mine).1
          omega
        · omega
    simp [LogFile.pageAt, apart]

/-- The commit frame makes everything pending committed. -/
theorem Tracks.commit (tracks : wal.Tracks log) (ready : wal.headerOk = true) (page : Page) :
    { wal with
      committed := (wal.pending ∪ wal.committed).insert 0 wal.end_, pending := ∅
      end_ := wal.end_ + 1, commitEnd := wal.end_ + 1 }.Tracks
      (log.place wal.end_ (some (wal.frameOf 0 true page))) := by
  have kept : ∀ other < wal.end_,
      (log.place wal.end_ (some (wal.frameOf 0 true page))).slot other = log.slot other := by
    intro other low
    rw [LogFile.slot_place, if_neg (by omega)]
  have filled : ∀ other < wal.end_, Accepts wal.generation wal.databaseId
      ((log.place wal.end_ (some (wal.frameOf 0 true page))).slot other) := by
    intro other low
    rw [kept other low]
    exact tracks.filled other low
  have newest : (log.place wal.end_ (some (wal.frameOf 0 true page))).slot wal.end_ =
      some (wal.frameOf 0 true page) := by simp
  have accepted : ∀ other < wal.end_ + 1, Accepts wal.generation wal.databaseId
      ((log.place wal.end_ (some (wal.frameOf 0 true page))).slot other) := by
    intro other low
    rcases Nat.lt_succ_iff_lt_or_eq.mp low with earlier | rfl
    · exact filled other earlier
    · exact ⟨_, newest, rfl, rfl⟩
  have scan := scanTo_succ filled newest ⟨rfl, rfl⟩
  rw [scanTo_congr tracks.filled fun index low => congrArg heading (kept index low).symm] at scan
  have before := (tracks.scanTo_eq tracks.ordered tracks.filled).1
  have committed := congrArg Scan.committed scan
  have commitEnd := congrArg Scan.commitEnd scan
  have pending := congrArg Scan.pending scan
  simp only [Scan.accept, ↓reduceIte, show (wal.frameOf 0 true page).commit = true from rfl,
    show (wal.frameOf 0 true page).id = 0 from rfl] at committed commitEnd pending
  refine ⟨⟨tracks.header, by simp [ready], ?_, ?_, accepted, ?_, commitEnd, ?_, Nat.le_refl _⟩,
    accepted, ?_⟩
  · intro other frame found
    rw [LogFile.slot_place] at found
    split at found
    · cases found
      exact Nat.le_refl _
    · exact tracks.fresh other frame found
  · intro other frame found commits
    rw [LogFile.slot_place] at found
    split at found
    · cases found
      rfl
    · exact tracks.named other frame found commits
  · intro other
    refine (congrArg (AList.lookup other) committed).trans ?_
    by_cases same : other = 0
    · subst other
      simp
    · simp [lookup_union_eq, AList.lookup_insert_ne same, tracks.tracked other, before,
        tracks.scanned other]
  · intro other frame high found matching
    rw [LogFile.slot_place, if_neg (by simp only at high; omega)] at found
    exact tracks.quiet other frame (by have := tracks.ordered; simp only at high; omega) found matching
  · intro other
    refine (congrArg (AList.lookup other) pending).trans ?_
    simp

/-- A new generation begins empty, whatever the old one left in the slots. -/
theorem Holds.reset (holds : wal.Holds log) :
    { wal with
      committed := ∅, pending := ∅, end_ := 0, commitEnd := 0
      generation := wal.generation + 1, headerOk := true }.Tracks
      { log with header := some ⟨wal.generation + 1, wal.databaseId⟩ } := by
  refine ⟨⟨fun _ => rfl, by simp, ?_, holds.named, by simp, by simp [scanTo, scanFrom],
    by simp [scanTo, scanFrom], ?_, Nat.le_refl _⟩, by simp, by simp [scanTo, scanFrom]⟩
  · intro index frame found
    exact Nat.le_succ_of_le (holds.fresh index frame found)
  · intro index frame _ found same
    have old := holds.fresh index frame found
    simp only at same
    omega

/-- An empty file holds nothing, in any generation. -/
theorem tracks_empty (wal : Wal) :
    { wal with
      committed := ∅, pending := ∅, end_ := 0, commitEnd := 0, headerOk := false }.Tracks {} := by
  refine ⟨⟨by simp, fun _ => rfl, ?_, ?_, by simp, by simp [scanTo, scanFrom],
    by simp [scanTo, scanFrom], ?_, Nat.le_refl _⟩, by simp, by simp [scanTo, scanFrom]⟩ <;>
  · intro index frame
    simp [LogFile.slot]

end Steps

end Wal

end Labdb.Storage
