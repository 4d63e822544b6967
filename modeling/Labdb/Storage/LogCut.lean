import Labdb.Storage.PowerCut

/-! Power cuts inside one generation of the log: which commits a recovery keeps
when frames written since the last sync survive in any combination. -/

namespace Labdb.Storage

open Labdb.Program

inductive LogOp where
  | write (id : PageId) (page : Page)
  | commit (metaPage : Page) (synced : Bool)
  | rollback
  | sync
  deriving DecidableEq, Repr

def LogOp.program : LogOp → WalM Unit
  | .write id page => Wal.write id page
  | .commit metaPage synced => Wal.commit metaPage synced
  | .rollback => Wal.rollback
  | .sync => Wal.sync

/-- What the log was asked to keep: the page versions as of each commit, oldest
first, those of the transaction in progress, and the number of the last commit
that a sync covers. -/
structure LogLedger where
  commits : List Snapshot := [fun _ => none]
  current : Snapshot := fun _ => none
  durable : Nat := 0

namespace LogLedger

def after (ledger : LogLedger) : LogOp → LogLedger
  | .write id page => { ledger with current := Function.update ledger.current id (some page) }
  | .commit metaPage synced =>
      let snapshot := Function.update ledger.current 0 (some metaPage)
      { commits := ledger.commits ++ [snapshot], current := snapshot
        durable := if synced then ledger.commits.length else ledger.durable }
  | .rollback => { ledger with current := ledger.commits.getLastD fun _ => none }
  | .sync => { ledger with durable := ledger.commits.length - 1 }

/-- An operation that was cut off: a commit may be kept, but need not be. -/
def begun (ledger : LogLedger) : LogOp → LogLedger
  | .commit metaPage synced =>
      { ledger.after (.commit metaPage synced) with durable := ledger.durable }
  | _ => ledger

private theorem commits_begun (ledger : LogLedger) (op : LogOp) :
    (ledger.begun op).commits = (ledger.after op).commits := by
  cases op <;> rfl

end LogLedger

/-- A log in use, and what it was asked to keep. -/
structure LogState where
  wal : Wal
  disk : Disk
  ledger : LogLedger := {}

namespace LogState

def step (state : LogState) (op : LogOp) : LogState :=
  match op.program.run [] state.wal state.disk with
  | (.returned _ wal, disk) => { wal, disk, ledger := state.ledger.after op }
  | (.raised _ wal, disk) => { state with wal, disk }
  | (.died, disk) => { state with disk }

/-- The disk and what is owed when the power fails inside an operation or after it. -/
def stopped (state : LogState) (op : LogOp) (fates : List Fate) : Disk × LogLedger :=
  match op.program.run fates state.wal state.disk with
  | (.died, disk) => (disk, state.ledger.begun op)
  | (_, disk) => (disk, state.ledger.after op)

/-- A log that was just reset, or that is empty: nothing is in it, and a cut can
bring back no frame of its generation. -/
structure Fresh (state : LogState) : Prop where
  ledger : state.ledger = {}
  tracks : state.wal.Tracks state.disk.files.log
  start : state.wal.end_ = 0
  stale : ∀ slot frame, some frame ∈ state.disk.slotVersions slot →
    frame.generation ≠ state.wal.generation

end LogState

/-- A recovery of this log keeps the page versions of exactly one of the commits,
no earlier than the last one that a sync covers. -/
def LogLedger.Keeps (ledger : LogLedger) (databaseId : Nat) (log : LogFile) : Prop :=
  ∃ index snapshot, ledger.durable ≤ index ∧ ledger.commits[index]? = some snapshot ∧
    ∀ id draw, ∃ wal, (do let _ ← Wal.recover; Wal.read id).run []
      (Wal.construct databaseId draw log) { base := { log } } =
        (.returned (snapshot id) wal, { base := { log } })

/-- A cut brings back no other generation of the log, neither its header before the header of
this one is synced nor the commits it had. -/
def Disk.Headed (disk : Disk) (generation databaseId : Nat) : Prop :=
  ∀ header, header.databaseId = databaseId → disk.Revives header → header.generation = generation

/-- What the versions of the slots must be for a power cut under the header of the
generation to leave whole commits only. -/
structure Fenced (generation databaseId commitEnd : Nat) (disk : Disk) (commits : List Snapshot)
    (durable : Nat) : Prop where
  accepted : ∀ slot < commitEnd, Wal.Accepts generation databaseId (disk.files.log.slot slot)
  headed : 0 < commitEnd → disk.files.log.header = some ⟨generation, databaseId⟩
  settled : ∀ slot, slot + 1 < commitEnd → ∀ frame, some frame ∈ disk.slotVersions slot →
    frame.generation = generation → disk.files.log.slot slot = some frame
  plain : ∀ slot, commitEnd ≤ slot + 1 → ∀ frame, some frame ∈ disk.slotVersions slot →
    frame.generation = generation → frame.commit = true →
      slot + 1 = commitEnd ∧ disk.files.log.slot slot = some frame
  synced : ∃ durableEnd ≤ commitEnd,
    (0 < durableEnd → ∀ header ∈ disk.headerVersions, header = some ⟨generation, databaseId⟩) ∧
    (∀ slot < durableEnd, ∀ content ∈ disk.slotVersions slot,
      content = disk.files.log.slot slot) ∧
    ∀ count, durableEnd ≤ count → count ≤ commitEnd → ∃ index, durable ≤ index ∧
      commits[index]? = some (disk.files.log.upTo generation databaseId count)
  last : commits.getLast? = some (disk.files.log.upTo generation databaseId commitEnd)

section Cut

variable {generation databaseId commitEnd durable : Nat} {disk : Disk} {commits : List Snapshot}

/-- A header that is not the log's own can be left only where no commit is synced. -/
theorem Fenced.begins (fenced : Fenced generation databaseId commitEnd disk commits durable)
    {log : LogFile} (left : disk.LeavesLog log) (other : log.header ≠ some ⟨generation, databaseId⟩) :
    ∃ index, durable ≤ index ∧ commits[index]? = some fun _ => none := by
  obtain ⟨durableEnd, bounded, headers, _, reach⟩ := fenced.synced
  have zero : durableEnd = 0 := by
    by_contra some
    exact other (left.header.eq (headers (by omega)))
  obtain ⟨index, covers, found⟩ := reach 0 (by omega) (by omega)
  refine ⟨index, covers, found.trans (congrArg some ?_)⟩
  funext id
  simp [LogFile.upTo, Wal.scanTo, Wal.scanFrom]

/-- A recovery under the log's header redoes what the log had committed up to some slot. -/
theorem Fenced.cut (fenced : Fenced generation databaseId commitEnd disk commits durable)
    {log : LogFile} (left : disk.LeavesLog log) (header : log.header = some ⟨generation, databaseId⟩) :
    ∃ index snapshot, durable ≤ index ∧ commits[index]? = some snapshot ∧
      ∀ id, log.redo id = snapshot id := by
  obtain ⟨durableEnd, bounded, _, settled, reach⟩ := fenced.synced
  suffices ∃ count, durableEnd ≤ count ∧ count ≤ commitEnd ∧
      ∀ id, log.redo id = disk.files.log.upTo generation databaseId count id by
    obtain ⟨count, low, high, same⟩ := this
    obtain ⟨index, covers, found⟩ := reach count low high
    exact ⟨index, _, covers, found, same⟩
  -- once the loop agrees with the first slots of the log before the cut, so do the pages
  have finish : ∀ count ≤ commitEnd,
      (∀ slot < count, log.slot slot = disk.files.log.slot slot) →
      (Wal.scanFrom generation databaseId log.frames 0 {}).committed =
        (Wal.scanTo generation databaseId log.frames count).committed →
      ∀ id, log.redo id = disk.files.log.upTo generation databaseId count id := by
    intro count high same committed id
    rw [← LogFile.upTo_congr (fun slot low => fenced.accepted slot (by omega)) same]
    simp only [LogFile.redo, LogFile.scan, header, committed, LogFile.upTo]
  have accepted : ∀ count ≤ commitEnd,
      (∀ slot < count, log.slot slot = disk.files.log.slot slot) →
      ∀ slot < count, Wal.Accepts generation databaseId (log.slot slot) := by
    intro count high same slot low
    rw [same slot low]
    exact fenced.accepted slot (by omega)
  by_cases whole : ∀ slot < commitEnd, log.slot slot = disk.files.log.slot slot
  · refine ⟨commitEnd, bounded, Nat.le_refl _, finish commitEnd (Nat.le_refl _) whole ?_⟩
    refine (Wal.scan_eq_scanTo (accepted commitEnd (Nat.le_refl _) whole) ?_).1
    intro slot frame high present same
    cases commit : frame.commit with
    | false => rfl
    | true =>
      have last := fenced.plain slot (by omega) frame (left.version present) same commit
      omega
  · -- the first slot that the cut changed
    classical
    have some : ∃ slot, slot < commitEnd ∧ log.slot slot ≠ disk.files.log.slot slot := by
      simpa only [not_forall, exists_prop] using whole
    obtain ⟨low, changed⟩ := Nat.find_spec some
    have same : ∀ slot < Nat.find some, log.slot slot = disk.files.log.slot slot := by
      intro slot before
      by_contra differs
      exact Nat.find_min some before ⟨by omega, differs⟩
    generalize Nat.find some = count at low changed same
    have kept : durableEnd ≤ count := by
      by_contra below
      exact changed ((left.slots count).eq (settled count (by omega)))
    refine ⟨count, kept, Nat.le_of_lt low, finish count (Nat.le_of_lt low) same ?_⟩
    have before := accepted count (Nat.le_of_lt low) same
    by_cases inner : count + 1 < commitEnd
    · refine congrArg Wal.Scan.committed (Wal.scan_eq_of_stop before ?_)
      rintro ⟨frame, present, own, _⟩
      have old := fenced.settled count inner frame (left.version present) own
      exact changed (present.trans old.symm)
    · refine (Wal.scan_eq_scanTo before ?_).1
      intro slot frame high present own
      cases commit : frame.commit with
      | false => rfl
      | true =>
        obtain ⟨last, old⟩ :=
          fenced.plain slot (by omega) frame (left.version present) own commit
        obtain rfl : slot = count := by omega
        exact absurd (present.trans old.symm) changed

private theorem mem_headerVersions_frame {slot : Nat} {frame : Frame} {header : Option LogHeader}
    (member : header ∈
      (Device.perform (FileCall.writeFrame slot frame) disk).headerVersions) :
    header ∈ disk.headerVersions :=
  Disk.mem_versions_same rfl member

/-- The header of the generation adds nothing a cut could leave. -/
theorem Fenced.header (fenced : Fenced generation databaseId commitEnd disk commits durable) :
    Fenced generation databaseId commitEnd
      (Device.perform (.writeLogHeader ⟨generation, databaseId⟩) disk) commits durable := by
  have slots : ∀ {slot : Nat} {content : Slot}, content ∈
      (Device.perform (FileCall.writeLogHeader ⟨generation, databaseId⟩) disk).slotVersions slot →
      content ∈ disk.slotVersions slot := fun member => Disk.mem_versions_same rfl member
  have headers : ∀ header ∈
      (Device.perform (FileCall.writeLogHeader ⟨generation, databaseId⟩) disk).headerVersions,
      header = some ⟨generation, databaseId⟩ ∨ header ∈ disk.headerVersions :=
    fun header member => Disk.mem_versions_push rfl member
  obtain ⟨durableEnd, bounded, headed, settled, reach⟩ := fenced.synced
  refine ⟨fenced.accepted, fun _ => rfl, ?_, ?_,
    ⟨durableEnd, bounded, ?_, fun slot low content member => settled slot low content (slots member),
      reach⟩, fenced.last⟩
  · exact fun slot low frame member => fenced.settled slot low frame (slots member)
  · exact fun slot high frame member => fenced.plain slot high frame (slots member)
  · intro some header member
    rcases headers header member with new | old
    · exact new
    · exact headed some header old

/-- Slots before the last commit are read alike after a write behind it. -/
theorem Fenced.upTo_frame (fenced : Fenced generation databaseId commitEnd disk commits durable)
    {slot : Nat} (behind : commitEnd ≤ slot) (frame : Frame) {count : Nat}
    (before : count ≤ commitEnd) :
    (Device.perform (FileCall.writeFrame slot frame) disk).files.log.upTo generation databaseId count =
      disk.files.log.upTo generation databaseId count := by
  refine LogFile.upTo_congr (fun index low => fenced.accepted index (by omega)) ?_
  intro index low
  exact (LogFile.slot_place ..).trans (if_neg (by omega))

/-- A plain frame behind the last commit. -/
theorem Fenced.frame (fenced : Fenced generation databaseId commitEnd disk commits durable)
    {slot : Nat} (behind : commitEnd ≤ slot) {frame : Frame} (plain : frame.commit = false) :
    Fenced generation databaseId commitEnd (Device.perform (.writeFrame slot frame) disk)
      commits durable := by
  have kept : ∀ other < commitEnd,
      (Device.perform (FileCall.writeFrame slot frame) disk).files.log.slot other =
        disk.files.log.slot other := by
    intro other low
    exact (LogFile.slot_place ..).trans (if_neg (by omega))
  obtain ⟨durableEnd, bounded, headed, settled, reach⟩ := fenced.synced
  refine ⟨?_, fenced.headed, ?_, ?_, ⟨durableEnd, bounded,
      fun some header member => headed some header (mem_headerVersions_frame member), ?_, ?_⟩, ?_⟩
  · intro other low
    rw [kept other low]
    exact fenced.accepted other low
  · intro other low content member own
    rw [kept other (by omega)]
    rcases mem_slotVersions_frame member with old | ⟨rfl, _⟩
    · exact fenced.settled other low content old own
    · omega
  · intro other high content member own commit
    rcases mem_slotVersions_frame member with old | ⟨_, new⟩
    · obtain ⟨last, same⟩ := fenced.plain other high content old own commit
      exact ⟨last, (kept other (by omega)).trans same⟩
    · cases new
      rw [plain] at commit
      cases commit
  · intro other low content member
    rw [kept other (by omega)]
    rcases mem_slotVersions_frame member with old | ⟨rfl, _⟩
    · exact settled other low content old
    · omega
  · intro count low high
    rw [fenced.upTo_frame behind frame high]
    exact reach count low high
  · rw [fenced.upTo_frame behind frame (Nat.le_refl _)]
    exact fenced.last

/-- Behind the last commit nothing is added. -/
theorem Fenced.upTo_quiet (fenced : Fenced generation databaseId commitEnd disk commits durable)
    {count : Nat} (beyond : commitEnd ≤ count)
    (filled : ∀ slot < count, Wal.Accepts generation databaseId (disk.files.log.slot slot)) :
    disk.files.log.upTo generation databaseId count =
      disk.files.log.upTo generation databaseId commitEnd := by
  have same := Wal.scanTo_quiet beyond filled ?_
  · funext id
    simp only [LogFile.upTo, same.1]
  · intro slot frame high present own
    cases commit : frame.commit with
    | false => rfl
    | true =>
      have member : some frame ∈ disk.slotVersions slot := present ▸ Disk.current_mem_versions
      have last := (fenced.plain slot (by omega) frame member own commit).1
      omega

/-- The commit frame, where no slot before it has another frame of the generation. -/
theorem Fenced.commit (fenced : Fenced generation databaseId commitEnd disk commits durable)
    {end_ : Nat} (ordered : commitEnd ≤ end_)
    (filled : ∀ slot < end_, Wal.Accepts generation databaseId (disk.files.log.slot slot))
    (ready : disk.files.log.header = some ⟨generation, databaseId⟩)
    (sole : ∀ slot < end_, disk.Sole generation slot)
    {frame : Frame} (own : frame.generation = generation ∧ frame.databaseId = databaseId) :
    Fenced generation databaseId (end_ + 1) (Device.perform (.writeFrame end_ frame) disk)
      (commits ++ [(Device.perform (FileCall.writeFrame end_ frame) disk).files.log.upTo generation
        databaseId (end_ + 1)]) durable := by
  have kept : ∀ other < end_,
      (Device.perform (FileCall.writeFrame end_ frame) disk).files.log.slot other =
        disk.files.log.slot other := by
    intro other low
    exact (LogFile.slot_place ..).trans (if_neg (by omega))
  have newest : (Device.perform (FileCall.writeFrame end_ frame) disk).files.log.slot end_ =
      some frame :=
    (LogFile.slot_place ..).trans (if_pos rfl)
  obtain ⟨durableEnd, bounded, headed, settled, reach⟩ := fenced.synced
  refine ⟨?_, fun _ => ready, ?_, ?_, ⟨durableEnd, by omega,
      fun some header member => headed some header (mem_headerVersions_frame member), ?_, ?_⟩, ?_⟩
  · intro other low
    rcases Nat.lt_succ_iff_lt_or_eq.mp low with before | rfl
    · rw [kept other before]
      exact filled other before
    · exact ⟨frame, newest, own⟩
  · intro other low content member same
    rw [kept other (by omega)]
    rcases mem_slotVersions_frame member with old | ⟨rfl, _⟩
    · exact sole other (by omega) content old same
    · omega
  · intro other high content member same commit
    rcases mem_slotVersions_frame member with old | ⟨rfl, new⟩
    · have last := (fenced.plain other (by omega) content old same commit).1
      omega
    · exact ⟨rfl, new ▸ newest⟩
  · intro other low content member
    rw [kept other (by omega)]
    rcases mem_slotVersions_frame member with old | ⟨rfl, _⟩
    · exact settled other low content old
    · omega
  · intro count low high
    have earlier : ∀ count, durableEnd ≤ count → count ≤ end_ → ∃ index, durable ≤ index ∧
        commits[index]? = some (disk.files.log.upTo generation databaseId count) := by
      intro count low high
      by_cases inside : count ≤ commitEnd
      · exact reach count low inside
      · rw [fenced.upTo_quiet (by omega) fun slot below => filled slot (by omega)]
        exact reach commitEnd bounded (Nat.le_refl _)
    rcases Nat.le_succ_iff.mp high with before | rfl
    · obtain ⟨index, covers, found⟩ := earlier count low before
      refine ⟨index, covers, ?_⟩
      rw [List.getElem?_append_left (List.getElem?_eq_some_iff.mp found).1, found,
        LogFile.upTo_congr (fun slot below => filled slot (by omega)) fun slot below =>
          kept slot (by omega)]
    · obtain ⟨index, covers, found⟩ := earlier end_ (by omega) (Nat.le_refl _)
      have inside := (List.getElem?_eq_some_iff.mp found).1
      exact ⟨commits.length, by omega, by simp⟩
  · simp

/-- After a sync there is one version of everything. -/
theorem Fenced.sync (fenced : Fenced generation databaseId commitEnd disk commits durable) :
    Fenced generation databaseId commitEnd (Device.perform .syncLog disk) commits
      (commits.length - 1) := by
  have slots : ∀ {slot : Nat} {content : Slot},
      content ∈ (Device.perform FileCall.syncLog disk).slotVersions slot →
      content = disk.files.log.slot slot := fun member => Disk.mem_versions_settle rfl member
  have headers : ∀ header ∈ (Device.perform FileCall.syncLog disk).headerVersions,
      header = disk.files.log.header := fun header member => Disk.mem_versions_settle rfl member
  refine ⟨fenced.accepted, fenced.headed, ?_, ?_, ⟨commitEnd, Nat.le_refl _, ?_, ?_, ?_⟩,
    fenced.last⟩
  · intro slot _ frame member _
    exact (slots member).symm
  · intro slot high frame member own commit
    refine fenced.plain slot high frame ?_ own commit
    rw [slots member]
    exact Disk.current_mem_versions
  · intro some header member
    rw [headers header member]
    exact fenced.headed some
  · intro slot _ content member
    exact slots member
  · intro count low high
    obtain rfl := Nat.le_antisymm high low
    refine ⟨commits.length - 1, Nat.le_refl _, ?_⟩
    rw [← List.getLast?_eq_getElem?]
    exact fenced.last

/-- A recovery after the cut keeps one of the commits, and more of them that are not
durable leave it more to keep. -/
theorem Fenced.keeps (fenced : Fenced generation databaseId commitEnd disk commits durable)
    {ledger : LogLedger} (more : commits <+: ledger.commits) (covered : ledger.durable ≤ durable)
    {log : LogFile} (left : disk.LeavesLog log) (headed : disk.Headed generation databaseId) :
    ledger.Keeps databaseId log := by
  have kept : ∀ {index snapshot}, durable ≤ index → commits[index]? = some snapshot →
      (∀ id draw, ∃ wal, (do let _ ← Wal.recover; Wal.read id).run []
        (Wal.construct databaseId draw log) { base := { log } } =
          (.returned (snapshot id) wal, { base := { log } })) → ledger.Keeps databaseId log := by
    intro index snapshot covers found reads
    obtain ⟨later, more⟩ := more
    refine ⟨index, snapshot, Nat.le_trans covered covers, ?_, reads⟩
    rwa [← more, List.getElem?_append_left (List.getElem?_eq_some_iff.mp found).1]
  by_cases own : log.header = some ⟨generation, databaseId⟩
  · obtain ⟨index, snapshot, covers, found, same⟩ := fenced.cut left own
    refine kept covers found fun id draw => ?_
    rw [← same id]
    refine Wal.recover_read databaseId draw { base := { log } } id fun header present => ?_
    exact congrArg LogHeader.databaseId (Option.some.inj (present.symm.trans own))
  · obtain ⟨index, covers, found⟩ := fenced.begins left own
    refine kept covers found fun id draw => ?_
    cases present : log.header with
    | none =>
      rw [← LogFile.redo_none present id]
      refine Wal.recover_read databaseId draw { base := { log } } id fun header here => ?_
      cases present.symm.trans here
    | some header =>
      by_cases foreign : header.databaseId = databaseId
      · have quiet : ¬ disk.Revives header := by
          intro revives
          have same := headed header foreign revives
          obtain ⟨_, _⟩ := header
          cases foreign
          cases same
          exact own present
        rw [← left.redo_none present quiet id]
        refine Wal.recover_read databaseId draw { base := { log } } id fun found here => ?_
        cases present.symm.trans here
        exact foreign
      · exact Wal.recover_read_foreign databaseId draw { base := { log } } id present foreign

end Cut

/-- A log in use whose commits a power cut leaves whole. -/
structure LogState.Guarded (state : LogState) : Prop where
  tracks : state.wal.Tracks state.disk.files.log
  shown : ∀ id, state.wal.version state.disk.files.log id = state.ledger.current id
  fenced : Fenced state.wal.generation state.wal.databaseId state.wal.commitEnd state.disk
    state.ledger.commits state.ledger.durable

/-- The commit finds no slot before its frame with a second frame of the generation
that a power cut could bring back: what the transaction wrote twice, or what a
rolled-back transaction wrote there, was synced away. -/
def LogOp.Settled (wal : Wal) (disk : Disk) : LogOp → Prop
  | .commit _ _ => ∀ slot < wal.end_, disk.Sole wal.generation slot
  | _ => True

instance (wal : Wal) (disk : Disk) : (op : LogOp) → Decidable (op.Settled wal disk)
  | .commit _ _ => inferInstanceAs (Decidable (∀ slot < wal.end_, disk.Sole wal.generation slot))
  | .write _ _ | .rollback | .sync => isTrue trivial

section Steps

variable {wal : Wal} {disk : Disk} {commits : List Snapshot} {durable : Nat}

/-- The header of the first write leaves the fence standing. -/
theorem Fenced.headedDisk
    (fenced : Fenced wal.generation wal.databaseId wal.commitEnd disk commits durable) :
    Fenced wal.generation wal.databaseId wal.commitEnd (wal.headedDisk disk) commits durable := by
  unfold Wal.headedDisk
  split
  · exact fenced
  · exact fenced.header

private theorem slot_headedDisk (wal : Wal) (disk : Disk) (slot : Nat) :
    (wal.headedDisk disk).files.log.slot slot = disk.files.log.slot slot := by
  unfold Wal.headedDisk
  split <;> rfl

private theorem mem_slotVersions_headedDisk {slot : Nat} {content : Slot}
    (member : content ∈ (wal.headedDisk disk).slotVersions slot) :
    content ∈ disk.slotVersions slot := by
  unfold Wal.headedDisk at member
  split at member
  · exact member
  · exact Disk.mem_versions_same rfl member

private theorem wp_write_fenced (tracks : wal.Tracks disk.files.log)
    (fenced : Fenced wal.generation wal.databaseId wal.commitEnd disk commits durable)
    (id : PageId) (page : Page) :
    Prog.wp Never (Wal.write id page)
      (fun _ _ disk' => Fenced wal.generation wal.databaseId wal.commitEnd disk' commits durable)
      (fun _ _ _ => True)
      (fun _ disk' => Fenced wal.generation wal.databaseId wal.commitEnd disk' commits durable)
      wal disk := by
  have behind : wal.commitEnd ≤ (wal.pending.lookup id).getD wal.end_ := by
    cases found : wal.pending.lookup id with
    | none => exact tracks.ordered
    | some slot => exact (tracks.pending_points found).1
  have grows : wal.end_ ≤ if (wal.pending.lookup id).isSome then wal.end_ else wal.end_ + 1 := by
    split <;> omega
  unfold Wal.write
  simp only [Prog.wp_bind, Prog.wp_get, Prog.wp_set]
  generalize (if (wal.pending.lookup id).isSome then wal.end_ else wal.end_ + 1) = last at grows ⊢
  have holds : ({ wal with end_ := last } : Wal).Holds disk.files.log :=
    { tracks.toHolds with ordered := tracks.ordered.trans grows }
  have headed : Fenced wal.generation wal.databaseId wal.commitEnd
      (({ wal with end_ := last } : Wal).headedDisk disk) commits durable := fenced.headedDisk
  exact Wal.wp_writeFrame holds (fun _ => fenced) (fun _ _ _ _ => trivial)
    ⟨headed, headed.frame behind rfl, fun _ _ => trivial⟩

/-- A commit is fenced in on either side of its frame. -/
theorem wp_commit_fenced (tracks : wal.Tracks disk.files.log)
    (fenced : Fenced wal.generation wal.databaseId wal.commitEnd disk commits durable)
    (page : Page) (synced : Bool)
    (sole : ∀ slot < wal.end_, disk.Sole wal.generation slot)
    {snapshot : Snapshot}
    (reads : ∀ id, snapshot id = if id = 0 then some page else wal.version disk.files.log id) :
    Prog.wp Never (Wal.commit page synced)
      (fun _ _ disk' => Fenced wal.generation wal.databaseId (wal.end_ + 1) disk'
        (commits ++ [snapshot]) (if synced then commits.length else durable))
      (fun _ _ _ => True)
      (fun _ disk' =>
        Fenced wal.generation wal.databaseId wal.commitEnd disk' commits durable ∨
        Fenced wal.generation wal.databaseId (wal.end_ + 1) disk' (commits ++ [snapshot]) durable)
      wal disk := by
  have holds : ({ wal with end_ := wal.end_ + 1 } : Wal).Holds disk.files.log :=
    { tracks.toHolds with ordered := tracks.ordered.trans (Nat.le_succ _) }
  have headed : Fenced wal.generation wal.databaseId wal.commitEnd
      (({ wal with end_ := wal.end_ + 1 } : Wal).headedDisk disk) commits durable :=
    fenced.headedDisk
  have same := holds.headedDisk_files
  have done := tracks.commits page
  have framed : Fenced wal.generation wal.databaseId (wal.end_ + 1)
      (Device.perform (.writeFrame wal.end_ (wal.frameOf 0 true page))
        (({ wal with end_ := wal.end_ + 1 } : Wal).headedDisk disk)) (commits ++ [snapshot])
      durable := by
    have after := headed.commit tracks.ordered
      (fun slot low => (slot_headedDisk _ disk slot).symm ▸ tracks.filled slot low)
      (congrArg (fun files => files.log.header) same)
      (fun slot low frame member own => (slot_headedDisk _ disk slot).trans
        (sole slot low frame (mem_slotVersions_headedDisk member) own))
      (show (wal.frameOf 0 true page).generation = wal.generation ∧ _ from ⟨rfl, rfl⟩)
    have last : (Device.perform (FileCall.writeFrame wal.end_ (wal.frameOf 0 true page))
        (({ wal with end_ := wal.end_ + 1 } : Wal).headedDisk disk)).files.log.upTo wal.generation
          wal.databaseId (wal.end_ + 1) = snapshot := by
      funext id
      rw [files_perform, same, reads]
      exact (done.tracks.upTo_eq id).trans (done.redo id)
    rwa [last] at after
  unfold Wal.commit
  simp only [Prog.wp_bind, Prog.wp_get, Prog.wp_set]
  refine Wal.wp_writeFrame holds (fun _ => .inl fenced) (fun _ _ _ _ => trivial)
    ⟨.inl headed, ?_, fun _ _ => trivial⟩
  simp only [Prog.wp_bind, Prog.wp_modify, Prog.wp_when, Wal.sync, Prog.wp_call]
  cases synced with
  | true =>
    have synced := framed.sync
    rw [List.length_append, List.length_singleton, Nat.add_sub_cancel] at synced
    exact ⟨.inr framed, synced, fun _ _ => trivial⟩
  | false => exact framed

/-- Each operation keeps the fence, and a power cut inside it leaves whole commits. -/
theorem wp_logOp {state : LogState} (guarded : state.Guarded) {op : LogOp}
    (settled : op.Settled state.wal state.disk) :
    Prog.wp Never op.program
      (fun _ wal disk => (wal.generation = state.wal.generation ∧
          wal.databaseId = state.wal.databaseId) ∧
        LogState.Guarded ⟨wal, disk, state.ledger.after op⟩)
      (fun _ _ _ => False)
      (fun _ disk => ∀ log, disk.LeavesLog log →
        disk.Headed state.wal.generation state.wal.databaseId →
          (state.ledger.begun op).Keeps state.wal.databaseId log)
      state.wal state.disk := by
  obtain ⟨tracks, shown, fenced⟩ := guarded
  have keeps : ∀ {disk : Disk} {log : LogFile}, Fenced state.wal.generation state.wal.databaseId
      state.wal.commitEnd disk state.ledger.commits state.ledger.durable → disk.LeavesLog log →
      disk.Headed state.wal.generation state.wal.databaseId →
      state.ledger.Keeps state.wal.databaseId log :=
    fun fenced left => fenced.keeps List.prefix_rfl (Nat.le_refl _) left
  cases op with
  | write id page =>
    refine Prog.wp_mono (Prog.wp_and (Wal.wp_write False tracks nofun nofun id page)
      (wp_write_fenced tracks fenced id page)) ?_ ?_ ?_
    · rintro _ wal disk ⟨⟨writes, _⟩, fenced'⟩
      refine ⟨⟨writes.spares.generation, writes.spares.identity⟩, writes.tracks, ?_, ?_⟩
      · intro other
        rw [writes.version, shown]
        by_cases same : other = id
        · subst other
          simp [LogLedger.after]
        · simp [LogLedger.after, same]
      · rw [writes.spares.generation, writes.spares.identity, writes.spares.commitEnd]
        exact fenced'
    · rintro _ _ _ ⟨⟨⟨_, _, impossible⟩, _⟩, _⟩
      exact impossible
    · rintro _ disk ⟨_, fenced'⟩ log left headed
      exact keeps fenced' left headed
  | commit page synced =>
    have reads : ∀ id, Function.update state.ledger.current 0 (some page) id =
        if id = 0 then some page else state.wal.version state.disk.files.log id := by
      intro id
      by_cases same : id = 0
      · subst id
        simp
      · simp [same, shown]
    refine Prog.wp_mono (Prog.wp_and (Wal.wp_commit False gentle_never tracks nofun nofun page synced)
      (wp_commit_fenced tracks fenced page synced settled reads)) ?_ ?_ ?_
    · rintro _ wal disk ⟨⟨commits, _⟩, fenced'⟩
      refine ⟨⟨commits.generation, commits.identity⟩, commits.tracks, ?_, ?_⟩
      · intro id
        rw [commits.tracks.version_eq_redo commits.pending, commits.redo]
        exact (reads id).symm
      · rw [commits.generation, commits.identity, commits.commitEnd]
        exact fenced'
    · rintro _ _ _ ⟨⟨⟨_, _, impossible⟩, _⟩, _⟩
      exact impossible
    · rintro _ disk ⟨_, before | after⟩ log left headed
      · refine before.keeps ?_ ?_ left headed
        · exact List.prefix_append ..
        · exact Nat.le_refl _
      · refine after.keeps ?_ ?_ left headed
        · exact List.prefix_rfl
        · exact Nat.le_refl _
  | rollback =>
    have back := tracks.toHolds.rollback
    refine ⟨⟨rfl, rfl⟩, back, ?_, fenced⟩
    intro id
    have last := fenced.last
    rw [back.version_eq_redo rfl, ← tracks.upTo_eq]
    simp [LogLedger.after, List.getLastD_eq_getLast?, last]
  | sync =>
    refine ⟨fun log => keeps fenced, ⟨⟨rfl, rfl⟩, tracks, shown, fenced.sync⟩, fun impossible => ?_⟩
    exact impossible.elim

end Steps

namespace LogState

private theorem Fresh.guarded {state : LogState} (fresh : state.Fresh) : state.Guarded := by
  obtain ⟨wal, disk, ledger⟩ := state
  obtain ⟨empty, tracks, start, stale⟩ := fresh
  simp only at empty tracks start stale
  subst empty
  have none : wal.commitEnd = 0 := by
    have ordered := tracks.ordered
    omega
  have empty : disk.files.log.upTo wal.generation wal.databaseId 0 = fun _ => Option.none := by
    funext id
    simp [LogFile.upTo, Wal.scanTo, Wal.scanFrom]
  refine ⟨tracks, ?_, ?_⟩
  · intro id
    have committed := tracks.committed_empty none id
    have pending : wal.pending.lookup id = .none := by
      cases found : wal.pending.lookup id with
      | none => rfl
      | some slot =>
        have high := (tracks.pending_points found).2.1
        omega
    simp [Wal.version, committed, pending]
  · simp only [none]
    refine ⟨fun _ low => absurd low (Nat.not_lt_zero _), fun some => absurd some (Nat.lt_irrefl _),
      fun _ low => absurd low (Nat.not_lt_zero _), ?_, ⟨0, Nat.le_refl _,
        fun some => absurd some (Nat.lt_irrefl _), fun _ low => absurd low (Nat.not_lt_zero _), ?_⟩, ?_⟩
    · intro slot _ frame member own
      exact absurd own (stale slot frame member)
    · intro count _ high
      obtain rfl := Nat.le_zero.mp high
      exact ⟨0, Nat.le_refl _, by simp [empty]⟩
    · simp [empty]

/-- What is owed when an operation is cut off is no more than when it is done. -/
theorem Guarded.durable_begun {state : LogState} (guarded : state.Guarded) (op : LogOp) :
    (state.ledger.begun op).durable ≤ (state.ledger.after op).durable := by
  obtain ⟨durableEnd, bounded, _, _, reach⟩ := guarded.fenced.synced
  obtain ⟨index, covers, found⟩ := reach _ bounded (Nat.le_refl _)
  have inside := (List.getElem?_eq_some_iff.mp found).1
  cases op with
  | write id page => exact Nat.le_refl _
  | commit page synced =>
    simp only [LogLedger.begun, LogLedger.after]
    split <;> omega
  | rollback => exact Nat.le_refl _
  | sync =>
    simp only [LogLedger.begun, LogLedger.after]
    omega

/-- A reset gives such a log, whether or not its header is synced, where no slot had a frame
from a later generation. -/
theorem fresh_reset {wal : Wal} {disk : Disk} (tracks : wal.Tracks disk.files.log)
    (idle : wal.pending = ∅) (past : ∀ slot frame, some frame ∈ disk.slotVersions slot →
      frame.generation ≤ wal.generation) :
    Prog.wp Never Wal.reset (fun _ wal' disk' => Fresh ⟨wal', disk', {}⟩) (fun _ _ _ => False)
      (fun _ _ => True) wal disk := by
  have reset := tracks.toHolds.reset
  simp only [Wal.reset, Wal.writeHeader, checkThat, idle, Prog.wp_bind, Prog.wp_get,
    Prog.wp_modify, Prog.wp_call, AList.empty_entries, List.isEmpty_nil, ↓reduceIte, Prog.wp_pure]
  refine ⟨trivial, ⟨rfl, reset, rfl, ?_⟩, fun impossible => impossible.elim⟩
  intro slot frame member
  have old := past slot frame (Disk.mem_versions_same rfl member)
  simp only
  omega

/-- Every commit of the run finds its slots settled. -/
def Settled : LogState → List LogOp → Prop
  | _, [] => True
  | state, op :: rest => op.Settled state.wal state.disk ∧ (state.step op).Settled rest

private theorem step_guarded {state : LogState} (guarded : state.Guarded) {op : LogOp}
    (settled : op.Settled state.wal state.disk) :
    ((state.step op).wal.generation = state.wal.generation ∧
      (state.step op).wal.databaseId = state.wal.databaseId) ∧ (state.step op).Guarded := by
  have ran := Prog.run_of_wp_nil (wp_logOp guarded settled)
  unfold step
  generalize op.program.run [] state.wal state.disk = ended at ran ⊢
  rcases ended with ⟨⟨_, wal⟩ | _ | _, disk⟩
  · exact ran
  · exact ran.elim
  · exact ran.elim

private theorem run_guarded {state : LogState} (guarded : state.Guarded) {ops : List LogOp}
    (settled : state.Settled ops) :
    ((ops.foldl step state).wal.generation = state.wal.generation ∧
      (ops.foldl step state).wal.databaseId = state.wal.databaseId) ∧
      (ops.foldl step state).Guarded := by
  induction ops generalizing state with
  | nil => exact ⟨⟨rfl, rfl⟩, guarded⟩
  | cons op rest ih =>
    obtain ⟨⟨generation, own⟩, after⟩ := step_guarded guarded settled.1
    obtain ⟨⟨generation', own'⟩, after'⟩ := ih after settled.2
    exact ⟨⟨generation'.trans generation, own'.trans own⟩, after'⟩

private theorem settled_append {state : LogState} {ops : List LogOp} {last : LogOp}
    (settled : state.Settled (ops ++ [last])) :
    state.Settled ops ∧
      last.Settled (ops.foldl step state).wal (ops.foldl step state).disk := by
  induction ops generalizing state with
  | nil => exact ⟨trivial, settled.1⟩
  | cons op rest ih =>
    obtain ⟨earlier, final⟩ := ih settled.2
    exact ⟨⟨settled.1, earlier⟩, final⟩

/-- A power cut in any operation of a run, or after it, leaves whole commits. -/
def CutSafe (state : LogState) (ops : List LogOp) (last : LogOp) (fates : List Fate) : Prop :=
  let cut := (ops.foldl step state).stopped last fates
  ∀ log, cut.1.LeavesLog log → cut.2.Keeps state.wal.databaseId log

end LogState

section Examples

/-- A new log of database 7, on an empty disk. -/
def newLog : LogState where
  wal := { databaseId := 7, generation := 1 }
  disk := {}

def firstVersion : Page := { id := 1, type := .kSlotted, body := .bytes [1] }

def secondVersion : Page := { id := 1, type := .kSlotted, body := .bytes [2] }

private theorem fresh_newLog : newLog.Fresh := by
  refine ⟨rfl, Wal.tracks_empty { databaseId := 7, generation := 1 }, rfl, ?_⟩
  intro slot frame member
  cases List.mem_singleton.mp member

def newMeta : Page := { type := .kMeta, body := .record { pageCount := 2 } 7 }

/-- The superseded version of page 1, and the commit frame after it. -/
def splitLog : LogFile where
  header := some ⟨1, 7⟩
  frames := [some ⟨1, false, 1, 7, firstVersion⟩, some ⟨0, true, 1, 7, newMeta⟩]

/-- The log after a first transaction. -/
def usedLog : LogState := [.write 1 firstVersion, .commit newMeta true].foldl LogState.step newLog

/-- The log reset, its new header not synced. -/
def resetLog : LogState :=
  match Wal.reset.run [] usedLog.wal usedLog.disk with
  | (.returned _ wal, disk) => { wal, disk }
  | _ => usedLog

private theorem fresh_resetLog : resetLog.Fresh := by
  have settled : newLog.Settled [.write 1 firstVersion, .commit newMeta true] :=
    ⟨trivial, by decide +kernel, trivial⟩
  have tracks := (LogState.run_guarded fresh_newLog.guarded settled).2.tracks
  have ran := Prog.run_of_wp_nil (LogState.fresh_reset tracks (AList.ext (by decide +kernel)) ?_)
  · unfold resetLog
    change Prog.Meets _ _ _ (Wal.reset.run [] usedLog.wal usedLog.disk) at ran
    generalize Wal.reset.run [] usedLog.wal usedLog.disk = ended at ran ⊢
    rcases ended with ⟨_ | _ | _, _⟩
    · exact ran
    · exact ran.elim
    · exact ran.elim
  · intro slot frame member
    -- the commit was synced: each slot has the version it holds
    exact tracks.fresh slot frame (List.mem_singleton.mp member).symm

end Examples

end Labdb.Storage
