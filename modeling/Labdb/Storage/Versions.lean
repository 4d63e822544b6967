import Labdb.Storage.Files

/-! The versions that a part of the files has had since the call that last made it
durable: what a power cut may leave of it. -/

namespace Labdb.Storage

open Labdb.Program

def versionsOf {α : Type} (part : Files → α) (settles : FileCall → Bool) (base : Files) :
    List Event → List α
  | [] => [part base]
  | event :: older =>
      let now := part ((event :: older).foldr Event.effect base)
      if event.whole && settles event.request then [now]
      else now :: versionsOf part settles base older

/-- The versions that a part of the files has had since the last call that made it
durable, newest first; the oldest of them is durable. -/
def Disk.versions {α : Type} (part : Files → α) (settles : FileCall → Bool) (disk : Disk) : List α :=
  versionsOf part settles disk.base disk.trace

def FileCall.settlesLog : FileCall → Bool
  | .syncLog => true
  | _ => false

def Disk.slotVersions (disk : Disk) (slot : Nat) : List Slot :=
  disk.versions (fun files => files.log.slot slot) FileCall.settlesLog

def Disk.headerVersions (disk : Disk) : List (Option LogHeader) :=
  disk.versions (fun files => files.log.header) FileCall.settlesLog

def FileCall.settlesFile : FileCall → Bool
  | .syncFile => true
  | _ => false

def Disk.pageVersions (disk : Disk) (id : PageId) : List Page :=
  disk.versions (fun files => files.page id) FileCall.settlesFile

/-- The frames written since the last sync of the log, with their slots, in a trace
whose newest call comes first. -/
def recentIn : List Event → List (Nat × Frame)
  | [] => []
  | ⟨.syncLog, true⟩ :: _ => []
  | ⟨.writeFrame slot frame, _⟩ :: older => (slot, frame) :: recentIn older
  | _ :: older => recentIn older

def Disk.recent (disk : Disk) : List (Nat × Frame) := recentIn disk.trace

/-- A sync of the log was issued after the last write to this slot. -/
def Disk.Covered (disk : Disk) (slot : Nat) : Prop := ∀ entry ∈ disk.recent, entry.1 ≠ slot

instance (disk : Disk) (slot : Nat) : Decidable (disk.Covered slot) :=
  inferInstanceAs (Decidable (∀ entry ∈ disk.recent, entry.1 ≠ slot))

/-- Either nothing is committed before this slot, or a sync covers the last commit. -/
def Disk.Vouched (disk : Disk) (commitEnd : Nat) : Prop :=
  commitEnd = 0 ∨ disk.Covered (commitEnd - 1)

section Recent

variable {disk : Disk} {slot : Nat}

@[simp] theorem recent_writeFrame {frame : Frame} :
    (Device.perform (FileCall.writeFrame slot frame) disk).recent = (slot, frame) :: disk.recent :=
  rfl

@[simp] theorem recent_syncLog : (Device.perform FileCall.syncLog disk).recent = [] := rfl

/-- Only a write of a frame adds to the recent frames. -/
theorem Disk.recent_push {event : Event}
    (other : ∀ index frame, event.request ≠ .writeFrame index frame) :
    (disk.push event).recent = if event.whole ∧ event.request = .syncLog then [] else disk.recent := by
  obtain ⟨request, whole⟩ := event
  cases request <;> cases whole <;> first | rfl | exact absurd rfl (other _ _)

theorem covered_writeFrame {index : Nat} {frame : Frame} :
    Disk.Covered (Device.perform (.writeFrame index frame) disk) slot ↔
      index ≠ slot ∧ disk.Covered slot := by
  simp [Disk.Covered]

theorem covered_syncLog : Disk.Covered (Device.perform .syncLog disk) slot := by
  simp [Disk.Covered]

theorem Disk.Covered.push (covered : disk.Covered slot) {event : Event}
    (other : ∀ index frame, event.request ≠ .writeFrame index frame) :
    (disk.push event).Covered slot := by
  unfold Disk.Covered
  rw [Disk.recent_push other]
  split
  · simp
  · exact covered

theorem Disk.Covered.perform (covered : disk.Covered slot) {request : FileCall}
    (other : ∀ index frame, request ≠ .writeFrame index frame) :
    Disk.Covered (Device.perform request disk) slot :=
  Disk.Covered.push covered other

/-- A call that writes no frame and does not sync the log covers nothing. -/
theorem covered_of_perform {request : FileCall} (quiet : request ≠ .syncLog)
    (covered : Disk.Covered (Device.perform request disk) slot) : disk.Covered slot := by
  cases request with
  | writeFrame index frame => exact (covered_writeFrame.mp covered).2
  | syncLog => exact absurd rfl quiet
  | writeLogHeader | truncateLog | writePage | resizeFile | syncFile => exact covered

end Recent

section Versions

variable {α : Type} {part : Files → α} {settles : FileCall → Bool} {disk : Disk} {event : Event}

private theorem Disk.versions_push (open_ : (event.whole && settles event.request) = false) :
    (disk.push event).versions part settles =
      part (disk.push event).files :: disk.versions part settles := by
  simp only [versions, push, versionsOf, open_]
  rfl

private theorem Disk.versions_settle (closed : (event.whole && settles event.request) = true) :
    (disk.push event).versions part settles = [part (disk.push event).files] := by
  simp only [versions, push, versionsOf, closed]
  rfl

theorem Disk.current_mem_versions : part disk.files ∈ disk.versions part settles := by
  obtain ⟨base, trace⟩ := disk
  cases trace with
  | nil => exact List.mem_singleton.mpr rfl
  | cons event older =>
    cases closed : event.whole && settles event.request with
    | true => simp [versions, versionsOf, closed, files]
    | false => simp [versions, versionsOf, closed, files]

/-- A call that does not make the part durable adds at most one version to it. -/
theorem Disk.mem_versions_push (open_ : (event.whole && settles event.request) = false) {value : α}
    (member : value ∈ (disk.push event).versions part settles) :
    value = part (disk.push event).files ∨ value ∈ disk.versions part settles := by
  rw [versions_push open_] at member
  exact List.mem_cons.mp member

theorem Disk.mem_versions_settle (closed : (event.whole && settles event.request) = true) {value : α}
    (member : value ∈ (disk.push event).versions part settles) :
    value = part (disk.push event).files := by
  rw [versions_settle closed] at member
  exact List.mem_singleton.mp member

/-- A call adds at most one version to a part. -/
theorem Disk.mem_versions_cons {value : α}
    (member : value ∈ (disk.push event).versions part settles) :
    value = part (disk.push event).files ∨ value ∈ disk.versions part settles := by
  cases closed : event.whole && settles event.request with
  | true => exact .inl (mem_versions_settle closed member)
  | false => exact mem_versions_push closed member

/-- A call that does not change the part adds no version to it. -/
theorem Disk.mem_versions_same {value : α} (same : part (disk.push event).files = part disk.files)
    (member : value ∈ (disk.push event).versions part settles) :
    value ∈ disk.versions part settles := by
  rcases mem_versions_cons member with rfl | older
  · rw [same]
    exact current_mem_versions
  · exact older

end Versions

end Labdb.Storage
