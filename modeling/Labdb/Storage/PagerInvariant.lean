import Labdb.Storage.Database
import Labdb.Storage.WalSpec

/-! What ties the pager and the two files to a database: what a recovery of the
files would read, and what the pager reads within its transaction. -/

namespace Labdb.Storage

open Labdb.Program

/-- A recovery of these files reads this database: the log's version of a page
where it would redo one, else the file's. -/
structure Files.Stores (files : Files) (databaseId : Nat) (database : Database) : Prop where
  filed : 0 < files.pages.length ∧ ∃ fields, (files.page 0).body = .record fields databaseId
  fields : ((files.log.redo 0).getD (files.page 0)).body = .record database.fields databaseId
  pages : ∀ id, id ≠ 0 → (files.log.redo id).getD (files.page id) = database.page id
  sized : files.log.redo 0 = none → database.fields.pageCount ≤ files.pages.length
  whole : files.log.redo 0 = none → ∀ id, files.log.redo id = none
  bounded : ∀ id, files.log.redo id ≠ none → id < database.fields.pageCount
  counted : 0 < database.fields.pageCount
  named : database.Named

/-- Files a process may open: new ones, or ones that store the database. -/
def Files.Sound (files : Files) (database : Database) : Prop :=
  files = {} ∧ database = .initial ∨
    ∃ wal : Wal, wal.Holds files.log ∧ files.Stores wal.databaseId database

/-- A call that may be made, over files that store this database. -/
def Asks (synced : Prop) (database : Database) (request : FileCall) (disk : Disk) : Prop :=
  Legal synced request disk ∧ disk.files.Sound database

namespace Pager

/-- The pager knows what was committed last, whatever became of the transaction. -/
structure Keeps (pager : Pager) (files : Files) (acked : Database) : Prop where
  holds : pager.wal.Holds files.log
  identity : pager.wal.databaseId = pager.databaseId
  stores : files.Stores pager.databaseId acked
  committed : pager.committedMeta = acked.fields
  filePages : pager.filePages = files.pages.length

/-- The pager reads `current`, on top of what was committed last. -/
structure Shows (pager : Pager) (files : Files) (acked current : Database) : Prop
    extends Keeps pager files acked where
  tracks : pager.wal.Tracks files.log
  meta_ : pager.meta_ = current.fields
  pages : ∀ id, id ≠ 0 → (pager.wal.version files.log id).getD (files.page id) = current.page id
  bounded : ∀ id, pager.wal.version files.log id ≠ none → id < current.fields.pageCount
  counted : 0 < current.fields.pageCount
  named : current.Named
  idle : pager.inTransaction = false → current = acked

end Pager

theorem Files.Stores.congr {files files' : Files} {databaseId : Nat} {database : Database}
    (stores : files.Stores databaseId database) (pages : files'.pages = files.pages)
    (redo : ∀ id, files'.log.redo id = files.log.redo id) : files'.Stores databaseId database := by
  have page : ∀ id, files'.page id = files.page id := by
    intro id
    simp [Files.page, pages]
  refine ⟨?_, ?_, ?_, ?_, ?_, ?_, stores.counted, stores.named⟩
  · rw [pages, page]
    exact stores.filed
  · rw [redo, page]
    exact stores.fields
  · intro id
    rw [redo, page]
    exact stores.pages id
  · rw [redo, pages]
    exact stores.sized
  · intro none id
    rw [redo] at none ⊢
    exact stores.whole none id
  · intro id
    rw [redo]
    exact stores.bounded id

/-- Whatever is written over a page that the log would redo, a recovery reads the same. -/
theorem Files.Stores.overwrite {files : Files} {databaseId : Nat} {database : Database}
    (stores : files.Stores databaseId database) {id : PageId} {page content : Page}
    (found : files.log.redo id = some page)
    (own : id = 0 → ∃ fields, content.body = .record fields databaseId) :
    ({ files with pages := placeAt {} files.pages id content } : Files).Stores databaseId
      database := by
  have placed : ∀ other,
      ({ files with pages := placeAt {} files.pages id content } : Files).page other =
        if id = other then content else files.page other :=
    fun other => getD_placeAt ({} : Page) files.pages id other content
  have same : ∀ other, (files.log.redo other).getD
      (({ files with pages := placeAt {} files.pages id content } : Files).page other) =
      (files.log.redo other).getD (files.page other) := by
    intro other
    rw [placed]
    split
    · subst other
      simp [found]
    · rfl
  refine ⟨⟨?_, ?_⟩, ?_, ?_, ?_, stores.whole, stores.bounded, stores.counted, stores.named⟩
  · have filed := stores.filed.1
    simp only [length_placeAt]
    omega
  · rw [placed]
    split
    · rename_i first
      exact own first
    · exact stores.filed.2
  · rw [same]
    exact stores.fields
  · intro other inside
    rw [same]
    exact stores.pages other inside
  · intro none
    have sized := stores.sized none
    simp only [length_placeAt]
    omega

/-- Redoing one page of the log into the file changes nothing a recovery reads. -/
theorem Files.Stores.redo {files : Files} {databaseId : Nat} {database : Database}
    (stores : files.Stores databaseId database) {id : PageId} {page : Page}
    (found : files.log.redo id = some page) :
    ({ files with pages := placeAt {} files.pages id page } : Files).Stores databaseId database := by
  refine stores.overwrite found fun first => ?_
  subst first
  exact ⟨_, by simpa [found] using stores.fields⟩

/-- A longer file reads the same. -/
theorem Files.Stores.resize {files : Files} {databaseId : Nat} {database : Database}
    (stores : files.Stores databaseId database) {count : Nat} (longer : files.pages.length ≤ count) :
    ({ files with pages := files.pages.takeD count {} } : Files).Stores databaseId database := by
  have same : ∀ id, ({ files with pages := files.pages.takeD count {} } : Files).page id =
      files.page id :=
    fun id => getD_takeD ({} : Page) files.pages count id longer
  refine ⟨⟨?_, ?_⟩, ?_, ?_, ?_, stores.whole, stores.bounded, stores.counted, stores.named⟩
  · have filed := stores.filed.1
    simp only [List.takeD_length]
    omega
  · rw [same]
    exact stores.filed.2
  · rw [same]
    exact stores.fields
  · intro id inside
    rw [same]
    exact stores.pages id inside
  · intro none
    have sized := stores.sized none
    simp only [List.takeD_length]
    omega

/-- Once everything the log would redo is in the file, the log may be given up. -/
theorem Files.Stores.clear {files files' : Files} {databaseId : Nat} {database : Database}
    (stores : files.Stores databaseId database)
    (copied : ∀ id page, files.log.redo id = some page → files.page id = page)
    (enough : database.fields.pageCount ≤ files.pages.length)
    (pages : files'.pages = files.pages) (cleared : ∀ id, files'.log.redo id = none) :
    files'.Stores databaseId database := by
  have same : ∀ id, (files'.log.redo id).getD (files'.page id) =
      (files.log.redo id).getD (files.page id) := by
    intro id
    simp only [cleared, Option.getD_none, Files.page, pages]
    cases found : files.log.redo id with
    | none => rfl
    | some page => exact copied id page found
  refine ⟨?_, ?_, ?_, ?_, ?_, ?_, stores.counted, stores.named⟩
  · simpa only [Files.page, pages] using stores.filed
  · rw [same]
    exact stores.fields
  · intro id inside
    rw [same]
    exact stores.pages id inside
  · intro _
    rwa [pages]
  · intro _ id
    exact cleared id
  · intro id found
    exact absurd (cleared id) found

namespace Pager

variable {pager : Pager} {files files' : Files} {acked current : Database} {wal' : Wal}

theorem Keeps.spares (keeps : pager.Keeps files acked)
    (spares : Wal.Spares pager.wal files wal' files') :
    { pager with wal := wal' }.Keeps files' acked :=
  ⟨spares.holds, spares.identity.trans keeps.identity, keeps.stores.congr spares.pages spares.redo,
    keeps.committed, by rw [spares.pages]; exact keeps.filePages⟩

theorem Keeps.owns (keeps : pager.Keeps files acked) : pager.wal.Owns files := by
  intro fields databaseId body
  obtain ⟨_, _, filed⟩ := keeps.stores.filed
  rw [body] at filed
  injection filed with _ same
  exact keeps.identity.trans same.symm

theorem Keeps.sound (keeps : pager.Keeps files acked) : files.Sound acked :=
  .inr ⟨pager.wal, keeps.holds, keeps.identity ▸ keeps.stores⟩

/-- Dropping the transaction returns to what was committed last. -/
theorem Keeps.rollback (keeps : pager.Keeps files acked) :
    { pager with
      wal := { pager.wal with pending := ∅, end_ := pager.wal.commitEnd }
      meta_ := pager.committedMeta, metaDirty := false }.Shows files acked acked := by
  have tracks := keeps.holds.rollback
  have version := Wal.Holds.version_eq_redo tracks.toHolds rfl
  refine ⟨⟨tracks.toHolds, keeps.identity, keeps.stores, keeps.committed, keeps.filePages⟩, tracks,
    keeps.committed, ?_, ?_, keeps.stores.counted, keeps.stores.named, fun _ => rfl⟩
  · intro id inside
    exact (congrArg (Option.getD · _) (version id)).trans (keeps.stores.pages id inside)
  · intro id found
    exact keeps.stores.bounded id (version id ▸ found)

end Pager

end Labdb.Storage
