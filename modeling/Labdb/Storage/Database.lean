import Labdb.Storage.Pager

/-! What the pager is for: meta fields and pages that change together at a commit
and return to the last one at a rollback. Nothing here knows of files. -/

namespace Labdb.Storage

/-- The content of a database: its meta fields, and its pages behind the meta page. -/
structure Database where
  fields : Meta := {}
  page : PageId → Page := fun _ => {}

namespace Database

/-- A new database: the meta page alone, no roots, nothing free. -/
def initial : Database := {}

/-- Every page carries its own id or was never formatted; the meta page is no page
of its own. -/
structure Named (database : Database) : Prop where
  meta_ : database.page 0 = {}
  pages : ∀ id, (database.page id).id = id ∨ (database.page id).type = .kInvalid

/-- The page exists and is not the meta page. -/
def Covers (database : Database) (id : PageId) : Prop :=
  id ≠ 0 ∧ id < database.fields.pageCount

instance (database : Database) (id : PageId) : Decidable (database.Covers id) :=
  inferInstanceAs (Decidable (_ ∧ _))

def read (database : Database) (id : PageId) : Option Page :=
  if database.Covers id then some (database.page id) else none

def write (database : Database) (id : PageId) (page : Page) : Option Database :=
  if database.Covers id ∧ page.id = id then
    some { database with page := Function.update database.page id page }
  else none

/-- The head of the free list, or one more page. -/
def allocate (database : Database) : Option (PageId × Database) :=
  if database.fields.freelistHead = kNullPage then
    some (database.fields.pageCount,
      { database with fields.pageCount := database.fields.pageCount + 1 })
  else
    match database.read database.fields.freelistHead with
    | some page =>
        if page.type = .kFree then
          some (database.fields.freelistHead, { database with fields.freelistHead := page.nextPage })
        else none
    | none => none

/-- A page that is not free becomes the head of the free list. -/
def free (database : Database) (id : PageId) : Option Database :=
  match database.read id with
  | some page =>
      if page.type = .kFree then none
      else some {
        fields := { database.fields with freelistHead := id }
        page := Function.update database.page id
          (Pager.freePageOf id database.fields.freelistHead) }
  | none => none

theorem named_update {database : Database} (named : database.Named) {id : PageId} {page : Page}
    (inside : id ≠ 0) (own : page.id = id) {fields : Meta} :
    Named ⟨fields, Function.update database.page id page⟩ := by
  constructor
  · simpa [Function.update_of_ne inside.symm] using named.meta_
  · intro other
    by_cases same : other = id
    · subst other
      simp [own]
    · simpa [Function.update_of_ne same] using named.pages other

theorem named_initial : initial.Named := ⟨rfl, fun _ => .inr rfl⟩

end Database

end Labdb.Storage
