import Labdb.Program.Outcomes
import Labdb.Storage.Session

/-! The meta page counts: whatever becomes of a call of the pager, the page count is never 0, so
page 0 is never read or handed out. -/

namespace Labdb.Storage.Pager

open Labdb.Program

/-- Page 0, the meta page, counts among the pages, now and as of the last commit. -/
def Counted (pager : Pager) : Prop :=
  0 < pager.meta_.pageCount ∧ 0 < pager.committedMeta.pageCount

instance (pager : Pager) : Decidable pager.Counted := inferInstanceAs (Decidable (_ ∧ _))

theorem Shows.isCounted {pager : Pager} {files : Files} {acked current : Database}
    (shows : pager.Shows files acked current) : pager.Counted := by
  constructor
  · rw [shows.meta_]
    exact shows.counted
  · rw [shows.committed]
    exact shows.stores.counted

section Counted

variable {α : Type} {id : PageId}

private theorem counted_onWal {program : WalM α} : Prog.Preserves Counted (onWal program) :=
  .zoom fun _ _ counted => counted

private theorem counted_checkThat {ok : Bool} {what : String} :
    Prog.Preserves Counted (checkThat ok what : PagerM Unit) := by
  unfold checkThat
  split
  · exact .ret ()
  · exact .raise _

theorem counted_readPage : Prog.Preserves Counted (readPage id) := by
  unfold readPage
  apply Prog.Preserves.get
  intro pager _
  apply counted_checkThat.bind
  intro _
  apply counted_onWal.bind
  intro found
  apply Prog.Preserves.look.bind
  intro disk
  have checked : ∀ page : Page, Prog.Preserves Counted (do
      checkThat (page.id = id ∨ page.type = .kInvalid)
        "read_page: page header claims a different id (corruption?)"
      pure page : PagerM Page) :=
    fun page => counted_checkThat.bind fun _ => .ret page
  dsimp only
  split
  · exact checked _
  · split
    · split
      · exact checked _
      · exact (Prog.Preserves.raise _).bind checked
    · exact checked _

theorem counted_writePage {page : Page} : Prog.Preserves Counted (writePage id page) := by
  unfold writePage
  apply Prog.Preserves.get
  intro pager _
  exact counted_checkThat.bind fun _ => counted_checkThat.bind fun _ => counted_onWal

/-- An allocation counts one page more, where the count has room for it. -/
theorem counted_allocatePage {pager : Pager} {disk : Disk} (counted : pager.Counted)
    (fits : pager.meta_.Fits) :
    allocatePage.Always (fun _ pager' _ => pager'.Counted) (fun _ pager' _ => pager'.Counted)
      pager disk := by
  unfold allocatePage
  rw [Prog.Always, Prog.wp_bind, Prog.wp_get]
  split
  · rename_i empty
    have grown : 0 < (pager.meta_.pageCount + 1) % UInt32.size := by
      rw [Nat.mod_eq_of_lt (fits empty)]
      exact Nat.succ_pos _
    exact ⟨grown, counted.2⟩
  · have popped : ∀ page : Page, Prog.Preserves Counted (do
        checkThat (page.type = .kFree) "free-list contains a page not marked free"
        Prog.modify fun pager => { pager with
          meta_ := { pager.meta_ with freelistHead := page.nextPage }, metaDirty := true }
        pure pager.meta_.freelistHead : PagerM PageId) := by
      intro page
      apply counted_checkThat.bind
      intro _
      apply Prog.Preserves.bind
      · exact .modify fun _ counted => counted
      · exact fun _ => .ret _
    exact counted_readPage.bind popped pager disk counted

theorem counted_freePage : Prog.Preserves Counted (freePage id) := by
  unfold freePage
  apply Prog.Preserves.get
  intro pager _
  apply counted_checkThat.bind
  intro _
  apply counted_readPage.bind
  intro page
  apply counted_checkThat.bind
  intro _
  exact counted_writePage.bind fun _ => .modify fun _ counted => counted

private theorem counted_copyFrames (frames : List (PageId × Nat)) :
    Prog.Preserves Counted (copyFrames frames) := by
  induction frames with
  | nil => exact .ret ()
  | cons frame rest ih =>
    obtain ⟨id, slot⟩ := frame
    exact counted_onWal.bind fun _ => (Prog.Preserves.call _ _).bind fun _ => ih

private theorem counted_checkpoint : Prog.Preserves Counted checkpoint := by
  unfold checkpoint
  apply Prog.Preserves.get
  intro pager _
  apply counted_checkThat.bind
  intro _
  dsimp only
  split
  · exact .ret ()
  · apply counted_onWal.when.bind
    intro _
    apply (counted_copyFrames _).bind
    intro _
    apply Prog.Preserves.look.bind
    intro disk
    apply (Prog.Preserves.call _ _).when.bind
    intro _
    apply (Prog.Preserves.call _ _).when.bind
    intro _
    apply Prog.Preserves.bind
    · exact .modify fun _ counted => counted
    · exact fun _ => counted_onWal

theorem counted_commit : Prog.Preserves Counted commit := by
  have log : Prog.Preserves Counted commitLog := by
    unfold commitLog
    apply Prog.Preserves.get
    intro pager _
    exact counted_onWal.bind fun _ => .modify fun _ counted => ⟨counted.1, counted.1⟩
  unfold commit
  apply Prog.Preserves.get
  intro pager _
  split
  · exact log.bind fun _ => .get fun _ _ => counted_checkpoint.when
  · exact .ret ()

theorem counted_rollback : Prog.Preserves Counted rollback :=
  counted_onWal.bind fun _ => .modify fun _ counted => ⟨counted.2, counted.2⟩

theorem counted_sync : Prog.Preserves Counted sync :=
  counted_commit.bind fun _ => counted_checkpoint.bind fun _ => .call _ _

/-- No page 0 is read. -/
theorem always_readPage {pager : Pager} {disk : Disk} :
    (readPage id).Always (fun _ _ _ => id ≠ kNullPage) (fun _ _ _ => True) pager disk := by
  unfold readPage
  rw [Prog.Always, Prog.wp_bind, Prog.wp_get, Prog.wp_bind, wp_checkThat]
  split
  · rename_i inRange
    have inRange := of_decide_eq_true inRange
    exact Prog.wp_mono Prog.wp_ends (fun _ _ _ _ => inRange.1) (fun _ _ _ _ => trivial)
      fun _ _ asked => asked
  · trivial

/-- No page 0 is handed out. -/
theorem always_allocatePage {pager : Pager} {disk : Disk} (counted : pager.Counted) :
    allocatePage.Always (fun id _ _ => id ≠ kNullPage) (fun _ _ _ => True) pager disk := by
  unfold allocatePage
  rw [Prog.Always, Prog.wp_bind, Prog.wp_get]
  split
  · rw [Prog.wp_bind, Prog.wp_set]
    exact Nat.ne_of_gt counted.1
  · rename_i real
    rw [Prog.wp_bind]
    apply Prog.wp_mono Prog.wp_ends
    · intro page pager' disk' _
      rw [Prog.wp_bind, wp_checkThat]
      split
      · exact real
      · trivial
    · exact fun _ _ _ _ => trivial
    · exact fun _ _ asked => asked

end Counted

end Labdb.Storage.Pager
