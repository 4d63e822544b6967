import Labdb.Storage.Database
import Mathlib.Data.List.Range

/-! The free list: pages linked from the head in the meta fields, and the split of a
database into the pages that were handed out and the pages on the list. -/

namespace Labdb.Storage.Database

/-- The free list of a database, from `head` on. -/
def Chained (database : Database) : PageId → List PageId → Prop
  | head, [] => head = kNullPage
  | head, id :: rest => head = id ∧ database.Covers id ∧ (database.page id).type = .kFree ∧
      database.Chained (database.page id).nextPage rest

variable {database database' : Database} {head id : PageId} {free free' : List PageId}

theorem Chained.head_eq (chained : database.Chained head free) : head = free.headD kNullPage := by
  cases free with
  | nil => exact chained
  | cons id rest => exact chained.1

theorem Chained.congr (chained : database.Chained head free)
    (covers : ∀ id, database.Covers id → database'.Covers id)
    (page : ∀ id ∈ free, database'.page id = database.page id) : database'.Chained head free := by
  induction free generalizing head with
  | nil => exact chained
  | cons id rest ih =>
    obtain ⟨same, inside, type, rest⟩ := chained
    rw [Chained, page id List.mem_cons_self]
    exact ⟨same, covers id inside, type,
      ih rest fun other member => page other (List.mem_cons_of_mem _ member)⟩

private theorem Chained.type_free (chained : database.Chained head free) (member : id ∈ free) :
    (database.page id).type = .kFree := by
  induction free generalizing head with
  | nil => cases member
  | cons first rest ih =>
    rcases List.mem_cons.mp member with rfl | later
    · exact chained.2.2.1
    · exact ih chained.2.2.2 later

/-- The pages of the list say where it goes on, so there is only one. -/
theorem Chained.unique (chained : database.Chained head free)
    (chained' : database.Chained head free') : free = free' := by
  induction free generalizing head free' with
  | nil =>
    cases free' with
    | nil => rfl
    | cons id rest => exact absurd (chained'.1.symm.trans chained) chained'.2.1.1
  | cons id rest ih =>
    obtain ⟨rfl, inside, _, rest⟩ := chained
    cases free' with
    | nil => exact absurd chained' inside.1
    | cons id' rest' =>
      obtain ⟨rfl, _, _, rest'⟩ := chained'
      rw [ih rest rest']

theorem Chained.tail {front back : List PageId}
    (chained : database.Chained head (front ++ id :: back)) :
    database.Chained (database.page id).nextPage back := by
  induction front generalizing head with
  | nil => exact chained.2.2.2
  | cons first rest ih => exact ih chained.2.2.2

/-- A page is on the list once: else the list would go on for ever. -/
theorem Chained.nodup (chained : database.Chained head free) : free.Nodup := by
  induction free generalizing head with
  | nil => exact List.nodup_nil
  | cons id rest ih =>
    have rest_chained := chained.2.2.2
    refine List.nodup_cons.mpr ⟨fun member => ?_, ih rest_chained⟩
    obtain ⟨front, back, rfl⟩ := List.append_of_mem member
    have same := rest_chained.unique rest_chained.tail
    have longer := congrArg List.length same
    simp only [List.length_append, List.length_cons] at longer
    omega

end Labdb.Storage.Database

namespace Labdb.Storage

/-- Pages in the hands of callers, and those of them that are written and so may be freed. -/
structure Tenancy where
  used : List PageId := []
  ready : List PageId := []

namespace Tenancy

def allocate (tenancy : Tenancy) (id : PageId) : Tenancy :=
  { tenancy with used := id :: tenancy.used }

def free (tenancy : Tenancy) (id : PageId) : Tenancy where
  used := tenancy.used.erase id
  ready := tenancy.ready.filter fun other => decide (other ≠ id)

def write (tenancy : Tenancy) (id : PageId) (page : Page) : Tenancy where
  used := tenancy.used
  ready := if page.type = .kFree then tenancy.ready.filter fun other => decide (other ≠ id)
    else id :: tenancy.ready

end Tenancy

/-- The pages behind the meta page are those handed out and those on the free list. -/
structure Database.Splits (database : Database) (tenancy : Tenancy) (free : List PageId) :
    Prop where
  chained : database.Chained database.fields.freelistHead free
  parts : (tenancy.used ++ free).Perm (List.range' 1 (database.fields.pageCount - 1))
  ready : ∀ id ∈ tenancy.ready, id ∈ tenancy.used ∧ (database.page id).type ≠ .kFree
  counted : 0 < database.fields.pageCount

namespace Database.Splits

variable {database : Database} {tenancy : Tenancy} {free : List PageId} {id : PageId}

private theorem covers_iff (splits : database.Splits tenancy free) :
    database.Covers id ↔ id ∈ tenancy.used ∨ id ∈ free := by
  have counted := splits.counted
  rw [← List.mem_append, splits.parts.mem_iff, List.mem_range'_1, Nat.add_sub_cancel' counted]
  exact and_congr_left fun _ => Nat.pos_iff_ne_zero.symm

theorem apart (splits : database.Splits tenancy free) (member : id ∈ tenancy.used) : id ∉ free := by
  have nodup := splits.parts.nodup_iff.mpr List.nodup_range'
  exact fun listed => (List.nodup_append.mp nodup).2.2 id member id listed rfl

private theorem type_free (splits : database.Splits tenancy free) (member : id ∈ free) :
    (database.page id).type = .kFree :=
  splits.chained.type_free member

/-- An allocation hands out a page that nobody holds, and grows the database only when
nothing is free. -/
theorem allocate (splits : database.Splits tenancy free) :
    ∃ id fields free', database.allocate = some (id, { database with fields }) ∧
      id ∉ tenancy.used ∧ (fields.pageCount ≠ database.fields.pageCount → free = []) ∧
      Splits { database with fields } (tenancy.allocate id) free' := by
  have counted := splits.counted
  have chained := splits.chained
  cases free with
  | nil =>
    refine ⟨database.fields.pageCount, _, [], if_pos chained, ?_, fun _ => rfl,
      chained, ?_, ?_, Nat.succ_pos _⟩
    · intro member
      exact Nat.lt_irrefl _ ((splits.covers_iff.mpr (.inl member)).2)
    · have parts := splits.parts
      rw [List.append_nil] at parts ⊢
      obtain ⟨count, same⟩ := Nat.exists_eq_succ_of_ne_zero (Nat.ne_of_gt counted)
      simp only [Tenancy.allocate, same, Nat.succ_eq_add_one, Nat.add_sub_cancel] at parts ⊢
      rw [List.range'_1_concat, Nat.add_comm 1 count]
      exact (List.Perm.cons _ parts).trans (List.perm_append_singleton _ _).symm
    · intro id member
      exact ⟨List.mem_cons_of_mem _ (splits.ready id member).1, (splits.ready id member).2⟩
  | cons first rest =>
    obtain ⟨same, covers, type, rest_chained⟩ := chained
    have fresh : first ∉ tenancy.used := fun member =>
      splits.apart member List.mem_cons_self
    refine ⟨first, { database.fields with freelistHead := (database.page first).nextPage }, rest,
      ?_, fresh, fun grown => absurd rfl grown, ?_, ?_, ?_, counted⟩
    · have real : first ≠ kNullPage := covers.1
      rw [Database.allocate, same, if_neg real, Database.read, if_pos covers]
      simp only [type, ↓reduceIte]
    · exact rest_chained.congr (fun _ covers => covers) fun _ _ => rfl
    · exact (List.perm_middle.symm).trans splits.parts
    · intro id member
      exact ⟨List.mem_cons_of_mem _ (splits.ready id member).1, (splits.ready id member).2⟩

/-- A page that is freed becomes the head of the list. -/
theorem freed (splits : database.Splits tenancy free) {database' : Database}
    (done : database.free id = some database') :
    database'.Splits (tenancy.free id) (id :: free) := by
  unfold Database.free Database.read at done
  by_cases covers : database.Covers id
  · rw [if_pos covers] at done
    simp only at done
    split at done
    · cases done
    · rename_i type
      cases done
      have used : id ∈ tenancy.used := by
        refine (splits.covers_iff.mp covers).resolve_right fun listed => type ?_
        exact splits.type_free listed
      have kept : ∀ other, other ≠ id → Function.update database.page id
          (Pager.freePageOf id database.fields.freelistHead) other = database.page other :=
        fun other different => Function.update_of_ne different _ _
      have placed : Function.update database.page id
          (Pager.freePageOf id database.fields.freelistHead) id =
            Pager.freePageOf id database.fields.freelistHead :=
        Function.update_self ..
      refine ⟨⟨rfl, covers, congrArg Page.type placed, ?_⟩, ?_, ?_, splits.counted⟩
      · have next := congrArg Page.nextPage placed
        dsimp only at next ⊢
        rw [next]
        refine splits.chained.congr (fun _ covers => covers) fun other member => kept other ?_
        rintro rfl
        exact splits.apart used member
      · have parts := splits.parts
        have moved := (List.perm_cons_erase used).symm
        refine List.Perm.trans ?_ parts
        refine List.perm_middle.trans ?_
        exact List.Perm.append_right free moved
      · intro other member
        obtain ⟨before, different⟩ := List.mem_filter.mp member
        have different : other ≠ id := of_decide_eq_true different
        refine ⟨(List.mem_erase_of_ne different).mpr (splits.ready other before).1, ?_⟩
        dsimp only
        rw [kept other different]
        exact (splits.ready other before).2
  · rw [if_neg covers] at done
    cases done

theorem frees (splits : database.Splits tenancy free) (member : id ∈ tenancy.ready) :
    (database.free id).isSome := by
  obtain ⟨used, type⟩ := splits.ready id member
  rw [Database.free, Database.read, if_pos (splits.covers_iff.mpr (.inl used))]
  simp only [type, ↓reduceIte, Option.isSome_some]

/-- A write of a page that is not free leaves the split. -/
theorem written (splits : database.Splits tenancy free) {database' : Database} {page : Page}
    (done : database.write id page = some database') (unfree : id ∉ free) :
    database'.Splits (tenancy.write id page) free := by
  unfold Database.write at done
  split at done
  · rename_i legal
    cases done
    have used : id ∈ tenancy.used := (splits.covers_iff.mp legal.1).resolve_right unfree
    refine ⟨?_, splits.parts, ?_, splits.counted⟩
    · refine splits.chained.congr (fun _ covers => covers) fun other member => ?_
      refine Function.update_of_ne ?_ _ _
      rintro rfl
      exact unfree member
    · intro other member
      by_cases same : other = id
      · subst other
        refine ⟨used, fun type => ?_⟩
        replace type : page.type = .kFree := (congrArg Page.type (Function.update_self ..)).symm.trans type
        simp [Tenancy.write, type] at member
      · have before : other ∈ tenancy.ready := by
          simp only [Tenancy.write] at member
          split at member
          · exact (List.mem_filter.mp member).1
          · exact (List.mem_cons.mp member).resolve_left same
        refine ⟨(splits.ready other before).1, ?_⟩
        dsimp only
        rw [Function.update_of_ne same]
        exact (splits.ready other before).2
  · cases done

theorem refield (splits : database.Splits tenancy free) {fields : Meta}
    (count : fields.pageCount = database.fields.pageCount)
    (head : fields.freelistHead = database.fields.freelistHead) :
    Splits { database with fields } tenancy free := by
  refine ⟨?_, ?_, splits.ready, Nat.lt_of_lt_of_eq splits.counted count.symm⟩
  · refine (head ▸ splits.chained).congr (fun id covers => ⟨covers.1, ?_⟩) fun _ _ => rfl
    exact Nat.lt_of_lt_of_eq covers.2 count.symm
  · exact count ▸ splits.parts

theorem initial : Database.initial.Splits {} [] :=
  ⟨rfl, List.Perm.refl _, nofun, Nat.one_pos⟩

end Database.Splits

end Labdb.Storage
