import Labdb.Engine.Growth
import Labdb.BTree.LeafChain

/-! Which pages a call takes, and that all others are as they were: so what lies on pages of its
own stays while the call works on its own. -/

namespace Labdb.Engine

open Labdb.BTree Labdb.Catalog Labdb.Data Labdb.Heap Labdb.Program Labdb.Query Labdb.Record

variable {d d' d'' : Disk} {old mid new left right : List PageNo} {id : PageNo}

/-- The disk once a page of records was written. -/
def Disk.put (d : Disk) (id : PageNo) (p : Image) : Disk :=
  { d with records := Function.update d.records id p }

@[simp] theorem records_put (d : Disk) (id : PageNo) (p : Image) : (d.put id p).records id = p :=
  Function.update_self _ _ _

theorem records_put_ne {other : PageNo} (d : Disk) (p : Image) (apart : other ≠ id) :
    (d.put id p).records other = d.records other :=
  Function.update_of_ne apart _ _

/-- The disk with a fresh page of records. -/
def Disk.grown (alloc : Allocator) (d : Disk) (p : Image) : Disk :=
  { d with
    used := alloc.pick d.requests d.used :: d.used
    requests := d.requests + 1
    records := Function.update d.records (alloc.pick d.requests d.used) p }

theorem put_grown (alloc : Allocator) (d : Disk) (p q : Image) :
    (d.grown alloc p).put (alloc.pick d.requests d.used) q = d.grown alloc q := by
  unfold Disk.put Disk.grown
  rw [Function.update_idem]

theorem records_grown (alloc : Allocator) (d : Disk) (p : Image) :
    (d.grown alloc p).records (alloc.pick d.requests d.used) = p :=
  Function.update_self _ _ _

theorem records_grown_ne {alloc : Allocator} (d : Disk) (p : Image)
    (apart : id ≠ alloc.pick d.requests d.used) :
    (d.grown alloc p).records id = d.records id :=
  Function.update_of_ne apart _ _

/-- Pages `old` have become pages `new`, the ones more being fresh, and no other page was written. -/
structure Takes (d : Disk) (old : List PageNo) (d' : Disk) (new : List PageNo) : Prop where
  nodup : new.Nodup
  owned : ∀ id ∈ new, id ∈ d'.used
  fresh : ∀ id ∈ new, id ∈ old ∨ id ∉ d.used ∧ id ≠ Storage.kNullPage
  stays : d.used ⊆ d'.used
  nodes : ∀ id ∈ d.used, id ∉ old → d'.nodes id = d.nodes id
  records : ∀ id ∈ d.used, id ∉ old → d'.records id = d.records id

/-- Different pages in use, none of them the null page. -/
structure Owns (d : Disk) (ids : List PageNo) : Prop where
  nodup : ids.Nodup
  used : ∀ id ∈ ids, id ∈ d.used
  real : ∀ id ∈ ids, id ≠ Storage.kNullPage

theorem Owns.sublist {ids part : List PageNo} (owns : Owns d ids) (within : part.Sublist ids) :
    Owns d part where
  nodup := owns.nodup.sublist within
  used id member := owns.used id (within.subset member)
  real id member := owns.real id (within.subset member)

namespace Takes

theorem refl (owns : Owns d old) : Takes d old d old where
  nodup := owns.nodup
  owned := owns.used
  fresh _ member := .inl member
  stays _ member := member
  nodes _ _ _ := rfl
  records _ _ _ := rfl

theorem trans (first : Takes d old d' mid) (second : Takes d' mid d'' new) :
    Takes d old d'' new where
  nodup := second.nodup
  owned := second.owned
  fresh id member := by
    rcases second.fresh id member with between | ⟨unused, real⟩
    · exact first.fresh id between
    · exact .inr ⟨fun used => unused (first.stays used), real⟩
  stays _ member := second.stays (first.stays member)
  nodes id used outside := by
    have apart : id ∉ mid := fun member =>
      (first.fresh id member).elim outside fun unused => unused.1 used
    rw [second.nodes id (first.stays used) apart, first.nodes id used outside]
  records id used outside := by
    have apart : id ∉ mid := fun member =>
      (first.fresh id member).elim outside fun unused => unused.1 used
    rw [second.records id (first.stays used) apart, first.records id used outside]

/-- With pages on both sides that stay. -/
theorem between (takes : Takes d mid d' new) (owns : Owns d (left ++ mid ++ right)) :
    Takes d (left ++ mid ++ right) d' (left ++ new ++ right) where
  nodup := by
    obtain ⟨nodup, used, -⟩ := owns
    simp only [List.nodup_append, List.mem_append] at nodup used ⊢
    have := takes.nodup
    have := takes.fresh
    grind
  owned id member := by
    have used := owns.used id
    have kept := @takes.stays id
    simp only [List.mem_append] at member used
    have := takes.owned id
    grind
  fresh id member := by
    simp only [List.mem_append] at member ⊢
    have := takes.fresh id
    grind
  stays := takes.stays
  nodes id used outside := by
    simp only [List.mem_append] at outside
    exact takes.nodes id used fun member => outside (.inl (.inr member))
  records id used outside := by
    simp only [List.mem_append] at outside
    exact takes.records id used fun member => outside (.inl (.inr member))

theorem owns (takes : Takes d old d' new) (owns : Owns d old) : Owns d' new where
  nodup := takes.nodup
  used := takes.owned
  real id member := (takes.fresh id member).elim (owns.real id) And.right

/-- Fresh pages in the place of others, which are given up. -/
theorem instead (takes : Takes d [] d' new) (old : List PageNo) : Takes d old d' new where
  nodup := takes.nodup
  owned := takes.owned
  fresh id member := .inr ((takes.fresh id member).resolve_left List.not_mem_nil)
  stays := takes.stays
  nodes id used _ := takes.nodes id used List.not_mem_nil
  records id used _ := takes.records id used List.not_mem_nil

/-- Only the page of the catalog was written since. -/
theorem withCatalog (takes : Takes d old d' new) (p : Image) :
    Takes d old { d' with catalog := p } new :=
  ⟨takes.nodup, takes.owned, takes.fresh, takes.stays, takes.nodes, takes.records⟩

/-- Pages that were written in place. -/
theorem written (takes : Takes d old d' new) (member : id ∈ new) (p : Image) :
    Takes d old (d'.put id p) new where
  nodup := takes.nodup
  owned := takes.owned
  fresh := takes.fresh
  stays := takes.stays
  nodes := takes.nodes
  records other used outside := by
    have apart : other ≠ id := by
      rintro rfl
      exact (takes.fresh other member).elim outside fun unused => unused.1 used
    exact (records_put_ne d' p apart).trans (takes.records other used outside)

end Takes

/-- Every page in use has a number of 32 bits. -/
def Disk.Small (d : Disk) : Prop := ∀ id ∈ d.used, id < 2 ^ 32

theorem Disk.Small.of_subset (small : d'.Small) (within : d.used ⊆ d'.used) : d.Small :=
  fun id member => small id (within member)

/-- So it was after the first part, for no call gives a page back. -/
theorem Disk.Small.first {α β : Type} {program : DiskM α} {next : α → DiskM β}
    (then_ : ∀ value, Grows (next value)) (small : ((program >>= next).leaves d).Small) :
    (program.leaves d).Small :=
  Stateful.Climbs.after_first then_ (fun climbs => fun small => Disk.Small.of_subset small climbs) small

theorem toNat_toUInt32 (small : id < 2 ^ 32) : (Nat.toUInt32 id).toNat = id :=
  UInt32.toNat_ofNat_of_lt' small

/-- The pages on which an operation of a tree works. -/
theorem Takes.of_replaced {s' : Store} {root : PageNo} (replaced : Replaced (d.view root) old s' new)
    (grows : d.used ⊆ s'.used) : Takes d old (d.take s') new where
  nodup := replaced.nodup
  owned id member := (replaced.used id).mpr (.inl member)
  fresh := replaced.fresh
  stays := grows
  nodes := replaced.kept
  records _ _ _ := rfl

section Runs

variable {α β : Type} {root : PageNo} {onRootChanged : PageNo → DiskM Unit} {operation : TreeM α}
  {value : α} {s' : Store}

theorem runOn_allocatePage (alloc : Allocator) (d : Disk) :
    (allocatePage alloc).runOn d = (.ok (alloc.pick d.requests d.used),
      d.grown alloc (Image.setId (fun _ => 0) (alloc.pick d.requests d.used).toUInt32)) := rfl

theorem runOn_readPage (id : PageNo) (d : Disk) : (readPage id).runOn d = (.ok (d.records id), d) := rfl

theorem runOn_writePage (id : PageNo) (p : Image) (d : Disk) :
    (writePage id p).runOn d = (.ok (), d.put id p) := rfl

theorem runOn_onCatalog (program : CatalogM α) (d : Disk) :
    (onCatalog program).runOn d =
      ((program.runOn d.catalog).1, { d with catalog := (program.runOn d.catalog).2 }) := rfl

theorem runOn_onTree (ran : operation (d.view root) = some (value, s')) :
    (onTree root onRootChanged operation).runOn d =
      ((do s'.reported.forM onRootChanged; pure value : DiskM α)).runOn (d.take s') := by
  unfold onTree
  rw [Stateful.runOn_get_bind, ran]
  rfl

/-- A tree that is only read. -/
theorem runOn_onTree_read (ran : operation (d.view root) = some (value, d.view root)) :
    (onTree root onRootChanged operation).runOn d = (.ok value, d) := by
  rw [runOn_onTree ran]
  rfl

end Runs

end Labdb.Engine
