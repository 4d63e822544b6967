import Labdb.Data.CountingSort
import Labdb.Query.Batch
import Mathlib.Algebra.Order.BigOperators.Group.List
import Mathlib.Algebra.Order.Ring.Nat

/-! The hash table of a join: rows filed under the raw hash of their key, and grouped by
bucket with a counting sort. Row ids and offsets, of 32 bits in the source, are numbers. -/

namespace Labdb.Query

open Labdb.Data

/-- MurmurHash3's finalizer. -/
def mix64 (x : UInt64) : UInt64 :=
  let x := x ^^^ (x >>> 33)
  let x := x * 0xff51afd7ed558ccd
  let x := x ^^^ (x >>> 33)
  let x := x * 0xc4ceb9fe1a85ec53
  x ^^^ (x >>> 33)

/-- FNV-1a of a string's bytes. -/
def fnv1a (text : Text) : UInt64 :=
  text.foldl (fun hash byte => (hash ^^^ byte.toUInt64) * 0x100000001b3) 0xcbf29ce484222325

structure JoinHashTable where
  mix : UInt64 → UInt64
  rows : List Row := []
  hashes : List UInt64 := []
  offset : List Nat := []
  order : List Nat := []
  mask : Nat := 0

namespace JoinHashTable

variable (table : JoinHashTable)

/-- File a row under its key's raw hash. -/
def add (hash : UInt64) (row : Row) : JoinHashTable :=
  { table with hashes := table.hashes ++ [hash], rows := table.rows ++ [row] }

def bucketOf (hash : UInt64) : Nat := (table.mix hash).toNat &&& table.mask

/-- The bucket of a row that was filed. -/
def bucketOfId (id : Nat) : Nat := table.bucketOf (table.hashes.getD id 0)

/-- The end of the build: the row ids grouped by bucket, each in the order filed. -/
def finish : JoinHashTable :=
  let size := table.hashes.length
  let buckets := doubled size 1 size
  let table := { table with mask := buckets - 1 }
  let offset := CountingSort.accumulate buckets
    (CountingSort.tally table.bucketOf table.hashes (List.replicate (buckets + 1) 0))
  let (order, _) := (List.range size).foldl (CountingSort.place table.bucketOfId)
    (List.replicate size 0, offset.dropLast)
  { table with offset, order }

/-- The run of positions that hold the rows of a hash's bucket. -/
def bucketRange (hash : UInt64) : Nat × Nat :=
  let b := table.bucketOf hash
  (table.offset.getD b 0, table.offset.getD (b + 1) 0)

def idAt (position : Nat) : Nat := table.order.getD position 0

def hashOf (id : Nat) : UInt64 := table.hashes.getD id 0

def row (id : Nat) : Row := table.rows.getD id []

/-- The ids that a probe with a hash walks through. -/
def walk (hash : UInt64) : List Nat :=
  let (position, end_) := table.bucketRange hash
  (List.range' position (end_ - position)).map table.idAt

variable {table : JoinHashTable}

theorem le_doubled (steps room n : Nat) : room ≤ doubled steps room n := by
  induction steps generalizing room with
  | zero => exact Nat.le_refl room
  | succ steps ih =>
    unfold doubled
    split
    · exact Nat.le_trans (Nat.le_mul_of_pos_right room (Nat.succ_pos 1)) (ih _)
    · exact Nat.le_refl room

theorem finish_hashes : table.finish.hashes = table.hashes := rfl

theorem finish_rows : table.finish.rows = table.rows := rfl

private theorem bucketOf_lt (hash : UInt64) {size : Nat} (positive : 0 < size)
    (mask : table.mask = size - 1) : table.bucketOf hash < size := by
  have bound : table.bucketOf hash ≤ table.mask := Nat.and_le_right
  omega

private theorem hashes_eq : table.hashes = (List.range table.hashes.length).map table.hashOf := by
  apply List.ext_getElem
  · rw [List.length_map, List.length_range]
  · intro id inside _
    rw [List.getElem_map, List.getElem_range, hashOf, List.getD_eq_getElem _ _ inside]

theorem end_le_sum (hash : UInt64) : (table.bucketRange hash).2 ≤ table.offset.sum := by
  change table.offset.getD (table.bucketOf hash + 1) 0 ≤ table.offset.sum
  rw [List.getD_eq_getElem?_getD]
  cases inside : table.offset[table.bucketOf hash + 1]? with
  | none => exact Nat.zero_le _
  | some end_ => exact List.single_le_sum (fun _ _ => Nat.zero_le _) _ (List.mem_of_getElem? inside)

/-- A probe walks through the rows of its bucket, in the order in which they were filed. -/
theorem walk_finish (hash : UInt64) :
    table.finish.walk hash = (List.range table.hashes.length).filter fun id =>
      table.finish.bucketOf (table.hashOf id) = table.finish.bucketOf hash := by
  let size := table.hashes.length
  let buckets := doubled size 1 size
  let masked : JoinHashTable := { table with mask := buckets - 1 }
  have positive : 0 < buckets := le_doubled size 1 size
  have bounded : ∀ hash, masked.bucketOf hash < buckets := fun hash =>
    bucketOf_lt hash positive rfl
  have bounded' : ∀ id < size, masked.bucketOfId id < buckets := fun id _ => bounded _
  have tallied : CountingSort.tally masked.bucketOf table.hashes (List.replicate (buckets + 1) 0) =
      CountingSort.tally masked.bucketOfId (List.range size) (List.replicate (buckets + 1) 0) := by
    rw [CountingSort.tally, hashes_eq, List.foldl_map]
    rfl
  let offset := CountingSort.accumulate buckets
    (CountingSort.tally masked.bucketOfId (List.range size) (List.replicate (buckets + 1) 0))
  have begins : ∀ b ≤ buckets, offset.getD b 0 = CountingSort.starts masked.bucketOfId size b :=
    fun b inside => CountingSort.getD_starts bounded' inside
  have length : offset.length = buckets + 1 := by
    have inside : buckets < (CountingSort.tally masked.bucketOfId (List.range size)
        (List.replicate (buckets + 1) 0)).length := by
      rw [CountingSort.length_tally, List.length_replicate]
      exact Nat.lt_succ_self _
    rw [(CountingSort.getD_accumulate buckets inside).1, CountingSort.length_tally,
      List.length_replicate]
  have begins' : ∀ b < buckets, offset.dropLast.getD b 0 =
      CountingSort.starts masked.bucketOfId size b := by
    intro b inside
    rw [← begins b (Nat.le_of_lt inside), List.getD_eq_getElem?_getD, List.getD_eq_getElem?_getD,
      List.getElem?_dropLast, if_pos (by omega)]
  obtain ⟨order, fill, ran, placed⟩ := CountingSort.Placed.run bounded'
    (by rw [List.length_dropLast, length]; rfl) begins' (List.replicate size 0)
    List.length_replicate
  have unfolded : table.finish = { masked with
      offset := CountingSort.accumulate buckets
        (CountingSort.tally masked.bucketOf table.hashes (List.replicate (buckets + 1) 0))
      order := ((List.range size).foldl (CountingSort.place masked.bucketOfId)
        (List.replicate size 0, (CountingSort.accumulate buckets (CountingSort.tally
          masked.bucketOf table.hashes (List.replicate (buckets + 1) 0))).dropLast)).1 } := rfl
  have finished : table.finish = { masked with offset, order } := by
    rw [unfolded, tallied]
    exact congrArg (fun pair : List Nat × List Nat => { masked with offset, order := pair.1 }) ran
  have here := bounded hash
  have slice := placed.slice (masked.bucketOf hash)
  rw [finished]
  simp only [walk, bucketRange, bucketOf] at here slice ⊢
  rw [begins _ (Nat.le_of_lt here), begins _ here]
  exact slice

end JoinHashTable

end Labdb.Query
