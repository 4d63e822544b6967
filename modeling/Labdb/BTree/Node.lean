import Labdb.Data.Search
import Labdb.Query.Value
import Labdb.Storage.Files

/-! The nodes of a B+tree, as `btree.hpp` lays them out in a page: what is beyond the count of
entries or keys is not the node's. -/

namespace Labdb.BTree

open Labdb.Data Labdb.Query Labdb.Storage

abbrev Value := UInt64

def kLeafMaxEntries : Nat := (4096 - 20) / 16

def kLeafMinEntries : Nat := kLeafMaxEntries / 2

def kInternalMaxKeys : Nat := 339

def kInternalMinKeys : Nat := kInternalMaxKeys / 2

structure LeafNode where
  entries : List (Key × Value) := []
  next : PageId := kNullPage
  deriving DecidableEq, Repr

namespace LeafNode

variable (leaf : LeafNode)

def count : Nat := leaf.entries.length

def isFull : Bool := kLeafMaxEntries ≤ leaf.count

def keyAt (i : Nat) : Key := (leaf.entries.getD i (0, 0)).1

def valueAt (i : Nat) : Value := (leaf.entries.getD i (0, 0)).2

def setValueAt (i : Nat) (v : Value) : LeafNode :=
  { leaf with entries := leaf.entries.set i (leaf.keyAt i, v) }

/-- The first entry whose key is not below `k`. -/
def lowerBound (k : Key) : Nat := searchList (fun entry => entry.1 < k) leaf.entries

/-- The first entry whose key is above `k`. -/
def upperBound (k : Key) : Nat := searchList (fun entry => entry.1 ≤ k) leaf.entries

def insertAt (i : Nat) (k : Key) (v : Value) : LeafNode :=
  { leaf with entries := leaf.entries.take i ++ (k, v) :: leaf.entries.drop i }

/-- This leaf and `r`, into which the entries from one on have moved. -/
def moveSuffixTo (r : LeafNode) (from_ : Nat) : LeafNode × LeafNode :=
  ({ leaf with entries := leaf.entries.take from_ }, { r with entries := leaf.entries.drop from_ })

def isUnderflow : Bool := leaf.count < kLeafMinEntries

def eraseAt (i : Nat) : LeafNode :=
  { leaf with entries := leaf.entries.take i ++ leaf.entries.drop (i + 1) }

def appendFrom (r : LeafNode) : LeafNode := { leaf with entries := leaf.entries ++ r.entries }

section Cut

variable {leaf : LeafNode} {front back : List (Key × Value)} {e : Key × Value}

theorem keyAt_cut (whole : leaf.entries = front ++ e :: back) : leaf.keyAt front.length = e.1 := by
  rw [keyAt, whole, List.getD_eq_getElem?_getD,
    List.getElem?_append_right (Nat.le_refl _), Nat.sub_self]
  rfl

theorem valueAt_cut (whole : leaf.entries = front ++ e :: back) :
    leaf.valueAt front.length = e.2 := by
  rw [valueAt, whole, List.getD_eq_getElem?_getD,
    List.getElem?_append_right (Nat.le_refl _), Nat.sub_self]
  rfl

theorem insertAt_cut (whole : leaf.entries = front ++ back) (k : Key) (v : Value) :
    (leaf.insertAt front.length k v).entries = front ++ (k, v) :: back := by
  rw [insertAt, whole, List.take_left, List.drop_left]

theorem eraseAt_cut (whole : leaf.entries = front ++ e :: back) :
    (leaf.eraseAt front.length).entries = front ++ back := by
  have next : (front ++ e :: back).drop (front.length + 1) = back := by
    rw [List.append_cons]
    exact List.drop_left' List.length_append
  rw [eraseAt, whole, List.take_left, next]

theorem setValueAt_cut (whole : leaf.entries = front ++ e :: back) (v : Value) :
    (leaf.setValueAt front.length v).entries = front ++ (e.1, v) :: back := by
  rw [setValueAt, keyAt_cut whole, whole, List.set_append_right _ _ (Nat.le_refl _), Nat.sub_self]
  rfl

/-- A search by key comes to the entry with the key, or there is none. -/
theorem found_or_absent (sorted : leaf.entries.Pairwise fun a b => a.1 ≤ b.1) (k : Key) :
    (∃ front v back, leaf.entries = front ++ (k, v) :: back ∧ front.length = leaf.lowerBound k ∧
      leaf.lowerBound k < leaf.count ∧ leaf.keyAt (leaf.lowerBound k) = k) ∨
    ¬ (leaf.lowerBound k < leaf.count ∧ leaf.keyAt (leaf.lowerBound k) = k) ∧
      ∀ e ∈ leaf.entries, e.1 ≠ k := by
  obtain ⟨front, back, whole, length, below, above⟩ := searchList_lt sorted k
  have place : leaf.lowerBound k = front.length := length.symm
  have size : leaf.count = front.length + back.length := by
    rw [count, whole, List.length_append]
  have small : ∀ e ∈ front, e.1 ≠ k := fun e member same =>
    Std.not_le.mpr (below e member) (same ▸ Std.le_refl _)
  cases back with
  | nil =>
    right
    rw [List.append_nil] at whole
    exact ⟨fun inside => by simp only [place, size, List.length_nil] at inside; omega,
      whole ▸ small⟩
  | cons e rest =>
    have here : leaf.keyAt (leaf.lowerBound k) = e.1 := place ▸ keyAt_cut whole
    by_cases same : e.1 = k
    · left
      obtain ⟨key, v⟩ := e
      obtain rfl : key = k := same
      refine ⟨front, v, rest, whole, length, ?_, here⟩
      rw [place, size, List.length_cons]
      omega
    · right
      refine ⟨fun found => same (here.symm.trans found.2), fun other member => ?_⟩
      rw [whole] at member sorted
      rcases List.mem_append.mp member with inFront | inBack
      · exact small other inFront
      · have larger : k < e.1 :=
          Std.lt_of_le_of_ne (above e List.mem_cons_self) (Ne.symm same)
        have least : e.1 ≤ other.1 := by
          rcases List.mem_cons.mp inBack with rfl | later
          · exact Std.le_refl _
          · exact (List.pairwise_cons.mp (List.pairwise_append.mp sorted).2.1).1 other later
        exact fun equal => Std.not_le.mpr larger (equal ▸ least)

end Cut

end LeafNode

/-- There is one child more than there are keys. -/
structure InternalNode where
  keys : List Key := []
  children : List PageId := []
  deriving DecidableEq, Repr

namespace InternalNode

variable (node : InternalNode)

def count : Nat := node.keys.length

def isFull : Bool := kInternalMaxKeys ≤ node.count

def keyAt (i : Nat) : Key := node.keys.getD i 0

def setKeyAt (i : Nat) (k : Key) : InternalNode := { node with keys := node.keys.set i k }

def childAt (i : Nat) : PageId := node.children.getD i kNullPage

/-- Past every separator that is not above `k`. -/
def childIndexFor (k : Key) : Nat := searchList (· ≤ k) node.keys

/-- Past every separator below `k`. -/
def firstChildFor (k : Key) : Nat := searchList (· < k) node.keys

def insertChildAt (ki : Nat) (k : Key) (c : PageId) : InternalNode where
  keys := node.keys.take ki ++ k :: node.keys.drop ki
  children := node.children.take (ki + 1) ++ c :: node.children.drop (ki + 1)

def setCount (n : Nat) : InternalNode where
  keys := node.keys.take n
  children := node.children.take (n + 1)

def isUnderflow : Bool := node.count < kInternalMinKeys

/-- A separator and the child on its right, removed. -/
def eraseKeyChildAt (ki : Nat) : InternalNode where
  keys := node.keys.take ki ++ node.keys.drop (ki + 1)
  children := node.children.take (ki + 1) ++ node.children.drop (ki + 2)

def prependChildKey (k : Key) (c : PageId) : InternalNode where
  keys := k :: node.keys
  children := c :: node.children

def appendChildKey (k : Key) (c : PageId) : InternalNode where
  keys := node.keys ++ [k]
  children := node.children ++ [c]

def eraseFront : InternalNode where
  keys := node.keys.tail
  children := node.children.tail

end InternalNode

/-- A page of a tree, by its type. -/
inductive Node where
  | leaf (leaf : LeafNode)
  | internal (node : InternalNode)
  deriving DecidableEq, Repr

end Labdb.BTree
