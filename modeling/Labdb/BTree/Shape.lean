import Labdb.BTree.Tree
import Labdb.Data.Separated

/-! Trees of nodes, by height: what the pages below a root hold when all leaves are at one depth.
A tree laid out from left to right is its entries with its separators between them. -/

namespace Labdb.BTree

open Labdb.Data Labdb.Query Labdb.Storage

/-- A list at a place inside it. -/
theorem exists_place {α : Type} {l : List α} {i : Nat} (inside : i < l.length) :
    ∃ front a back, l = front ++ a :: back ∧ front.length = i := by
  refine ⟨l.take i, l[i], l.drop (i + 1), ?_, List.length_take_of_le inside.le⟩
  rw [List.getElem_cons_drop, List.take_append_drop]

theorem exists_last {α : Type} {l : List α} (some_ : 0 < l.length) :
    ∃ front a, l = front ++ [a] ∧ l.length - 1 = front.length := by
  have nonempty := List.ne_nil_of_length_pos some_
  exact ⟨l.dropLast, l.getLast nonempty, (List.dropLast_append_getLast nonempty).symm,
    List.length_dropLast.symm⟩

structure LeafTree where
  id : PageId
  page : LeafNode

/-- Trees side by side, with a separator between each two. -/
structure Row (τ : Type) where
  keys : List Key
  kids : List τ

structure InnerTree (τ : Type) extends Row τ where
  id : PageId

def Tree : Nat → Type
  | 0 => LeafTree
  | h + 1 => InnerTree (Tree h)

namespace Tree

def id : {h : Nat} → Tree h → PageId
  | 0, t => LeafTree.id t
  | _ + 1, t => InnerTree.id t

/-- What the root's page holds. -/
def page : {h : Nat} → Tree h → Node
  | 0, t => .leaf (LeafTree.page t)
  | _ + 1, (t : InnerTree (Tree _)) => .internal ⟨t.keys, t.kids.map Tree.id⟩

def count : {h : Nat} → Tree h → Nat
  | 0, t => (LeafTree.page t).entries.length
  | _ + 1, (t : InnerTree (Tree _)) => t.keys.length

/-- From left to right. -/
def items : {h : Nat} → Tree h → List (Item Key Value)
  | 0, t => block (LeafTree.page t).entries
  | _ + 1, (t : InnerTree (Tree _)) => weave t.keys (t.kids.map items)

def ids : {h : Nat} → Tree h → List PageId
  | 0, t => [LeafTree.id t]
  | _ + 1, (t : InnerTree (Tree _)) => t.id :: t.kids.flatMap ids

/-- The leaves, in the order of a walk of the internal nodes. -/
def leaves : {h : Nat} → Tree h → List LeafTree
  | 0, t => [t]
  | _ + 1, (t : InnerTree (Tree _)) => t.kids.flatMap leaves

/-- The pages are the tree's. -/
def Stored (nodes : PageId → Node) : {h : Nat} → Tree h → Prop
  | 0, t => nodes (LeafTree.id t) = .leaf (LeafTree.page t)
  | _ + 1, (t : InnerTree (Tree _)) =>
    nodes t.id = .internal ⟨t.keys, t.kids.map Tree.id⟩ ∧ ∀ kid ∈ t.kids, Stored nodes kid

end Tree

/-- The least a node holds that is not the root. -/
def minCount : Nat → Nat
  | 0 => kLeafMinEntries
  | _ + 1 => kInternalMinKeys

def maxCount : Nat → Nat
  | 0 => kLeafMaxEntries
  | _ + 1 => kInternalMaxKeys

/-- No node holds too much, and none below the root too little. -/
def Tree.Sound : {h : Nat} → Tree h → Prop
  | 0, t => Tree.count (h := 0) t ≤ maxCount 0
  | h + 1, (t : InnerTree (Tree h)) =>
    t.keys.length ≤ maxCount (h + 1) ∧ t.kids.length = t.keys.length + 1 ∧
      ∀ kid ∈ t.kids, minCount h ≤ kid.count ∧ kid.Sound

variable {h : Nat}

/-- A tree of one leaf. -/
def Tree.ofLeaf (id : PageId) (page : LeafNode) : Tree 0 := (⟨id, page⟩ : LeafTree)

namespace Row

/-- The trees below one root. -/
def tree (row : Row (Tree h)) (id : PageId) : Tree (h + 1) :=
  (⟨row, id⟩ : InnerTree (Tree h))

/-- What the root's page holds. -/
def node (row : Row (Tree h)) : InternalNode := ⟨row.keys, row.kids.map Tree.id⟩

def items (row : Row (Tree h)) : List (Item Key Value) := weave row.keys (row.kids.map Tree.items)

/-- A row in the place of the trees between two others. -/
def between (keys : List Key) (kids : List (Tree h)) (row : Row (Tree h)) (keys' : List Key)
    (kids' : List (Tree h)) : Row (Tree h) where
  keys := keys ++ row.keys ++ keys'
  kids := kids ++ row.kids ++ kids'

variable {keys keys' : List Key} {kids kids' : List (Tree h)} {row : Row (Tree h)}

theorem items_between (left : kids.length = keys.length)
    (whole : row.kids.length = row.keys.length + 1) :
    (row.between keys kids keys' kids').items =
      front keys (kids.map Tree.items) ++ row.items ++ back keys' (kids'.map Tree.items) := by
  obtain ⟨seps, trees⟩ := row
  cases trees with
  | nil => cases whole
  | cons first rest =>
    have inner : seps.length = (rest.map Tree.items).length := by
      rw [List.length_map]
      exact (Nat.succ.inj whole).symm
    have outer : keys.length = (kids.map Tree.items).length := by
      rw [List.length_map, left]
    simp only [items, between, List.map_append, List.map_cons, List.append_assoc,
      List.cons_append]
    rw [weave_zip outer, back_append inner]
    simp only [weave, List.append_assoc]

/-- A row cut at one of its separators. -/
theorem items_append (left right : Row (Tree h)) (sep : Key)
    (whole : left.kids.length = left.keys.length + 1) (some_ : right.kids ≠ []) :
    (⟨left.keys ++ sep :: right.keys, left.kids ++ right.kids⟩ : Row (Tree h)).items =
      left.items ++ .sep sep :: right.items := by
  rw [items, List.map_append]
  apply weave_split
  · rw [List.length_map, whole]
  · exact fun none => some_ (List.map_eq_nil_iff.mp none)

variable (t left right : Tree h) (sep : Key) (id : PageId)

@[simp] theorem items_one : (⟨[], [t]⟩ : Row (Tree h)).items = t.items :=
  List.append_nil t.items

@[simp] theorem items_two : (⟨[sep], [left, right]⟩ : Row (Tree h)).items =
    left.items ++ .sep sep :: right.items :=
  congrArg (left.items ++ ·) (List.append_nil _)

@[simp] theorem items_tree (row : Row (Tree h)) : (row.tree id).items = row.items := rfl

@[simp] theorem id_tree (row : Row (Tree h)) : (row.tree id).id = id := rfl

@[simp] theorem id_ofLeaf (page : LeafNode) : (Tree.ofLeaf id page).id = id := rfl

@[simp] theorem items_ofLeaf (page : LeafNode) :
    (Tree.ofLeaf id page).items = block page.entries := rfl

end Row

end Labdb.BTree
