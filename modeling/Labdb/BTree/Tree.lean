import Labdb.BTree.Node
import Mathlib.Logic.Function.Basic

/-! The B+tree of `btree.cpp` over a store of pages that reads back what was written and hands
out pages that are not in use. A result of `none` is an exception, or a descent or a walk that
did not end in its rounds. -/

namespace Labdb.BTree

open Labdb.Data Labdb.Query Labdb.Storage

/-- Which page a store hands out at each request, given those in use. -/
structure Allocator where
  pick : Nat → List PageId → PageId
  unused : ∀ request used, pick request used ∉ used
  real : ∀ request used, pick request used ≠ kNullPage

/-- The pages, those of them in use, how many were asked for so far, the tree's root, and the
roots that were reported. -/
structure Store where
  nodes : PageId → Node
  used : List PageId
  requests : Nat := 0
  root : PageId
  reported : List PageId := []

namespace Store

variable (s : Store)

def write (id : PageId) (node : Node) : Store :=
  { s with nodes := Function.update s.nodes id node }

def handedOut (alloc : Allocator) : PageId := alloc.pick s.requests s.used

def allocate (alloc : Allocator) : Store :=
  { s with used := s.handedOut alloc :: s.used, requests := s.requests + 1 }

def free (id : PageId) : Store := { s with used := s.used.filter fun other => other ≠ id }

/-- The root has moved, and the catalog or the meta page is told. -/
def moveRoot (root : PageId) : Store := { s with root, reported := s.reported ++ [root] }

end Store

abbrev TreeM := StateT Store Option

def readPage (id : PageId) : TreeM Node := do
  let s ← get
  pure (s.nodes id)

def writePage (id : PageId) (node : Node) : TreeM Unit := modify (·.write id node)

def allocatePage (alloc : Allocator) : TreeM PageId := do
  let s ← get
  set (s.allocate alloc)
  pure (s.handedOut alloc)

def freePage (id : PageId) : TreeM Unit := modify (·.free id)

def persistRoot (root : PageId) : TreeM Unit := modify (·.moveRoot root)

section Apply

variable {α β : Type} (s : Store)

@[simp] theorem bind_apply (m : TreeM α) (f : α → TreeM β) :
    (m >>= f) s = (m s).bind fun out => f out.1 out.2 := rfl

@[simp] theorem map_apply (f : α → β) (m : TreeM α) :
    (f <$> m) s = (m s).map fun out => (f out.1, out.2) := by
  change (m >>= fun a => pure (f a)) s = _
  rw [bind_apply]
  cases m s <;> rfl

@[simp] theorem pure_apply (a : α) : (pure a : TreeM α) s = some (a, s) := rfl

@[simp] theorem get_apply : (get : TreeM Store) s = some (s, s) := rfl

@[simp] theorem readPage_apply (id : PageId) : readPage id s = some (s.nodes id, s) := rfl

@[simp] theorem writePage_apply (id : PageId) (node : Node) :
    writePage id node s = some ((), s.write id node) := rfl

@[simp] theorem allocatePage_apply (alloc : Allocator) :
    allocatePage alloc s = some (s.handedOut alloc, s.allocate alloc) := rfl

@[simp] theorem freePage_apply (id : PageId) : freePage id s = some ((), s.free id) := rfl

@[simp] theorem persistRoot_apply (root : PageId) :
    persistRoot root s = some ((), s.moveRoot root) := rfl

end Apply

/-- A separator for the parent, and the node on its right. -/
structure Split where
  sepKey : Key
  right : PageId
  deriving DecidableEq, Repr

/-- How many nodes a descent may come through. -/
def rounds (s : Store) : Nat := s.used.length + 1

section Insert

variable (alloc : Allocator) (unique : Bool)

/-- Where a key goes in a leaf. -/
def LeafNode.at_ (leaf : LeafNode) (key : Key) : Nat :=
  if unique then leaf.lowerBound key else leaf.upperBound key

/-- The leaf's part of `insert_rec`; the second result is `inserted`. -/
def insertLeaf (id : PageId) (leaf : LeafNode) (key : Key) (value : Value) (overwrite : Bool) :
    TreeM (Option Split × Bool) := do
  let i := leaf.lowerBound key
  if unique ∧ i < leaf.count ∧ leaf.keyAt i = key then
    if overwrite then writePage id (.leaf (leaf.setValueAt i value))
    pure (none, false)
  else if leaf.isFull = false then
    writePage id (.leaf (leaf.insertAt (leaf.at_ unique key) key value))
    pure (none, true)
  else
    let rightId ← allocatePage alloc
    let (left, right) := leaf.moveSuffixTo {} (leaf.count / 2)
    let right := { right with next := leaf.next }
    let left := { left with next := rightId }
    let toLeft := key < right.keyAt 0
    let left := if toLeft then left.insertAt (left.at_ unique key) key value else left
    let right := if toLeft then right else right.insertAt (right.at_ unique key) key value
    let sep := right.keyAt 0
    writePage id (.leaf left)
    writePage rightId (.leaf right)
    pure (some ⟨sep, rightId⟩, true)

/-- A child of an internal node has split: its part of `insert_rec` after the recursion. -/
def insertSplit (id : PageId) (node : InternalNode) (ci : Nat) (split : Split) :
    TreeM (Option Split) := do
  if node.isFull = false then
    writePage id (.internal (node.insertChildAt ci split.sepKey split.right))
    pure none
  else
    let rightId ← allocatePage alloc
    let mid := node.count / 2
    let median := node.keyAt mid
    let right : InternalNode := {
      keys := node.keys.drop (mid + 1)
      children := node.children.drop (mid + 1) }
    let left := node.setCount mid
    let toLeft := split.sepKey < median
    let left := if toLeft then
      left.insertChildAt (left.childIndexFor split.sepKey) split.sepKey split.right else left
    let right := if toLeft then right else
      right.insertChildAt (right.childIndexFor split.sepKey) split.sepKey split.right
    writePage id (.internal left)
    writePage rightId (.internal right)
    pure (some ⟨median, rightId⟩)

def insertRec : Nat → PageId → Key → Value → Bool → TreeM (Option Split × Bool)
  | 0, _, _, _, _ => failure
  | rounds + 1, id, key, value, overwrite => do
    match ← readPage id with
    | .leaf leaf => insertLeaf alloc unique id leaf key value overwrite
    | .internal node => do
      let ci := node.childIndexFor key
      let (childSplit, inserted) ← insertRec rounds (node.childAt ci) key value overwrite
      match childSplit with
      | none => pure (none, inserted)
      | some split => do
        let up ← insertSplit alloc id node ci split
        pure (up, inserted)

def insertWith (key : Key) (value : Value) (overwrite : Bool) : TreeM Bool := do
  let s ← get
  let (split, inserted) ← insertRec alloc unique (rounds s) s.root key value overwrite
  match split with
  | none => pure inserted
  | some split => do
    let newRoot ← allocatePage alloc
    writePage newRoot (.internal { keys := [split.sepKey], children := [s.root, split.right] })
    persistRoot newRoot
    pure inserted

def insert (key : Key) (value : Value) : TreeM Bool := insertWith alloc unique key value true

def insertNew (key : Key) (value : Value) : TreeM Bool := insertWith alloc unique key value false

end Insert

section Erase

/-- `fix_child_underflow` on two leaves or two internal nodes: the one on the left can spare its
last entry or child. What is left of both and the separator between them. -/
def borrowLeft : Node → Node → Key → Node × Node × Key
  | .leaf left, .leaf child, _ =>
    let li := left.count - 1
    let child := child.insertAt 0 (left.keyAt li) (left.valueAt li)
    (.leaf (left.eraseAt li), .leaf child, child.keyAt 0)
  | .internal left, .internal child, down =>
    let lc := left.count
    (.internal (left.setCount (lc - 1)), .internal (child.prependChildKey down (left.childAt lc)),
      left.keyAt (lc - 1))
  | left, child, down => (left, child, down)

def borrowRight : Node → Node → Key → Node × Node × Key
  | .leaf child, .leaf right, _ =>
    let child := child.insertAt child.count (right.keyAt 0) (right.valueAt 0)
    let right := right.eraseAt 0
    (.leaf child, .leaf right, right.keyAt 0)
  | .internal child, .internal right, down =>
    (.internal (child.appendChildKey down (right.childAt 0)), .internal right.eraseFront,
      right.keyAt 0)
  | child, right, down => (child, right, down)

/-- The node on the left once it has taken in the one on the right. -/
def mergeNodes : Node → Node → Key → Node
  | .leaf left, .leaf right, _ => .leaf { left.appendFrom right with next := right.next }
  | .internal left, .internal right, down =>
    .internal { keys := left.keys ++ down :: right.keys, children := left.children ++ right.children }
  | left, _, _ => left

/-- A node that can give one of its entries or children. -/
def Node.spare : Node → Bool
  | .leaf page => kLeafMinEntries < page.count
  | .internal page => kInternalMinKeys < page.count

def Node.isUnderflow : Node → Bool
  | .leaf page => page.isUnderflow
  | .internal page => page.isUnderflow

/-- The parent, which the caller writes. -/
def fixChildUnderflow (parent : InternalNode) (ci : Nat) : TreeM InternalNode := do
  let childId := parent.childAt ci
  let child ← readPage childId
  let leftId := parent.childAt (ci - 1)
  let left ← readPage leftId
  if 0 < ci ∧ left.spare then
    let (left, child, sep) := borrowLeft left child (parent.keyAt (ci - 1))
    writePage leftId left
    writePage childId child
    pure (parent.setKeyAt (ci - 1) sep)
  else
    let rightId := parent.childAt (ci + 1)
    let right ← readPage rightId
    if ci < parent.count ∧ right.spare then
      let (child, right, sep) := borrowRight child right (parent.keyAt ci)
      writePage childId child
      writePage rightId right
      pure (parent.setKeyAt ci sep)
    else if 0 < ci then
      writePage leftId (mergeNodes left child (parent.keyAt (ci - 1)))
      freePage childId
      pure (parent.eraseKeyChildAt (ci - 1))
    else
      writePage childId (mergeNodes child right (parent.keyAt ci))
      freePage rightId
      pure (parent.eraseKeyChildAt ci)

/-- Whether the key was there, and whether the node is left with too few entries or keys. -/
def eraseRec : Nat → PageId → Key → TreeM (Bool × Bool)
  | 0, _, _ => failure
  | rounds + 1, id, key => do
    match ← readPage id with
    | .leaf leaf => do
      let i := leaf.lowerBound key
      if leaf.count ≤ i ∨ leaf.keyAt i ≠ key then pure (false, false)
      else
        let leaf := leaf.eraseAt i
        writePage id (.leaf leaf)
        pure (true, leaf.isUnderflow)
    | .internal node => do
      let ci := node.childIndexFor key
      let (isFound, childUnderflow) ← eraseRec rounds (node.childAt ci) key
      if isFound = false then pure (false, node.isUnderflow)
      else
        let node ← if childUnderflow then fixChildUnderflow node ci else pure node
        writePage id (.internal node)
        pure (true, node.isUnderflow)

def erase (unique : Bool) (key : Key) : TreeM Bool := do
  if unique = false then failure
  let s ← get
  let (isFound, _) ← eraseRec (rounds s) s.root key
  if isFound = false then pure false
  else
    match ← readPage s.root with
    | .leaf _ => pure true
    | .internal root => do
      if root.count = 0 then
        freePage s.root
        persistRoot (root.childAt 0)
      pure true

end Erase

section Search

def searchRec : Nat → PageId → Key → TreeM (Option Value)
  | 0, _, _ => failure
  | rounds + 1, id, key => do
    match ← readPage id with
    | .leaf leaf =>
      let i := leaf.lowerBound key
      pure (if i < leaf.count ∧ leaf.keyAt i = key then some (leaf.valueAt i) else none)
    | .internal node => searchRec rounds (node.childAt (node.childIndexFor key)) key

def search (unique : Bool) (key : Key) : TreeM (Option Value) := do
  if unique = false then failure
  let s ← get
  searchRec (rounds s) s.root key

/-- The current entry is there while the cursor is valid. -/
structure Cursor where
  leaf : LeafNode
  leafId : PageId
  idx : Nat
  current : Option (Key × Value) := none
  deriving DecidableEq, Repr

def settle : Nat → Cursor → TreeM Cursor
  | 0, _ => failure
  | rounds + 1, c =>
    if c.leafId = kNullPage then pure { c with current := none }
    else if c.idx < c.leaf.count then
      pure { c with current := some (c.leaf.keyAt c.idx, c.leaf.valueAt c.idx) }
    else if c.leaf.next = kNullPage then pure { c with leafId := kNullPage, current := none }
    else do
      match ← readPage c.leaf.next with
      | .leaf leaf => settle rounds { c with leafId := c.leaf.next, leaf, idx := 0 }
      | .internal _ => failure

def Cursor.next (c : Cursor) : TreeM Cursor := do
  let s ← get
  settle (rounds s) { c with idx := c.idx + 1 }

/-- Down to a leaf, by a rule for each internal node. -/
def descend (rule : InternalNode → Nat) : Nat → PageId → TreeM (PageId × LeafNode)
  | 0, _ => failure
  | rounds + 1, id => do
    match ← readPage id with
    | .leaf leaf => pure (id, leaf)
    | .internal node => descend rule rounds (node.childAt (rule node))

def seekBy (rule : InternalNode → Key → Nat) (lo : Key) : TreeM Cursor := do
  let s ← get
  let (leafId, leaf) ← descend (rule · lo) (rounds s) s.root
  settle (rounds s) { leaf, leafId, idx := leaf.lowerBound lo }

def seek (unique : Bool) (lo : Key) : TreeM Cursor :=
  seekBy (if unique then InternalNode.childIndexFor else InternalNode.firstChildFor) lo

def last : TreeM Cursor := do
  let s ← get
  let (leafId, leaf) ← descend InternalNode.count (rounds s) s.root
  settle (rounds s) { leaf, leafId, idx := leaf.count - 1 }

end Search

/-- The tree that a constructor plants: an empty leaf. -/
def plant (alloc : Allocator) : TreeM Unit := do
  let root ← allocatePage alloc
  writePage root (.leaf {})
  persistRoot root

end Labdb.BTree
