import Labdb.BTree.Pages

/-! What an insert makes of a tree: the tree with the entry where it belongs, or two trees and the
separator between them, in which nothing else has moved; and what it makes of a leaf. -/

namespace Labdb.BTree

open Labdb.Data Labdb.Data.Item Labdb.Query Labdb.Storage

/-- One tree, or two, the one on the left where the tree was. -/
inductive Pieces {h : Nat} (id : PageId) : Row (Tree h) → Option Split → Prop
  | one (t : Tree h) : t.id = id → Pieces id ⟨[], [t]⟩ none
  | two (left right : Tree h) (sep : Key) : left.id = id →
    Pieces id ⟨[sep], [left, right]⟩ (some ⟨sep, right.id⟩)

/-- Wherever an entry belongs, the new items may stand for the old ones. -/
def Keeps (strict : Bool) (key : Key) (value : Value) (old new : List (Item Key Value)) : Prop :=
  ∀ left right, InOrder strict (left ++ old ++ right) →
    (∀ x ∈ left, Before strict x (.entry key value)) → (∀ y ∈ right, key < y.key) →
    InOrder strict (left ++ new ++ right)

/-- What an insert makes of the entries, and whether it has added one. -/
inductive Entered (unique overwrite : Bool) (key : Key) (value : Value) :
    List (Key × Value) → List (Key × Value) → Bool → Prop
  | added (front back : List (Key × Value)) : (∀ e ∈ back, key < e.1) →
    Entered unique overwrite key value (front ++ back) (front ++ (key, value) :: back) true
  | overwritten (front back : List (Key × Value)) (was : Value) : unique = true →
    overwrite = true →
    Entered unique overwrite key value (front ++ (key, was) :: back) (front ++ (key, value) :: back)
      false
  | kept (entries : List (Key × Value)) (was : Value) : unique = true → overwrite = false →
    (key, was) ∈ entries → Entered unique overwrite key value entries entries false

/-- The key in the middle of a node, which a split hands to the parent. -/
def Node.middle : Node → Key
  | .leaf page => page.keyAt (page.count / 2)
  | .internal page => page.keyAt (page.count / 2)

/-- Every node on a key's way is full, so that an insert splits all of them. -/
def fullPath (nodes : PageId → Node) (key : Key) : Nat → PageId → Bool
  | 0, _ => false
  | rounds + 1, id =>
    match nodes id with
    | .leaf leaf => leaf.isFull
    | .internal node =>
      node.isFull && fullPath nodes key rounds (node.childAt (node.childIndexFor key))

private theorem fullPath_leaf {nodes : PageId → Node} {key : Key} {rounds : Nat} {id : PageId}
    {page : LeafNode} (here : nodes id = .leaf page) :
    fullPath nodes key (rounds + 1) id = page.isFull := by
  simp only [fullPath, here]

theorem fullPath_internal {nodes : PageId → Node} {key : Key} {rounds : Nat} {id : PageId}
    {page : InternalNode} (here : nodes id = .internal page) :
    fullPath nodes key (rounds + 1) id =
      (page.isFull && fullPath nodes key rounds (page.childAt (page.childIndexFor key))) := by
  simp only [fullPath, here]

variable {alloc : Allocator} {unique overwrite : Bool} {key : Key} {value : Value} {h : Nat}

/-- What `insert_rec` hands back for a tree. -/
structure Grown (unique overwrite : Bool) (key : Key) (value : Value) (rounds : Nat) (s : Store)
    (t : Tree h) (split : Option Split) (inserted : Bool) (s' : Store) (row : Row (Tree h)) : Prop
    where
  pieces : Pieces t.id row split
  became : Became s [t] s' row.kids
  sound : ∀ kid ∈ row.kids, kid.Sound
  enough : split = none → ∀ kid ∈ row.kids, t.count ≤ kid.count
  halves : split ≠ none → ∀ kid ∈ row.kids, minCount h ≤ kid.count
  keeps : Keeps unique key value t.items row.items
  entered : Entered unique overwrite key value (entriesOf t.items) (entriesOf row.items) inserted
  middle : ∀ sep ∈ row.keys, sep = t.page.middle ∧ fullPath s.nodes key rounds t.id = true

theorem Keeps.separate {old front back : List (Item Key Value)} {sep : Key} {v : Value}
    (keeps : Keeps unique key value old (front ++ .entry sep v :: back)) :
    Keeps unique key value old (front ++ .sep sep :: .entry sep v :: back) := by
  intro left right inOrder below above
  have entered := keeps left right inOrder below above
  simp only [List.append_assoc, List.cons_append] at entered ⊢
  rw [← List.append_assoc] at entered ⊢
  exact entered.separate

section Added

variable {old new front back : List (Key × Value)}

/-- The entry is added where it belongs: behind those that may come before it, and before all
whose keys are larger. -/
def Added (unique : Bool) (key : Key) (value : Value) (old new : List (Key × Value)) : Prop :=
  ∃ front back, old = front ++ back ∧ new = front ++ (key, value) :: back ∧
    (∀ x ∈ block front, Before unique x (.entry key value)) ∧ ∀ e ∈ back, key < e.1

theorem Added.between (added : Added unique key value old new)
    (below : ∀ x ∈ block front, Before unique x (.entry key value))
    (above : ∀ e ∈ back, key < e.1) :
    Added unique key value (front ++ old ++ back) (front ++ new ++ back) := by
  obtain ⟨before, after, rfl, rfl, passed, ahead⟩ := added
  refine ⟨front ++ before, after ++ back, by simp, by simp, fun x member => ?_, fun e member => ?_⟩
  · rw [block_append, List.mem_append] at member
    exact member.elim (below x) (passed x)
  · exact (List.mem_append.mp member).elim (ahead e) (above e)

theorem Added.keeps (added : Added unique key value old new) :
    Keeps unique key value (block old) (block new) := by
  obtain ⟨before, after, rfl, rfl, passed, ahead⟩ := added
  intro left right inOrder below above
  simp only [block_append, block_cons, List.append_assoc, List.cons_append] at inOrder ⊢
  rw [← List.append_assoc] at inOrder ⊢
  apply inOrder.insert
  · exact fun x member => (List.mem_append.mp member).elim (below x) (passed x)
  · intro y member
    apply Before.of_lt
    rcases List.mem_append.mp member with inBlock | inRight
    · obtain ⟨e, inAfter, rfl⟩ := List.mem_map.mp inBlock
      exact ahead e inAfter
    · exact above y inRight

theorem Added.entered (added : Added unique key value old new) :
    Entered unique overwrite key value old new true := by
  obtain ⟨before, after, rfl, rfl, passed, ahead⟩ := added
  exact .added before after ahead

end Added

section Leaf

variable {s : Store} {id : PageId} {leaf : LeafNode} {rounds : Nat}

theorem sorted_of_inOrder {entries : List (Key × Value)} (inOrder : InOrder unique (block entries)) :
    entries.Pairwise fun a b => a.1 ≤ b.1 :=
  (List.pairwise_map.mp inOrder).imp Before.le

theorem LeafNode.added (inOrder : InOrder unique (block leaf.entries))
    (absent : unique = true → ∀ e ∈ leaf.entries, e.1 ≠ key) (value : Value) :
    Added unique key value leaf.entries
      (leaf.insertAt (leaf.at_ unique key) key value).entries := by
  have sorted := sorted_of_inOrder inOrder
  cases unique with
  | true =>
    obtain ⟨front, back, whole, length, below, above⟩ := searchList_lt sorted key
    have place : leaf.at_ true key = front.length := length.symm
    refine ⟨front, back, whole, place ▸ insertAt_cut whole key value, fun x member => ?_,
      fun e member => ?_⟩
    · obtain ⟨e, inFront, rfl⟩ := List.mem_map.mp member
      exact below e inFront
    · have different := absent rfl e (whole ▸ List.mem_append_right _ member)
      exact Std.lt_of_le_of_ne (above e member) (Ne.symm different)
  | false =>
    obtain ⟨front, back, whole, length, below, above⟩ := searchList_le sorted key
    have place : leaf.at_ false key = front.length := length.symm
    refine ⟨front, back, whole, place ▸ insertAt_cut whole key value, fun x member => ?_, above⟩
    obtain ⟨e, inFront, rfl⟩ := List.mem_map.mp member
    exact below e inFront

/-- A leaf with room takes the entry in. -/
theorem grown_room (standing : Standing s [Tree.ofLeaf id leaf])
    (inOrder : InOrder unique (block leaf.entries))
    (absent : unique = true → ∀ e ∈ leaf.entries, e.1 ≠ key)
    (room : leaf.entries.length < kLeafMaxEntries) :
    Grown unique overwrite key value rounds s (Tree.ofLeaf id leaf) none true
      (s.write id (.leaf (leaf.insertAt (leaf.at_ unique key) key value)))
      ⟨[], [Tree.ofLeaf id (leaf.insertAt (leaf.at_ unique key) key value)]⟩ := by
  have added := leaf.added inOrder absent value
  have longer : (leaf.insertAt (leaf.at_ unique key) key value).entries.length =
      leaf.entries.length + 1 := by
    obtain ⟨front, back, whole, whole', -⟩ := added
    rw [whole, whole', List.length_append, List.length_append, List.length_cons]
    omega
  constructor
  · exact .one _ rfl
  · exact .leaf standing rfl
  · intro kid member
    obtain rfl := List.mem_singleton.mp member
    exact longer.trans_le room
  · intro _ kid member
    obtain rfl := List.mem_singleton.mp member
    exact (Nat.le_succ _).trans_eq longer.symm
  · exact fun never => absurd rfl never
  · rw [Row.items_one]
    exact added.keeps
  · rw [Row.items_one, Row.items_ofLeaf, Row.items_ofLeaf, entriesOf_block, entriesOf_block]
    exact added.entered
  · exact fun sep member => absurd member List.not_mem_nil

/-- A full leaf is cut in two, and one half takes the entry in. -/
theorem grown_split (alloc : Allocator) (standing : Standing s [Tree.ofLeaf id leaf])
    {left right : LeafNode} {sep : Key} {v : Value} {rest : List (Key × Value)}
    (links : left.next = s.handedOut alloc) (same : right.next = leaf.next)
    (added : Added unique key value leaf.entries (left.entries ++ right.entries))
    (first : right.entries = (sep, v) :: rest)
    (middle : sep = leaf.keyAt (leaf.count / 2)) (full : leaf.isFull = true)
    (leftFits : kLeafMinEntries ≤ left.entries.length ∧ left.entries.length ≤ kLeafMaxEntries)
    (rightFits : kLeafMinEntries ≤ right.entries.length ∧
      right.entries.length ≤ kLeafMaxEntries) (here : s.nodes id = .leaf leaf) :
    Grown unique overwrite key value (rounds + 1) s (Tree.ofLeaf id leaf)
      (some ⟨sep, s.handedOut alloc⟩) true
      (((s.allocate alloc).write id (.leaf left)).write (s.handedOut alloc) (.leaf right))
      ⟨[sep], [Tree.ofLeaf id left, Tree.ofLeaf (s.handedOut alloc) right]⟩ := by
  constructor
  · exact .two _ _ _ rfl
  · exact .leaves alloc standing links same
  · intro kid member
    rcases List.mem_pair.mp member with rfl | rfl
    · exact leftFits.2
    · exact rightFits.2
  · exact fun never => nomatch never
  · intro _ kid member
    rcases List.mem_pair.mp member with rfl | rfl
    · exact leftFits.1
    · exact rightFits.1
  · have keeps := added.keeps
    rw [block_append, first, block_cons] at keeps
    rw [Row.items_two, Row.items_ofLeaf, Row.items_ofLeaf, Row.items_ofLeaf, first, block_cons]
    exact keeps.separate
  · rw [Row.items_two, Row.items_ofLeaf, Row.items_ofLeaf, Row.items_ofLeaf, entriesOf_append,
      entriesOf_sep, entriesOf_block, entriesOf_block, entriesOf_block]
    exact added.entered
  · intro other member
    obtain rfl := List.mem_singleton.mp member
    refine ⟨middle, ?_⟩
    exact (fullPath_leaf here).trans full

/-- The first entry of a leaf stays there when one with a key not below it is added. -/
theorem Added.first {old new : List (Key × Value)} {e : Key × Value} {rest : List (Key × Value)}
    (added : Added unique key value old new) (starts : old = e :: rest) (least : e.1 ≤ key) :
    ∃ rest', new = e :: rest' := by
  obtain ⟨front, back, whole, rfl, below, above⟩ := added
  cases front with
  | nil =>
    have ahead := above e ((starts ▸ whole : e :: rest = back) ▸ List.mem_cons_self)
    exact absurd ahead (Std.not_lt.mpr least)
  | cons first others =>
    obtain ⟨rfl, -⟩ := List.cons.inj (starts.symm.trans whole)
    exact ⟨_, rfl⟩

theorem Added.length {old new : List (Key × Value)} (added : Added unique key value old new) :
    new.length = old.length + 1 := by
  obtain ⟨front, back, rfl, rfl, -⟩ := added
  rw [List.length_append, List.length_append, List.length_cons]
  omega

variable (alloc)

private theorem insertLeaf_present (known : unique = true)
    (less : leaf.lowerBound key < leaf.count) (same : leaf.keyAt (leaf.lowerBound key) = key) :
    insertLeaf alloc unique id leaf key value overwrite s = some ((none, false),
      if overwrite then s.write id (.leaf (leaf.setValueAt (leaf.lowerBound key) value)) else s) := by
  cases overwrite <;> simp [insertLeaf, known, less, same]

theorem insertLeaf_room (absent : ¬ (unique = true ∧ leaf.lowerBound key < leaf.count ∧
      leaf.keyAt (leaf.lowerBound key) = key)) (room : leaf.isFull = false) :
    insertLeaf alloc unique id leaf key value overwrite s = some ((none, true),
      s.write id (.leaf (leaf.insertAt (leaf.at_ unique key) key value))) := by
  simp [insertLeaf, absent, room]

/-- The two halves of a leaf. -/
def LeafNode.leftHalf (leaf : LeafNode) (rightId : PageId) : LeafNode :=
  ⟨leaf.entries.take (leaf.count / 2), rightId⟩

def LeafNode.rightHalf (leaf : LeafNode) : LeafNode :=
  ⟨leaf.entries.drop (leaf.count / 2), leaf.next⟩

theorem insertLeaf_full (absent : ¬ (unique = true ∧ leaf.lowerBound key < leaf.count ∧
      leaf.keyAt (leaf.lowerBound key) = key)) (full : leaf.isFull = true) {left right : LeafNode}
    (halves : key < leaf.rightHalf.keyAt 0 ∧
        left = (leaf.leftHalf (s.handedOut alloc)).insertAt
          ((leaf.leftHalf (s.handedOut alloc)).at_ unique key) key value ∧
        right = leaf.rightHalf ∨
      ¬ key < leaf.rightHalf.keyAt 0 ∧ left = leaf.leftHalf (s.handedOut alloc) ∧
        right = leaf.rightHalf.insertAt (leaf.rightHalf.at_ unique key) key value) :
    insertLeaf alloc unique id leaf key value overwrite s =
      some ((some ⟨right.keyAt 0, s.handedOut alloc⟩, true),
        ((s.allocate alloc).write id (.leaf left)).write (s.handedOut alloc) (.leaf right)) := by
  rcases halves with ⟨below, rfl, rfl⟩ | ⟨above, rfl, rfl⟩
  · have less := below
    rw [LeafNode.rightHalf] at less
    simp [insertLeaf, absent, full, LeafNode.moveSuffixTo, less]
    exact ⟨rfl, rfl⟩
  · have least := above
    rw [LeafNode.rightHalf] at least
    simp [insertLeaf, absent, full, LeafNode.moveSuffixTo, least]
    exact ⟨rfl, rfl⟩

/-- The key is there, and its value is replaced if that was asked for. -/
theorem grown_present (standing : Standing s [Tree.ofLeaf id leaf])
    (sound : leaf.entries.length ≤ kLeafMaxEntries) (known : unique = true)
    {front back : List (Key × Value)} {was : Value}
    (whole : leaf.entries = front ++ (key, was) :: back) :
    ∃ s' row,
      s' = (if overwrite then s.write id (.leaf (leaf.setValueAt front.length value)) else s) ∧
      Grown unique overwrite key value rounds s (Tree.ofLeaf id leaf) none false s' row := by
  cases overwrite with
  | false =>
    refine ⟨s, ⟨[], [Tree.ofLeaf id leaf]⟩, rfl, ?_⟩
    constructor
    · exact .one _ rfl
    · exact .refl standing
    · intro kid member
      obtain rfl := List.mem_singleton.mp member
      exact sound
    · intro _ kid member
      obtain rfl := List.mem_singleton.mp member
      exact Nat.le_refl _
    · exact fun never => absurd rfl never
    · intro left right inOrder _ _
      rwa [Row.items_one]
    · rw [Row.items_one, Row.items_ofLeaf, entriesOf_block]
      exact .kept _ was known rfl (whole ▸ List.mem_append_right _ List.mem_cons_self)
    · exact fun sep member => absurd member List.not_mem_nil
  | true =>
    have set := LeafNode.setValueAt_cut whole value
    refine ⟨_, ⟨[], [Tree.ofLeaf id (leaf.setValueAt front.length value)]⟩, rfl, ?_⟩
    have same : (leaf.setValueAt front.length value).entries.length = leaf.entries.length := by
      rw [set, whole, List.length_append, List.length_append, List.length_cons, List.length_cons]
    constructor
    · exact .one _ rfl
    · exact .leaf standing rfl
    · intro kid member
      obtain rfl := List.mem_singleton.mp member
      exact same.trans_le sound
    · intro _ kid member
      obtain rfl := List.mem_singleton.mp member
      exact same.ge
    · exact fun never => absurd rfl never
    · intro left right inOrder _ _
      rw [Row.items_ofLeaf, whole] at inOrder
      rw [Row.items_one, Row.items_ofLeaf, set]
      simp only [block_append, block_cons, List.append_assoc, List.cons_append] at inOrder ⊢
      rw [← List.append_assoc] at inOrder ⊢
      exact inOrder.revalue value
    · rw [Row.items_one, Row.items_ofLeaf, Row.items_ofLeaf, entriesOf_block, entriesOf_block, set,
        whole]
      exact .overwritten front back was known rfl
    · exact fun sep member => absurd member List.not_mem_nil

private theorem grown_full (inOrder : InOrder unique (block leaf.entries))
    (absent : unique = true → ∀ e ∈ leaf.entries, e.1 ≠ key)
    (sound : leaf.entries.length ≤ kLeafMaxEntries) (full : leaf.isFull = true)
    (standing : Standing s [Tree.ofLeaf id leaf]) :
    ∃ left right,
      (key < leaf.rightHalf.keyAt 0 ∧
          left = (leaf.leftHalf (s.handedOut alloc)).insertAt
            ((leaf.leftHalf (s.handedOut alloc)).at_ unique key) key value ∧
          right = leaf.rightHalf ∨
        ¬ key < leaf.rightHalf.keyAt 0 ∧ left = leaf.leftHalf (s.handedOut alloc) ∧
          right = leaf.rightHalf.insertAt (leaf.rightHalf.at_ unique key) key value) ∧
      Grown unique overwrite key value (rounds + 1) s (Tree.ofLeaf id leaf)
        (some ⟨right.keyAt 0, s.handedOut alloc⟩) true
        (((s.allocate alloc).write id (.leaf left)).write (s.handedOut alloc) (.leaf right))
        ⟨[right.keyAt 0], [Tree.ofLeaf id left, Tree.ofLeaf (s.handedOut alloc) right]⟩ := by
  have size : leaf.entries.length = kLeafMaxEntries :=
    Nat.le_antisymm sound (of_decide_eq_true full)
  have here : s.nodes id = .leaf leaf := standing.stored _ (List.mem_singleton.mpr rfl)
  have cut : (leaf.leftHalf (s.handedOut alloc)).entries ++ leaf.rightHalf.entries = leaf.entries :=
    List.take_append_drop _ _
  have leftSize : (leaf.leftHalf (s.handedOut alloc)).entries.length = kLeafMinEntries := by
    rw [LeafNode.leftHalf, LeafNode.count, List.length_take_of_le (Nat.div_le_self _ _), size]
    rfl
  have rightSize : leaf.rightHalf.entries.length = kLeafMinEntries := by
    rw [LeafNode.rightHalf, LeafNode.count, List.length_drop, size]
    decide
  obtain ⟨first, rest, starts⟩ := List.exists_cons_of_length_pos
    (rightSize ▸ (by decide) : 0 < leaf.rightHalf.entries.length)
  have middle : leaf.keyAt (leaf.count / 2) = first.1 := by
    have place : leaf.count / 2 = (leaf.leftHalf (s.handedOut alloc)).entries.length := by
      rw [leftSize, LeafNode.count, size]
      decide
    rw [place]
    exact LeafNode.keyAt_cut (starts ▸ cut.symm)
  have least : leaf.rightHalf.keyAt 0 = first.1 := @LeafNode.keyAt_cut _ [] _ _ starts
  rw [← cut, block_append] at inOrder
  obtain ⟨leftOrder, rightOrder, across⟩ := inOrder_append.mp inOrder
  have bounds : kLeafMinEntries ≤ kLeafMinEntries + 1 ∧ kLeafMinEntries + 1 ≤ kLeafMaxEntries := by
    decide
  have bounds' : kLeafMinEntries ≤ kLeafMinEntries ∧ kLeafMinEntries ≤ kLeafMaxEntries := by decide
  by_cases below : key < leaf.rightHalf.keyAt 0
  · have added := (leaf.leftHalf (s.handedOut alloc)).added leftOrder
      (fun known e member => absent known e (cut ▸ List.mem_append_left _ member)) value
    refine ⟨_, _, .inl ⟨below, rfl, rfl⟩, ?_⟩
    rw [least]
    apply grown_split alloc standing rfl ?_ ?_ starts middle.symm full ?_ ?_ here
    · rfl
    · rw [← cut]
      apply @Added.between unique key value _ _ [] _ added
      · exact fun x never => absurd never List.not_mem_nil
      · intro e member
        apply Std.lt_of_lt_of_le (least ▸ below)
        rw [starts] at member
        rcases List.mem_cons.mp member with rfl | later
        · exact Std.le_refl _
        · exact (List.pairwise_cons.mp (starts ▸ sorted_of_inOrder rightOrder)).1 e later
    · rw [added.length, leftSize]
      exact bounds
    · rw [rightSize]
      exact bounds'
  · have added := leaf.rightHalf.added rightOrder
      (fun known e member => absent known e (cut ▸ List.mem_append_right _ member)) value
    obtain ⟨rest', starts'⟩ := added.first starts (Std.not_lt.mp (least ▸ below))
    have first' := @LeafNode.keyAt_cut _ [] _ _ starts'
    refine ⟨_, _, .inr ⟨below, rfl, rfl⟩, ?_⟩
    rw [show (leaf.rightHalf.insertAt (leaf.rightHalf.at_ unique key) key value).keyAt 0 = first.1
      from first']
    apply grown_split alloc standing rfl ?_ ?_ starts' middle.symm full ?_ ?_ here
    · rfl
    · rw [← cut]
      have whole := @Added.between unique key value _ _ _ [] added
        (fun x member => (across x member (.entry first.1 first.2) ?_).of_le
          (Std.not_lt.mp (least ▸ below))) (fun e never => absurd never List.not_mem_nil)
      · simp only [List.append_nil] at whole
        exact whole
      · rw [starts]
        exact List.mem_cons_self
    · rw [leftSize]
      exact bounds'
    · rw [added.length, rightSize]
      exact bounds

theorem insertLeaf_spec (standing : Standing s [Tree.ofLeaf id leaf])
    (inOrder : InOrder unique (block leaf.entries)) (sound : leaf.entries.length ≤ kLeafMaxEntries) :
    ∃ split inserted s' row,
      insertLeaf alloc unique id leaf key value overwrite s = some ((split, inserted), s') ∧
      Grown unique overwrite key value (rounds + 1) s (Tree.ofLeaf id leaf) split inserted s'
        row := by
  have sorted := sorted_of_inOrder inOrder
  by_cases present : unique = true ∧ leaf.lowerBound key < leaf.count ∧
      leaf.keyAt (leaf.lowerBound key) = key
  · obtain ⟨known, less, same⟩ := present
    rcases leaf.found_or_absent sorted key with ⟨front, was, back, whole, length, -⟩ | ⟨absent, -⟩
    · obtain ⟨s', row, become, grown⟩ :=
        @grown_present unique overwrite key value s id leaf (rounds + 1) standing sound known
          front back was whole
      refine ⟨none, false, s', row, ?_, grown⟩
      rw [insertLeaf_present alloc known less same, become, length]
    · exact absurd ⟨less, same⟩ absent
  have absent : unique = true → ∀ e ∈ leaf.entries, e.1 ≠ key := fun known => by
    rcases leaf.found_or_absent sorted key with ⟨_, _, _, _, _, less, same⟩ | ⟨-, absent⟩
    · exact absurd ⟨known, less, same⟩ present
    · exact absent
  by_cases room : leaf.isFull = false
  · refine ⟨none, true, _, _, insertLeaf_room alloc present room,
      grown_room standing inOrder absent ?_⟩
    exact Nat.not_le.mp (of_decide_eq_false room)
  · have full : leaf.isFull = true := by rwa [Bool.not_eq_false] at room
    obtain ⟨left, right, halves, grown⟩ :=
      @grown_full alloc unique overwrite key value s id leaf rounds inOrder absent sound full
        standing
    exact ⟨_, _, _, _, insertLeaf_full alloc present full halves, grown⟩

end Leaf

end Labdb.BTree
