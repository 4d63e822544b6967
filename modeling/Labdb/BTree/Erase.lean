import Labdb.BTree.Underflow

/-! `erase`: the leaf gives the entry up, and every node on the way to it that is left with too
little is mended by its parent. -/

namespace Labdb.BTree

open Labdb.Data Labdb.Data.Item Labdb.Query Labdb.Storage

variable {h : Nat} {key : Key} {rounds : Nat}

section Equations

variable {s s' s'' : Store} {id : PageId} {node node' : InternalNode} {flag : Bool}

private theorem eraseRec_absent (here : s.nodes id = .internal node)
    (below : eraseRec rounds (node.childAt (node.childIndexFor key)) key s =
      some ((false, flag), s')) :
    eraseRec (rounds + 1) id key s = some ((false, node.isUnderflow), s') := by
  simp [eraseRec, here, below]

private theorem eraseRec_kept (here : s.nodes id = .internal node)
    (below : eraseRec rounds (node.childAt (node.childIndexFor key)) key s =
      some ((true, false), s')) :
    eraseRec (rounds + 1) id key s =
      some ((true, node.isUnderflow), s'.write id (.internal node)) := by
  simp [eraseRec, here, below]

private theorem eraseRec_fixed (here : s.nodes id = .internal node)
    (below : eraseRec rounds (node.childAt (node.childIndexFor key)) key s =
      some ((true, true), s'))
    (fixed : fixChildUnderflow node (node.childIndexFor key) s' = some (node', s'')) :
    eraseRec (rounds + 1) id key s =
      some ((true, node'.isUnderflow), s''.write id (.internal node')) := by
  simp [eraseRec, here, below, fixed]

private theorem eraseRec_leaf {leaf : LeafNode} (here : s.nodes id = .leaf leaf) :
    eraseRec (rounds + 1) id key s =
      if leaf.lowerBound key < leaf.count ∧ leaf.keyAt (leaf.lowerBound key) = key then
        some ((true, (leaf.eraseAt (leaf.lowerBound key)).isUnderflow),
          s.write id (.leaf (leaf.eraseAt (leaf.lowerBound key))))
      else some ((false, false), s) := by
  by_cases found : leaf.lowerBound key < leaf.count ∧ leaf.keyAt (leaf.lowerBound key) = key
  · simp [eraseRec, here, found, Nat.not_le.mpr found.1]
  · have absent : leaf.count ≤ leaf.lowerBound key ∨ leaf.keyAt (leaf.lowerBound key) ≠ key := by
      rw [← Nat.not_lt]
      tauto
    rw [if_neg found]
    simp [eraseRec, here, absent]

end Equations

/-- What a tree has become once an entry with the key is gone. -/
structure Shrunk (key : Key) (s : Store) (t : Tree h) (s' : Store) (t' : Tree h) : Prop where
  became : Became s [t] s' [t']
  same : t'.id = t.id
  sound : t'.Sound
  less : t.count ≤ t'.count + 1
  keeps : ∀ front back, InOrder true (front ++ t.items ++ back) →
    InOrder true (front ++ t'.items ++ back)
  gone : ∃ front v back, entriesOf t.items = front ++ (key, v) :: back ∧
    entriesOf t'.items = front ++ back

private theorem eraseRec_leaf_spec {s : Store} {id : PageId} {leaf : LeafNode}
    (standing : Standing s [Tree.ofLeaf id leaf]) (inOrder : InOrder true (block leaf.entries))
    (sound : leaf.entries.length ≤ kLeafMaxEntries) :
    (∃ flag, eraseRec (rounds + 1) id key s = some ((false, flag), s) ∧
      ∀ e ∈ leaf.entries, e.1 ≠ key) ∨
    ∃ s' t', eraseRec (rounds + 1) id key s = some ((true, Node.isUnderflow (Tree.page t')), s') ∧
      Shrunk key s (Tree.ofLeaf id leaf) s' t' := by
  have here : s.nodes id = .leaf leaf := standing.stored _ List.mem_cons_self
  rcases leaf.found_or_absent (sorted_of_inOrder inOrder) key with
    ⟨front, v, back, whole, length, found⟩ | ⟨none, absent⟩
  · right
    have erased := LeafNode.eraseAt_cut whole
    rw [length] at erased
    refine ⟨_, Tree.ofLeaf id (leaf.eraseAt (leaf.lowerBound key)),
      (eraseRec_leaf here).trans (if_pos found), ?_⟩
    have size : leaf.entries.length = (leaf.eraseAt (leaf.lowerBound key)).entries.length + 1 := by
      rw [erased, whole, List.length_append, List.length_append, List.length_cons, Nat.add_assoc]
    constructor
    · exact .leaf standing rfl
    · rfl
    · exact (Nat.le_succ _).trans (size.symm.trans_le sound)
    · exact size.le
    · intro before after ordered
      rw [Row.items_ofLeaf] at ordered ⊢
      rw [erased]
      rw [whole] at ordered
      refine ordered.sublist (((List.Sublist.refl _).append ?_).append (List.Sublist.refl _))
      rw [block_append, block_append, block_cons]
      exact (List.Sublist.refl _).append (List.sublist_cons_self _ _)
    · refine ⟨front, v, back, ?_, ?_⟩
      · rw [Row.items_ofLeaf, entriesOf_block, whole]
      · rw [Row.items_ofLeaf, entriesOf_block, erased]
  · exact .inl ⟨false, (eraseRec_leaf here).trans (if_neg none), absent⟩

section Inner

variable {s s' s'' : Store} {id : PageId} {keys keys' : List Key} {kids kids' : List (Tree h)}
  {kid kid' : Tree h} {row row' : Row (Tree h)}

/-- A node whose child, or whose child and a neighbour of it, have become others. -/
theorem Mended.shrunk (mended : Mended s' row s'' row') {row₀ : Row (Tree h)}
    (became : Became s row₀.kids s' row.kids) (standing : Standing s [row₀.tree id])
    (size : row.keys.length = row₀.keys.length) (fits : row₀.keys.length ≤ kInternalMaxKeys)
    (keeps : ∀ front back, InOrder true (front ++ row₀.items ++ back) →
      InOrder true (front ++ row.items ++ back))
    (gone : ∃ front v back, entriesOf row₀.items = front ++ (key, v) :: back ∧
      entriesOf row.items = front ++ back) :
    Shrunk key s (row₀.tree id) (s''.write id (.internal row'.node)) (row'.tree id) := by
  constructor
  · exact (became.trans mended.became).inner standing
  · rfl
  · exact ⟨(mended.fits.trans size.le).trans fits, mended.whole, mended.each⟩
  · exact size.ge.trans mended.fewer
  · exact fun front back inOrder => mended.keeps front back (keeps front back inOrder)
  · rw [Row.items_tree, Row.items_tree, mended.entries]
    exact gone

theorem Shrunk.between (shrunk : Shrunk key s kid s' kid') (left : kids.length = keys.length) :
    (∀ front back, InOrder true (front ++ (around keys kids kid keys' kids').items ++ back) →
      InOrder true (front ++ (around keys kids kid' keys' kids').items ++ back)) ∧
    ∃ front v back, entriesOf (around keys kids kid keys' kids').items = front ++ (key, v) :: back ∧
      entriesOf (around keys kids kid' keys' kids').items = front ++ back := by
  have items := @Row.items_between h keys keys' kids kids' ⟨[], [kid]⟩ left rfl
  have items' := @Row.items_between h keys keys' kids kids' ⟨[], [kid']⟩ left rfl
  rw [Row.items_one] at items items'
  rw [items, items']
  constructor
  · intro before after inOrder
    have moved := shrunk.keeps (before ++ front keys (kids.map Tree.items))
      (back keys' (kids'.map Tree.items) ++ after)
    simp only [List.append_assoc] at moved inOrder ⊢
    exact moved inOrder
  · obtain ⟨before, v, after, whole, whole'⟩ := shrunk.gone
    refine ⟨entriesOf (front keys (kids.map Tree.items)) ++ before, v,
      after ++ entriesOf (back keys' (kids'.map Tree.items)), ?_, ?_⟩
    · simp only [entriesOf_append, whole, List.append_assoc, List.cons_append]
    · simp only [entriesOf_append, whole', List.append_assoc]

/-- A key that is not below the child on its way is not in the tree. -/
theorem absent_around (inOrder : InOrder true (around keys kids kid keys' kids').items)
    (left : kids.length = keys.length) (small : ∀ k ∈ keys, k ≤ key)
    (large : ∀ k ∈ keys', key < k) (absent : ∀ e ∈ entriesOf kid.items, e.1 ≠ key) :
    ∀ e ∈ entriesOf (around keys kids kid keys' kids').items, e.1 ≠ key := by
  have items := @Row.items_between h keys keys' kids kids' ⟨[], [kid]⟩ left rfl
  rw [Row.items_one] at items
  rw [items] at inOrder ⊢
  obtain ⟨first, last, -⟩ := inOrder_append.mp inOrder
  intro e member
  simp only [entriesOf_append, List.mem_append] at member
  rcases member with (inFront | here) | inBack
  · obtain ⟨k, known, before⟩ :=
      before_sep_of_mem_front (inOrder_append.mp first).1 (mem_entriesOf.mp inFront)
    have less : e.1 < k := before
    exact fun same => Std.not_le.mpr less (same ▸ small k known)
  · exact absent e here
  · obtain ⟨k, known, least⟩ := sep_le_of_mem_back last (mem_entriesOf.mp inBack)
    have least : k ≤ e.1 := least
    exact fun same => Std.not_le.mpr (large k known) (same ▸ least)

end Inner

theorem Mended.refl {s : Store} {row : Row (Tree h)} (standing : Standing s row.kids)
    (whole : row.kids.length = row.keys.length + 1)
    (each : ∀ kid ∈ row.kids, minCount h ≤ kid.count ∧ kid.Sound) : Mended s row s row where
  became := .refl standing
  whole := whole
  each := each
  keeps _ _ inOrder := inOrder
  entries := rfl
  fewer := Nat.le_succ _
  fits := Nat.le_refl _

/-- An erase in a tree in order. Induction on the height. -/
theorem eraseRec_spec {s : Store} (t : Tree h) (deep : h < rounds) (standing : Standing s [t])
    (sound : t.Sound) (branches : 0 < h → 0 < t.count) (inOrder : InOrder true t.items) :
    (∃ flag, eraseRec rounds t.id key s = some ((false, flag), s) ∧
      ∀ e ∈ entriesOf t.items, e.1 ≠ key) ∨
    ∃ s' t', eraseRec rounds t.id key s = some ((true, Node.isUnderflow (Tree.page t')), s') ∧
      Shrunk key s t s' t' := by
  induction h generalizing rounds with
  | zero =>
    obtain ⟨id, leaf⟩ : LeafTree := t
    obtain ⟨rounds, rfl⟩ := Nat.exists_eq_succ_of_ne_zero (Nat.ne_of_gt deep)
    have spec := @eraseRec_leaf_spec key rounds s id leaf standing inOrder sound
    change _ ∨ _
    rw [← entriesOf_block leaf.entries] at spec
    exact spec
  | succ h ih =>
    obtain ⟨row, id⟩ : InnerTree (Tree h) := t
    obtain ⟨rounds, rfl⟩ := Nat.exists_eq_succ_of_ne_zero (Nat.ne_of_gt (Nat.zero_lt_of_lt deep))
    change Standing s [row.tree id] at standing
    change (row.tree id).Sound at sound
    change InOrder true row.items at inOrder
    have some_ : 0 < row.keys.length := branches (Nat.succ_pos _)
    obtain ⟨fits, whole, each⟩ := sound
    change row.keys.length ≤ kInternalMaxKeys at fits
    change row.kids.length = row.keys.length + 1 at whole
    change ∀ kid ∈ row.kids, minCount h ≤ kid.count ∧ kid.Sound at each
    obtain ⟨keys, keys', cut, length, small, large⟩ :=
      searchList_le (Row.sortedKeys inOrder whole) key
    obtain ⟨kids, kid, kids', rfl, left, right, child⟩ := Row.child whole cut length
    have place : (around keys kids kid keys' kids').node.childIndexFor key = keys.length :=
      childIndexFor_eq (congrArg (· ++ keys') (List.append_nil keys)) small large
    have childIs : (around keys kids kid keys' kids').node.childAt keys.length = kid.id :=
      left ▸ childAt_around ..
    obtain ⟨below, -, -, here⟩ := standing.below
    have kidIn : kid ∈ (around keys kids kid keys' kids').kids :=
      List.mem_append_left _ (List.mem_append_right _ List.mem_cons_self)
    obtain ⟨enough, kidSound⟩ := each kid kidIn
    have kidOrder : InOrder true kid.items := by
      rw [Row.items_between left rfl, Row.items_one] at inOrder
      exact (inOrder_append.mp (inOrder_append.mp inOrder).1).2.1
    have others : ∀ other ∈ kids ++ kids', minCount h ≤ other.count ∧ other.Sound := by
      intro other member
      apply each other
      simp only [Row.between, List.mem_append] at member ⊢
      tauto
    rcases ih kid (Nat.lt_of_succ_lt_succ deep) below.only kidSound
      (fun _ => (minCount_room h).2.trans enough) kidOrder with
      ⟨flag, ran, absent⟩ | ⟨s', kid', ran, shrunk⟩
    · left
      rw [← childIs, ← place] at ran
      exact ⟨_, eraseRec_absent here ran, absent_around inOrder left small large absent⟩
    · right
      rw [← childIs, ← place, Tree.isUnderflow_page] at ran
      have became := shrunk.became.between below
      have node : (around keys kids kid' keys' kids').node =
          (around keys kids kid keys' kids').node := by
        simp [Row.node, Row.between, shrunk.same]
      obtain ⟨keeps, gone⟩ := @Shrunk.between h key s s' keys keys' kids kids' kid kid' shrunk left
      by_cases little : kid'.count < minCount h
      · have less := shrunk.less
        obtain ⟨s'', row', fixed, mended⟩ := fixChildUnderflow_spec became.standing left right others
          shrunk.sound (by omega) (by simpa [Row.between] using some_)
        rw [node, ← place] at fixed
        rw [decide_eq_true little] at ran
        refine ⟨_, row'.tree id, eraseRec_fixed here ran fixed, ?_⟩
        exact mended.shrunk became standing rfl fits keeps gone
      · rw [decide_eq_false little] at ran
        have mended := @Mended.refl h s' (around keys kids kid' keys' kids') became.standing
          (by simpa [Row.between] using whole) fun other member => by
            simp only [Row.between, List.mem_append, List.mem_singleton] at member
            rcases member with (inLeft | rfl) | inRight
            · exact others other (List.mem_append_left _ inLeft)
            · exact ⟨Nat.not_lt.mp little, shrunk.sound⟩
            · exact others other (List.mem_append_right _ inRight)
        refine ⟨_, (around keys kids kid' keys' kids').tree id, ?_,
          mended.shrunk became standing rfl fits keeps gone⟩
        have kept := eraseRec_kept here ran
        rw [← node] at kept
        exact kept

/-- A root with one child gives way to it. -/
theorem Became.collapse {h' : Nat} {s s' : Store} {trees : List (Tree h')} {kid : Tree h}
    {id : PageId} (became : Became s trees s' [(⟨[], [kid]⟩ : Row (Tree h)).tree id])
    (was : id ∈ idsOf trees) : Became s trees (s'.free id) [kid] where
  stored t member := by
    obtain rfl := List.mem_singleton.mp member
    exact (became.stored _ List.mem_cons_self).2 t List.mem_cons_self
  replaced := by
    have replaced := became.replaced
    rw [idsOf_tree] at replaced
    exact replaced.free was
  leads exit := by
    rw [← became.leads, leavesOf_tree]
  linked exit linked := by
    have linked := became.linked exit linked
    rwa [leavesOf_tree] at linked

theorem erase_spec {s : Store} {t : Tree h} (holds : Holds true s t) (key : Key) :
    (erase true key s = some (false, s) ∧ ∀ e ∈ entriesOf t.items, e.1 ≠ key) ∨
    ∃ s' h', ∃ t' : Tree h', erase true key s = some (true, s') ∧ Holds true s' t' ∧
      ∃ front v back, entriesOf t.items = front ++ (key, v) :: back ∧
        entriesOf t'.items = front ++ back := by
  rcases eraseRec_spec t holds.deep holds.standing holds.sound holds.branches holds.inOrder with
    ⟨flag, ran, absent⟩ | ⟨s', t', ran, shrunk⟩
  · left
    rw [← holds.root] at ran
    exact ⟨by simp [erase, ran], absent⟩
  · right
    rw [← holds.root] at ran
    have root : s.root = t'.id := holds.root.trans shrunk.same.symm
    have root' : s'.root = t'.id := shrunk.became.replaced.root.trans root
    have here := (shrunk.became.stored t' List.mem_cons_self).here
    rw [← root] at here
    have ordered : InOrder true t'.items := by
      have whole := shrunk.keeps [] [] (by simpa using holds.inOrder)
      simpa using whole
    cases h with
    | zero =>
      obtain ⟨id, leaf⟩ : LeafTree := t'
      have page : s'.nodes s.root = .leaf leaf := here
      refine ⟨s', 0, _, by simp [erase, ran, page], ?_, shrunk.gone⟩
      exact holds.of_became shrunk.became rfl rfl root' shrunk.sound
        (fun never => absurd never (Nat.lt_irrefl 0)) ordered
    | succ h =>
      obtain ⟨row, id⟩ : InnerTree (Tree h) := t'
      have page : s'.nodes s.root = .internal row.node := here
      by_cases some_ : 0 < row.keys.length
      · have count : row.node.count ≠ 0 := Nat.ne_of_gt some_
        refine ⟨s', h + 1, row.tree id, by simp [erase, ran, page, count], ?_, shrunk.gone⟩
        exact holds.of_became shrunk.became rfl rfl root' shrunk.sound (fun _ => some_) ordered
      · obtain ⟨keys, kids⟩ := row
        obtain rfl : keys = [] := List.eq_nil_of_length_eq_zero (Nat.eq_zero_of_not_pos some_)
        obtain rfl : s.root = id := root
        obtain ⟨kid, rfl⟩ := List.length_eq_one_iff.mp shrunk.sound.2.1
        have was : s.root ∈ idsOf [t] := by
          rw [idsOf_cons, idsOf_nil, List.append_nil, holds.root]
          exact t.id_mem
        have count : (⟨[], [kid]⟩ : Row (Tree h)).node.count = 0 := rfl
        have child : (⟨[], [kid]⟩ : Row (Tree h)).node.childAt 0 = kid.id := rfl
        have each := shrunk.sound.2.2 kid List.mem_cons_self
        refine ⟨(s'.free s.root).moveRoot kid.id, h, kid, ?_, ?_, ?_⟩
        · simp [erase, ran, page, count, child]
        · have became := @Became.collapse h (h + 1) s s' [t] kid s.root shrunk.became was
          apply holds.of_became became
          · rfl
          · rfl
          · rfl
          · exact each.2
          · exact fun _ => (minCount_room h).2.trans each.1
          · exact (Row.items_one kid) ▸ ordered
        · have gone := shrunk.gone
          have items : Tree.items (Row.tree ⟨[], [kid]⟩ s.root) = kid.items := Row.items_one kid
          rw [← items]
          exact gone

end Labdb.BTree
