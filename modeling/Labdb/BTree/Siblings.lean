import Labdb.BTree.Pages

/-! What two neighbours become when one has too little: the other one gives its nearest entry or
child, or takes it in. -/

namespace Labdb.BTree

open Labdb.Data Labdb.Data.Item Labdb.Query Labdb.Storage

variable {h : Nat}

section Pages

variable {s : Store} {left right left' right' : Row (Tree h)} {id id' : PageId}
  {page page' front back : LeafNode}

theorem Standing.apart (standing : Standing s [left.tree id, right.tree id']) :
    id ∉ idsOf (left.kids ++ right.kids) ∧ id' ∉ idsOf (left.kids ++ right.kids) ∧ id ≠ id' := by
  have nodup := standing.nodup
  simp only [idsOf_cons, idsOf_nil, Row.ids_tree, List.append_nil] at nodup
  have moved := (@List.perm_middle _ id' (id :: idsOf left.kids) (idsOf right.kids)).nodup_iff.mp nodup
  obtain ⟨last, rest⟩ := List.nodup_cons.mp moved
  rw [List.cons_append, ← idsOf_append] at last rest
  obtain ⟨first, -⟩ := List.nodup_cons.mp rest
  exact ⟨first, fun member => last (List.mem_cons_of_mem _ member),
    fun same => last (same ▸ List.mem_cons_self)⟩

/-- The pages of two neighbours, with the roots first. -/
theorem Standing.siblings (standing : Standing s [left.tree id, right.tree id']) :
    Replaced s (idsOf [left.tree id, right.tree id']) s
      (id' :: id :: idsOf (left.kids ++ right.kids)) := by
  apply (Replaced.refl standing.nodup standing.owned).perm
  simp only [idsOf_cons, idsOf_nil, Row.ids_tree, List.append_nil, idsOf_append]
  exact List.perm_middle

/-- Two neighbours share the trees below them out anew. -/
theorem Became.regroup (standing : Standing s [left.tree id, right.tree id'])
    (same : left'.kids ++ right'.kids = left.kids ++ right.kids) :
    Became s [left.tree id, right.tree id']
      ((s.write id (.internal left'.node)).write id' (.internal right'.node))
      [left'.tree id, right'.tree id'] := by
  obtain ⟨first, second, different⟩ := standing.apart
  have below : ∀ kid ∈ left'.kids ++ right'.kids, kid.Stored
      ((s.write id (.internal left'.node)).write id' (.internal right'.node)).nodes := by
    intro kid member
    rw [same] at member
    have stored : kid.Stored s.nodes := by
      rcases List.mem_append.mp member with inLeft | inRight
      · exact (standing.stored _ List.mem_cons_self).2 kid inLeft
      · exact (standing.stored _ (List.mem_cons_of_mem _ List.mem_cons_self)).2 kid inRight
    apply stored.of_same
    intro other under
    have known : other ∈ idsOf (left.kids ++ right.kids) := mem_idsOf.mpr ⟨kid, member, under⟩
    have fromFirst : other ≠ id := fun equal => first (equal ▸ known)
    have fromSecond : other ≠ id' := fun equal => second (equal ▸ known)
    exact (Function.update_of_ne fromSecond _ _).trans (Function.update_of_ne fromFirst _ _)
  constructor
  · intro t member
    rcases List.mem_pair.mp member with rfl | rfl
    · refine ⟨?_, fun kid inside => below kid (List.mem_append_left _ inside)⟩
      exact (Function.update_of_ne different _ _).trans (Function.update_self _ _ _)
    · exact ⟨Function.update_self _ _ _, fun kid inside => below kid (List.mem_append_right _ inside)⟩
  · have written := (standing.siblings.write (.internal left'.node)
      (List.mem_cons_of_mem _ List.mem_cons_self)).write (.internal right'.node) List.mem_cons_self
    apply written.perm
    rw [← same]
    simp only [idsOf_cons, idsOf_nil, Row.ids_tree, List.append_nil, idsOf_append]
    exact (@List.perm_middle _ id' (id :: idsOf left'.kids) (idsOf right'.kids)).symm
  · intro exit
    have leaves := congrArg leavesOf same
    simp only [leavesOf_append] at leaves
    simp only [leavesOf_cons, leavesOf_nil, Row.leaves_tree, List.append_nil, leaves]
  · intro exit linked
    have leaves := congrArg leavesOf same
    simp only [leavesOf_append] at leaves
    simp only [leavesOf_cons, leavesOf_nil, Row.leaves_tree, List.append_nil, leaves] at linked ⊢
    exact linked

/-- The neighbour on the left takes in the trees below the one on the right, whose page is freed. -/
theorem Became.merge (standing : Standing s [left.tree id, right.tree id'])
    (same : left'.kids = left.kids ++ right.kids) :
    Became s [left.tree id, right.tree id'] ((s.write id (.internal left'.node)).free id')
      [left'.tree id] := by
  obtain ⟨first, second, different⟩ := standing.apart
  constructor
  · intro t member
    obtain rfl := List.mem_singleton.mp member
    refine ⟨Function.update_self _ _ _, fun kid inside => ?_⟩
    rw [Row.tree, same] at inside
    have stored : kid.Stored s.nodes := by
      rcases List.mem_append.mp inside with inLeft | inRight
      · exact (standing.stored _ List.mem_cons_self).2 kid inLeft
      · exact (standing.stored _ (List.mem_cons_of_mem _ List.mem_cons_self)).2 kid inRight
    apply stored.of_same
    intro other under
    apply Function.update_of_ne
    rintro rfl
    exact first (mem_idsOf.mpr ⟨kid, inside, under⟩)
  · have written := standing.siblings.write (.internal left'.node)
      (List.mem_cons_of_mem _ List.mem_cons_self)
    rw [idsOf_tree, same]
    apply written.free
    simp [idsOf_cons]
  · intro exit
    simp only [leavesOf_cons, leavesOf_nil, Row.leaves_tree, List.append_nil, same, leavesOf_append]
  · intro exit linked
    simp only [leavesOf_cons, leavesOf_nil, Row.leaves_tree, List.append_nil, same,
      leavesOf_append] at linked ⊢
    exact linked

theorem Standing.different (standing : Standing s [Tree.ofLeaf id page, Tree.ofLeaf id' page']) :
    id ≠ id' := by
  have nodup : [id, id'].Nodup := standing.nodup
  simpa using nodup

/-- Two leaves are written. -/
theorem Became.leafPair (standing : Standing s [Tree.ofLeaf id page, Tree.ofLeaf id' page'])
    (same : front.next = page.next) (same' : back.next = page'.next) :
    Became s [Tree.ofLeaf id page, Tree.ofLeaf id' page']
      ((s.write id (.leaf front)).write id' (.leaf back))
      [Tree.ofLeaf id front, Tree.ofLeaf id' back] := by
  have different := standing.different
  have pages : Replaced s [id, id'] s [id, id'] := .refl standing.nodup standing.owned
  constructor
  · intro t member
    rcases List.mem_pair.mp member with rfl | rfl
    · exact (Function.update_of_ne different _ _).trans (Function.update_self _ _ _)
    · exact Function.update_self _ _ _
  · exact (pages.write _ List.mem_cons_self).write _ (List.mem_cons_of_mem _ List.mem_cons_self)
  · exact fun exit => rfl
  · exact fun exit linked => ⟨same.trans linked.1, same'.trans linked.2.1, trivial⟩

/-- The leaf on the left takes in the one on the right. -/
theorem Became.leafMerge (standing : Standing s [Tree.ofLeaf id page, Tree.ofLeaf id' page'])
    (same : front.next = page'.next) :
    Became s [Tree.ofLeaf id page, Tree.ofLeaf id' page']
      ((s.write id (.leaf front)).free id') [Tree.ofLeaf id front] := by
  have pages : Replaced s [id, id'] s [id', id] :=
    (Replaced.refl standing.nodup standing.owned).perm (List.Perm.swap _ _ _)
  constructor
  · intro t member
    obtain rfl := List.mem_singleton.mp member
    exact Function.update_self _ _ _
  · exact (pages.write _ (List.mem_cons_of_mem _ List.mem_cons_self)).free
      (List.mem_cons_of_mem _ List.mem_cons_self)
  · exact fun exit => rfl
  · exact fun exit linked => ⟨same.trans linked.2.1, trivial⟩

end Pages

/-- What two neighbours and the separator between them have become: nothing has moved but a
separator. -/
structure Joined (s : Store) (l : Tree h) (sep : Key) (r : Tree h) (s' : Store)
    (row : Row (Tree h)) : Prop where
  became : Became s [l, r] s' row.kids
  whole : row.kids.length = row.keys.length + 1
  each : ∀ kid ∈ row.kids, minCount h ≤ kid.count ∧ kid.Sound
  keeps : ∀ front back, InOrder true (front ++ (l.items ++ .sep sep :: r.items) ++ back) →
    InOrder true (front ++ row.items ++ back)
  entries : entriesOf row.items = entriesOf l.items ++ entriesOf r.items

section Leaves

variable {s : Store} {id id' : PageId} {left right left' right' : LeafNode} {sep sep' : Key} {v : Value}
  {rest : List (Key × Value)}

/-- A separator between two leaves may be left out. -/
theorem InOrder.without {front back first second : List (Item Key Value)}
    (inOrder : InOrder true (front ++ (first ++ .sep sep :: second) ++ back)) :
    InOrder true (front ++ (first ++ second) ++ back) := by
  refine inOrder.sublist ?_
  exact ((List.Sublist.refl _).append ((List.Sublist.refl _).append
    (List.sublist_cons_self _ _))).append (List.Sublist.refl _)

/-- Two leaves share their entries out anew, and the first key on the right is the separator. -/
theorem joined_leaves (standing : Standing s [Tree.ofLeaf id left, Tree.ofLeaf id' right])
    (same : left'.next = left.next) (same' : right'.next = right.next)
    (entries : left'.entries ++ right'.entries = left.entries ++ right.entries)
    (first : right'.entries = (sep', v) :: rest)
    (leftFits : kLeafMinEntries ≤ left'.entries.length ∧ left'.entries.length ≤ kLeafMaxEntries)
    (rightFits : kLeafMinEntries ≤ right'.entries.length ∧
      right'.entries.length ≤ kLeafMaxEntries) :
    Joined s (Tree.ofLeaf id left) sep (Tree.ofLeaf id' right)
      ((s.write id (.leaf left')).write id' (.leaf right'))
      ⟨[sep'], [Tree.ofLeaf id left', Tree.ofLeaf id' right']⟩ := by
  constructor
  · exact .leafPair standing same same'
  · rfl
  · intro kid member
    rcases List.mem_pair.mp member with rfl | rfl
    · exact leftFits
    · exact rightFits
  · intro front back inOrder
    have less := InOrder.without inOrder
    rw [Row.items_two]
    simp only [Row.items_ofLeaf] at less ⊢
    rw [← block_append, ← entries, first, block_append, block_cons] at less
    rw [first, block_cons]
    simp only [List.append_assoc, List.cons_append] at less ⊢
    rw [← List.append_assoc] at less ⊢
    exact less.separate
  · rw [Row.items_two]
    simp only [Row.items_ofLeaf, entriesOf_append, entriesOf_sep, entriesOf_block]
    exact entries

private theorem borrowLeft_leaf (standing : Standing s [Tree.ofLeaf id left, Tree.ofLeaf id' right])
    (spare : kLeafMinEntries < left.entries.length) (fits : left.entries.length ≤ kLeafMaxEntries)
    (little : right.entries.length + 1 = kLeafMinEntries) :
    ∃ left' right' sep', borrowLeft (.leaf left) (.leaf right) sep =
        (.leaf left', .leaf right', sep') ∧
      Joined s (Tree.ofLeaf id left) sep (Tree.ofLeaf id' right)
        ((s.write id (.leaf left')).write id' (.leaf right'))
        ⟨[sep'], [Tree.ofLeaf id left', Tree.ofLeaf id' right']⟩ := by
  obtain ⟨front, e, whole, last⟩ := exists_last (Nat.zero_lt_of_lt spare)
  have lastAt : left.count - 1 = front.length := last
  have erased := LeafNode.eraseAt_cut whole
  have added : (right.insertAt 0 e.1 e.2).entries = e :: right.entries :=
    @LeafNode.insertAt_cut _ [] _ rfl e.1 e.2
  have first : (right.insertAt 0 e.1 e.2).keyAt 0 = e.1 :=
    @LeafNode.keyAt_cut _ [] _ _ added
  rw [whole, List.length_append, List.length_singleton] at spare fits
  refine ⟨left.eraseAt front.length, right.insertAt 0 e.1 e.2, e.1, ?_, ?_⟩
  · simp only [borrowLeft, lastAt, LeafNode.keyAt_cut whole, LeafNode.valueAt_cut whole, first]
  · apply joined_leaves standing ?_ ?_ ?_ added
    · rw [erased, List.append_nil]
      omega
    · rw [added, List.length_cons, little]
      decide
    · rfl
    · rfl
    · rw [erased, added, whole]
      simp

theorem borrowRight_leaf (standing : Standing s [Tree.ofLeaf id left, Tree.ofLeaf id' right])
    (spare : kLeafMinEntries < right.entries.length)
    (fits : right.entries.length ≤ kLeafMaxEntries)
    (little : left.entries.length + 1 = kLeafMinEntries) :
    ∃ left' right' sep', borrowRight (.leaf left) (.leaf right) sep =
        (.leaf left', .leaf right', sep') ∧
      Joined s (Tree.ofLeaf id left) sep (Tree.ofLeaf id' right)
        ((s.write id (.leaf left')).write id' (.leaf right'))
        ⟨[sep'], [Tree.ofLeaf id left', Tree.ofLeaf id' right']⟩ := by
  obtain ⟨e, others, whole⟩ := List.exists_cons_of_length_pos (Nat.zero_lt_of_lt spare)
  rw [whole, List.length_cons] at spare fits
  obtain ⟨next, rest, whole'⟩ :=
    List.exists_cons_of_length_pos (Nat.lt_of_lt_of_le (by decide) (Nat.le_of_lt_succ spare))
  have erased : (right.eraseAt 0).entries = others := @LeafNode.eraseAt_cut _ [] _ _ whole
  have added : (left.insertAt left.count e.1 e.2).entries = left.entries ++ [e] :=
    @LeafNode.insertAt_cut _ _ [] (List.append_nil _).symm e.1 e.2
  have firstKey : right.keyAt 0 = e.1 := @LeafNode.keyAt_cut _ [] _ _ whole
  have firstValue : right.valueAt 0 = e.2 := @LeafNode.valueAt_cut _ [] _ _ whole
  have first : (right.eraseAt 0).keyAt 0 = next.1 :=
    @LeafNode.keyAt_cut _ [] _ _ (erased.trans whole')
  refine ⟨left.insertAt left.count e.1 e.2, right.eraseAt 0, next.1, ?_, ?_⟩
  · simp only [borrowRight, firstKey, firstValue, first]
  · apply joined_leaves standing ?_ ?_ ?_ (erased.trans whole')
    · rw [added, List.length_append, List.length_singleton, little]
      decide
    · rw [erased]
      omega
    · rfl
    · rfl
    · rw [added, erased, whole]
      simp

private theorem merge_leaf (standing : Standing s [Tree.ofLeaf id left, Tree.ofLeaf id' right])
    (fits : kLeafMinEntries ≤ left.entries.length + right.entries.length ∧
      left.entries.length + right.entries.length ≤ kLeafMaxEntries) :
    ∃ page, mergeNodes (.leaf left) (.leaf right) sep = .leaf page ∧
      Joined s (Tree.ofLeaf id left) sep (Tree.ofLeaf id' right)
        ((s.write id (.leaf page)).free id') ⟨[], [Tree.ofLeaf id page]⟩ := by
  refine ⟨_, rfl, ?_⟩
  have entries : ({ left.appendFrom right with next := right.next } : LeafNode).entries =
      left.entries ++ right.entries := rfl
  constructor
  · exact .leafMerge standing rfl
  · rfl
  · intro kid member
    obtain rfl := List.mem_singleton.mp member
    rw [← List.length_append] at fits
    exact fits
  · intro front back inOrder
    have less := InOrder.without inOrder
    rw [Row.items_one]
    simp only [Row.items_ofLeaf] at less ⊢
    rwa [entries, block_append]
  · rw [Row.items_one]
    simp only [Row.items_ofLeaf, entriesOf_block]
    exact entries

end Leaves

section Rows

variable {s : Store} {id id' : PageId} {left right left' right' : Row (Tree h)} {sep sep' : Key}

/-- Two inner nodes share their children out anew, and the separator between them is another one. -/
theorem joined_rows (standing : Standing s [left.tree id, right.tree id'])
    (same : left'.kids ++ right'.kids = left.kids ++ right.kids)
    (items : left'.items ++ .sep sep' :: right'.items = left.items ++ .sep sep :: right.items)
    (leftFits : kInternalMinKeys ≤ left'.keys.length ∧ left'.keys.length ≤ kInternalMaxKeys)
    (rightFits : kInternalMinKeys ≤ right'.keys.length ∧ right'.keys.length ≤ kInternalMaxKeys)
    (leftWhole : left'.kids.length = left'.keys.length + 1)
    (rightWhole : right'.kids.length = right'.keys.length + 1)
    (each : ∀ kid ∈ left.kids ++ right.kids, minCount h ≤ kid.count ∧ kid.Sound) :
    Joined s (left.tree id) sep (right.tree id')
      ((s.write id (.internal left'.node)).write id' (.internal right'.node))
      ⟨[sep'], [left'.tree id, right'.tree id']⟩ := by
  rw [← same] at each
  constructor
  · exact .regroup standing same
  · rfl
  · intro kid member
    rcases List.mem_pair.mp member with rfl | rfl
    · exact ⟨leftFits.1, leftFits.2, leftWhole, fun kid inside =>
        each kid (List.mem_append_left _ inside)⟩
    · exact ⟨rightFits.1, rightFits.2, rightWhole, fun kid inside =>
        each kid (List.mem_append_right _ inside)⟩
  · intro front back inOrder
    rw [Row.items_two, Row.items_tree, Row.items_tree, items]
    exact inOrder
  · have entries := congrArg entriesOf items
    rw [Row.items_two]
    simpa only [Row.items_tree, entriesOf_append, entriesOf_sep] using entries

private theorem borrowLeft_inner (standing : Standing s [left.tree id, right.tree id'])
    (spare : kInternalMinKeys < left.keys.length) (fits : left.keys.length ≤ kInternalMaxKeys)
    (little : right.keys.length + 1 = kInternalMinKeys)
    (leftWhole : left.kids.length = left.keys.length + 1)
    (rightWhole : right.kids.length = right.keys.length + 1)
    (each : ∀ kid ∈ left.kids ++ right.kids, minCount h ≤ kid.count ∧ kid.Sound) :
    ∃ left' right' : Row (Tree h), ∃ sep',
      borrowLeft (.internal left.node) (.internal right.node) sep =
        (.internal left'.node, .internal right'.node, sep') ∧
      Joined s (left.tree id) sep (right.tree id')
        ((s.write id (.internal left'.node)).write id' (.internal right'.node))
        ⟨[sep'], [left'.tree id, right'.tree id']⟩ := by
  obtain ⟨leftKeys, leftKids⟩ := left
  obtain ⟨keys, up, rfl, -⟩ := exists_last (Nat.zero_lt_of_lt spare)
  obtain ⟨kids, moved, rfl, -⟩ := exists_last ((Nat.succ_pos _).trans_eq leftWhole.symm)
  simp only [List.length_append, List.length_singleton, Nat.add_right_cancel_iff]
    at leftWhole spare fits
  refine ⟨⟨keys, kids⟩, ⟨sep :: right.keys, moved :: right.kids⟩, up, ?_, ?_⟩
  · have size : (⟨keys ++ [up], kids ++ [moved]⟩ : Row (Tree h)).node.count = keys.length + 1 :=
      List.length_append
    have last : (⟨keys ++ [up], kids ++ [moved]⟩ : Row (Tree h)).node.childAt (keys.length + 1) =
        moved.id := by
      rw [InternalNode.childAt, Row.node, ← leftWhole, List.map_append, ← List.length_map Tree.id,
        List.getD_eq_getElem?_getD, List.getElem?_append_right (Nat.le_refl _), Nat.sub_self]
      rfl
    have lastKey : (⟨keys ++ [up], kids ++ [moved]⟩ : Row (Tree h)).node.keyAt keys.length = up := by
      rw [InternalNode.keyAt, Row.node, List.getD_eq_getElem?_getD,
        List.getElem?_append_right (Nat.le_refl _), Nat.sub_self]
      rfl
    have shorter : (⟨keys ++ [up], kids ++ [moved]⟩ : Row (Tree h)).node.setCount keys.length =
        (⟨keys, kids⟩ : Row (Tree h)).node := by
      simp only [Row.node, InternalNode.setCount, List.take_left, List.map_append]
      rw [← leftWhole, ← List.length_map Tree.id, List.take_left]
    simp only [borrowLeft, size, Nat.add_sub_cancel, last, lastKey, shorter]
    rfl
  · apply joined_rows standing
    · simp
    · have taken := Row.items_append ⟨keys, kids⟩ ⟨[], [moved]⟩ up leftWhole (List.cons_ne_nil _ _)
      have given := Row.items_append ⟨[], [moved]⟩ right sep rfl
        (List.ne_nil_of_length_pos (rightWhole ▸ Nat.succ_pos _))
      simp only [List.nil_append, List.cons_append, Row.items_one] at taken given
      rw [taken, given]
      simp
    · exact ⟨Nat.le_of_lt_succ spare, (Nat.le_succ _).trans fits⟩
    · rw [List.length_cons, little]
      decide
    · exact leftWhole
    · rw [List.length_cons, List.length_cons, rightWhole]
    · exact each

private theorem borrowRight_inner (standing : Standing s [left.tree id, right.tree id'])
    (spare : kInternalMinKeys < right.keys.length) (fits : right.keys.length ≤ kInternalMaxKeys)
    (little : left.keys.length + 1 = kInternalMinKeys)
    (leftWhole : left.kids.length = left.keys.length + 1)
    (rightWhole : right.kids.length = right.keys.length + 1)
    (each : ∀ kid ∈ left.kids ++ right.kids, minCount h ≤ kid.count ∧ kid.Sound) :
    ∃ left' right' : Row (Tree h), ∃ sep',
      borrowRight (.internal left.node) (.internal right.node) sep =
        (.internal left'.node, .internal right'.node, sep') ∧
      Joined s (left.tree id) sep (right.tree id')
        ((s.write id (.internal left'.node)).write id' (.internal right'.node))
        ⟨[sep'], [left'.tree id, right'.tree id']⟩ := by
  obtain ⟨rightKeys, rightKids⟩ := right
  obtain ⟨up, keys, rfl⟩ := List.exists_cons_of_length_pos (Nat.zero_lt_of_lt spare)
  obtain ⟨moved, kids, rfl⟩ := List.exists_cons_of_length_pos
    ((Nat.succ_pos _).trans_eq rightWhole.symm)
  simp only [List.length_cons, Nat.add_right_cancel_iff] at rightWhole spare fits
  have some_ : kids ≠ [] := List.ne_nil_of_length_pos (rightWhole ▸ Nat.succ_pos _)
  refine ⟨⟨left.keys ++ [sep], left.kids ++ [moved]⟩, ⟨keys, kids⟩, up, ?_, ?_⟩
  · simp [borrowRight, InternalNode.appendChildKey, InternalNode.eraseFront, InternalNode.childAt,
      InternalNode.keyAt, Row.node]
  · apply joined_rows standing
    · simp
    · have taken := Row.items_append ⟨[], [moved]⟩ ⟨keys, kids⟩ up rfl some_
      have given := Row.items_append left ⟨[], [moved]⟩ sep leftWhole (List.cons_ne_nil _ _)
      simp only [List.nil_append, List.cons_append, Row.items_one] at taken given
      rw [taken, given]
      simp
    · rw [List.length_append, List.length_singleton, little]
      decide
    · exact ⟨Nat.le_of_lt_succ spare, (Nat.le_succ _).trans fits⟩
    · rw [List.length_append, List.length_append, leftWhole]
      rfl
    · exact rightWhole
    · exact each

private theorem merge_inner (standing : Standing s [left.tree id, right.tree id'])
    (leftWhole : left.kids.length = left.keys.length + 1)
    (rightWhole : right.kids.length = right.keys.length + 1)
    (each : ∀ kid ∈ left.kids ++ right.kids, minCount h ≤ kid.count ∧ kid.Sound)
    (fits : kInternalMinKeys ≤ left.keys.length + right.keys.length + 1 ∧
      left.keys.length + right.keys.length + 1 ≤ kInternalMaxKeys) :
    ∃ row : Row (Tree h), mergeNodes (.internal left.node) (.internal right.node) sep =
        .internal row.node ∧
      Joined s (left.tree id) sep (right.tree id')
        ((s.write id (.internal row.node)).free id') ⟨[], [row.tree id]⟩ := by
  have items := Row.items_append left right sep leftWhole
    (List.ne_nil_of_length_pos (rightWhole ▸ Nat.succ_pos _))
  refine ⟨⟨left.keys ++ sep :: right.keys, left.kids ++ right.kids⟩, ?_, ?_⟩
  · simp [mergeNodes, Row.node]
  · constructor
    · exact .merge standing rfl
    · rfl
    · intro kid member
      obtain rfl := List.mem_singleton.mp member
      have size : (left.keys ++ sep :: right.keys).length =
          left.keys.length + right.keys.length + 1 := by
        rw [List.length_append, List.length_cons, Nat.add_assoc]
      refine ⟨?_, ?_, ?_, each⟩
      · exact fits.1.trans_eq size.symm
      · exact size.trans_le fits.2
      · change (left.kids ++ right.kids).length = (left.keys ++ sep :: right.keys).length + 1
        rw [List.length_append, leftWhole, rightWhole, size]
        omega
    · intro front back inOrder
      rw [Row.items_one, Row.items_tree, items]
      exact inOrder
    · rw [Row.items_one, Row.items_tree, items, entriesOf_append, entriesOf_sep]
      rfl

end Rows

section Trees

variable {s : Store} {l r : Tree h} {sep : Key}

theorem Tree.spare_page (t : Tree h) : t.page.spare = decide (minCount h < t.count) := by
  cases h <;> rfl

theorem Tree.isUnderflow_page (t : Tree h) : t.page.isUnderflow = decide (t.count < minCount h) := by
  cases h <;> rfl

theorem minCount_room (h : Nat) : minCount h + minCount h ≤ maxCount h ∧ 1 ≤ minCount h := by
  cases h with
  | zero => decide
  | succ h =>
    exact (by decide : kInternalMinKeys + kInternalMinKeys ≤ kInternalMaxKeys ∧ 1 ≤ kInternalMinKeys)

/-- The neighbour on the left has an entry or a child to spare. -/
theorem borrowLeft_spec (standing : Standing s [l, r]) (spare : minCount h < l.count)
    (left : l.Sound) (right : r.Sound) (little : r.count + 1 = minCount h) :
    ∃ l' r' : Tree h, ∃ sep', borrowLeft l.page r.page sep = (l'.page, r'.page, sep') ∧
      l'.id = l.id ∧ r'.id = r.id ∧
      Joined s l sep r ((s.write l.id l'.page).write r.id r'.page) ⟨[sep'], [l', r']⟩ := by
  cases h with
  | zero =>
    obtain ⟨id, page⟩ : LeafTree := l
    obtain ⟨id', page'⟩ : LeafTree := r
    obtain ⟨left', right', sep', gave, joined⟩ := @borrowLeft_leaf s id id' page page' sep standing
      spare left little
    exact ⟨.ofLeaf id left', .ofLeaf id' right', sep', gave, rfl, rfl, joined⟩
  | succ h =>
    obtain ⟨row, id⟩ : InnerTree (Tree h) := l
    obtain ⟨row', id'⟩ : InnerTree (Tree h) := r
    obtain ⟨left', right', sep', gave, joined⟩ := @borrowLeft_inner h s id id' row row' sep standing
      spare left.1 little left.2.1 right.2.1
      fun kid member => (List.mem_append.mp member).elim (left.2.2 kid) (right.2.2 kid)
    exact ⟨left'.tree id, right'.tree id', sep', gave, rfl, rfl, joined⟩

theorem borrowRight_spec (standing : Standing s [l, r]) (spare : minCount h < r.count)
    (left : l.Sound) (right : r.Sound) (little : l.count + 1 = minCount h) :
    ∃ l' r' : Tree h, ∃ sep', borrowRight l.page r.page sep = (l'.page, r'.page, sep') ∧
      l'.id = l.id ∧ r'.id = r.id ∧
      Joined s l sep r ((s.write l.id l'.page).write r.id r'.page) ⟨[sep'], [l', r']⟩ := by
  cases h with
  | zero =>
    obtain ⟨id, page⟩ : LeafTree := l
    obtain ⟨id', page'⟩ : LeafTree := r
    obtain ⟨left', right', sep', gave, joined⟩ := @borrowRight_leaf s id id' page page' sep standing
      spare right little
    exact ⟨.ofLeaf id left', .ofLeaf id' right', sep', gave, rfl, rfl, joined⟩
  | succ h =>
    obtain ⟨row, id⟩ : InnerTree (Tree h) := l
    obtain ⟨row', id'⟩ : InnerTree (Tree h) := r
    obtain ⟨left', right', sep', gave, joined⟩ := @borrowRight_inner h s id id' row row' sep standing
      spare right.1 little left.2.1 right.2.1
      fun kid member => (List.mem_append.mp member).elim (left.2.2 kid) (right.2.2 kid)
    exact ⟨left'.tree id, right'.tree id', sep', gave, rfl, rfl, joined⟩

/-- Neither has one to spare, and one page holds what both hold. -/
theorem mergeNodes_spec (standing : Standing s [l, r]) (left : l.Sound) (right : r.Sound)
    (little : l.count + r.count + 1 = minCount h + minCount h) :
    ∃ t : Tree h, mergeNodes l.page r.page sep = t.page ∧ t.id = l.id ∧
      Joined s l sep r ((s.write l.id t.page).free r.id) ⟨[], [t]⟩ := by
  have room := minCount_room h
  cases h with
  | zero =>
    obtain ⟨id, page⟩ : LeafTree := l
    obtain ⟨id', page'⟩ : LeafTree := r
    change page.entries.length + page'.entries.length + 1 = kLeafMinEntries + kLeafMinEntries at little
    change kLeafMinEntries + kLeafMinEntries ≤ kLeafMaxEntries ∧ 1 ≤ kLeafMinEntries at room
    obtain ⟨page'', merged, joined⟩ := @merge_leaf s id id' page page' sep standing
      ⟨by omega, by omega⟩
    exact ⟨.ofLeaf id page'', merged, rfl, joined⟩
  | succ h =>
    obtain ⟨row, id⟩ : InnerTree (Tree h) := l
    obtain ⟨row', id'⟩ : InnerTree (Tree h) := r
    change row.keys.length + row'.keys.length + 1 = kInternalMinKeys + kInternalMinKeys at little
    change kInternalMinKeys + kInternalMinKeys ≤ kInternalMaxKeys ∧ 1 ≤ kInternalMinKeys at room
    obtain ⟨row'', merged, joined⟩ := @merge_inner h s id id' row row' sep standing left.2.1
      right.2.1 (fun kid member => (List.mem_append.mp member).elim (left.2.2 kid) (right.2.2 kid))
      ⟨by omega, by omega⟩
    exact ⟨row''.tree id, merged, rfl, joined⟩

end Trees

end Labdb.BTree
