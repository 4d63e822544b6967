import Labdb.BTree.LeafInsert

/-! `insert_rec` on a tree of any height, and `insert`: where the child on a key's way has split,
its parent takes in the separator and the tree on its right, or splits itself. -/

namespace Labdb.BTree

open Labdb.Data Labdb.Data.Item Labdb.Query Labdb.Storage

/-- No full node on a key's way that has to split takes in a separator equal to the one on its
right. -/
def tieFree (nodes : PageId → Node) (key : Key) : Nat → PageId → Bool
  | 0, _ => true
  | rounds + 1, id =>
    match nodes id with
    | .leaf _ => true
    | .internal node =>
      let ci := node.childIndexFor key
      let child := node.childAt ci
      tieFree nodes key rounds child &&
        !(node.isFull && fullPath nodes key rounds child && decide (ci < node.count) &&
          (nodes child).middle == node.keyAt ci)

section Cut

variable {α : Type} {l : List α} {a : α} {i n : Nat}

/-- An element is put in before or after a cut. -/
theorem insert_take (short : i ≤ n) (inside : n ≤ l.length) :
    (l.take n).take i ++ a :: (l.take n).drop i = (l.take i ++ a :: l.drop i).take (n + 1) := by
  have size : (l.take i).length = i := List.length_take_of_le (by omega)
  rw [List.take_append, size, List.take_take, Nat.min_eq_left short,
    List.take_of_length_le (by omega : (l.take i).length ≤ n + 1),
    (by omega : n + 1 - i = n - i + 1), List.take_succ_cons, List.drop_take]

private theorem insert_take_drop (short : i ≤ n) (inside : n ≤ l.length) :
    l.drop n = (l.take i ++ a :: l.drop i).drop (n + 1) := by
  have size : (l.take i).length = i := List.length_take_of_le (by omega)
  rw [List.drop_append, size, List.drop_of_length_le (by omega : (l.take i).length ≤ n + 1),
    (by omega : n + 1 - i = n - i + 1), List.drop_succ_cons, List.drop_drop, List.nil_append]
  congr 1
  omega

private theorem insert_drop_take (long : n ≤ i) (inside : i ≤ l.length) :
    l.take n = (l.take i ++ a :: l.drop i).take n := by
  have size : (l.take i).length = i := List.length_take_of_le inside
  rw [List.take_append, size, List.take_take, Nat.min_eq_left long, Nat.sub_eq_zero_of_le long,
    List.take_zero, List.append_nil]

private theorem insert_drop (long : n ≤ i) (inside : i ≤ l.length) :
    (l.drop n).take (i - n) ++ a :: (l.drop n).drop (i - n) =
      (l.take i ++ a :: l.drop i).drop n := by
  have size : (l.take i).length = i := List.length_take_of_le inside
  rw [List.drop_append, size, Nat.sub_eq_zero_of_le long, List.drop_zero, List.drop_drop,
    List.drop_take, Nat.add_sub_cancel' long]

end Cut

variable {alloc : Allocator} {unique overwrite : Bool} {key : Key} {value : Value} {h : Nat}

section Split

variable {s : Store} {id : PageId} {ci : Nat} {node : InternalNode} {split : Split}
  {front back : List Key}

theorem insertSplit_room (alloc : Allocator) (room : node.isFull = false) :
    insertSplit alloc id node ci split s =
      some (none, s.write id (.internal (node.insertChildAt ci split.sepKey split.right))) := by
  simp [insertSplit, room]

/-- Where the separators are cut already, the search ends at the cut. -/
theorem childIndexFor_eq (whole : node.keys = front ++ back) {k : Key} (below : ∀ key ∈ front, key ≤ k)
    (above : ∀ key ∈ back, k < key) : node.childIndexFor k = front.length := by
  rw [InternalNode.childIndexFor, whole]
  apply searchList_eq
  · exact fun key member => decide_eq_true (below key member)
  · exact fun key member => decide_eq_false (Std.not_le.mpr (above key member))

/-- A full node is cut in two as if it had taken the separator in first, where that is larger
than all before its place and smaller than all behind. -/
theorem insertSplit_full (alloc : Allocator) (whole : node.keys = front ++ back)
    (size : node.keys.length = kInternalMaxKeys) (kids : node.children.length = kInternalMaxKeys + 1)
    (below : ∀ key ∈ front, key ≤ split.sepKey) (above : ∀ key ∈ back, split.sepKey < key) :
    ∃ n, (n = kInternalMinKeys ∨ n = kInternalMinKeys + 1) ∧
      (node.insertChildAt front.length split.sepKey split.right).keyAt n =
        node.keyAt (node.count / 2) ∧
      insertSplit alloc id node ci split s =
        some (some ⟨node.keyAt (node.count / 2), s.handedOut alloc⟩,
          ((s.allocate alloc).write id (.internal
            ((node.insertChildAt front.length split.sepKey split.right).setCount n))).write
              (s.handedOut alloc) (.internal
                ⟨(node.insertChildAt front.length split.sepKey split.right).keys.drop (n + 1),
                  (node.insertChildAt front.length split.sepKey split.right).children.drop
                    (n + 1)⟩)) := by
  have full : node.isFull = true := decide_eq_true size.ge
  have mid : node.count / 2 = 169 := by
    rw [InternalNode.count, size]
    rfl
  have size' : node.keys.length = 339 := size
  have kids' : node.children.length = 340 := kids
  have place : front.length ≤ 339 := by
    rw [whole, List.length_append] at size'
    omega
  have within : 169 < node.keys.length := by omega
  have median : node.keyAt 169 = node.keys[169] := by
    rw [InternalNode.keyAt, List.getD_eq_getElem?_getD, List.getElem?_eq_getElem within]
    rfl
  have grown : (node.insertChildAt front.length split.sepKey split.right).keys =
      front ++ split.sepKey :: back := by
    rw [InternalNode.insertChildAt, whole, List.take_left, List.drop_left]
  rw [mid]
  by_cases less : split.sepKey < node.keyAt 169
  · have short : front.length ≤ 169 := by
      by_contra long
      have member : node.keys[169] ∈ front := by
        simp only [whole]
        rw [List.getElem_append_left (by omega)]
        exact List.getElem_mem _
      exact Std.not_le.mpr less (median ▸ below _ member)
    have found : (node.setCount 169).childIndexFor split.sepKey = front.length := by
      apply @childIndexFor_eq _ front (back.take (169 - front.length))
      · rw [InternalNode.setCount, whole, List.take_append, List.take_of_length_le short]
      · exact below
      · exact fun key member => above key (List.mem_of_mem_take member)
    have left : (node.setCount 169).insertChildAt front.length split.sepKey split.right =
        (node.insertChildAt front.length split.sepKey split.right).setCount 170 := by
      simp only [InternalNode.insertChildAt, InternalNode.setCount]
      rw [insert_take short (by omega), insert_take (by omega) (by omega)]
    refine ⟨170, .inr rfl, ?_, ?_⟩
    · simp only [InternalNode.keyAt, List.getD_eq_getElem?_getD, grown]
      rw [whole, List.getElem?_append_right (by omega), List.getElem?_append_right short,
        (by omega : 170 - front.length = 169 - front.length + 1), List.getElem?_cons_succ]
    · have keys : node.keys.drop 170 =
          (node.insertChildAt front.length split.sepKey split.right).keys.drop 171 :=
        insert_take_drop (by omega) (by omega)
      have children : node.children.drop 170 =
          (node.insertChildAt front.length split.sepKey split.right).children.drop 171 :=
        insert_take_drop (by omega) (by omega)
      simp [insertSplit, full, mid, less, found, left, keys, children]
  · have long : 170 ≤ front.length := by
      by_contra short
      have member : node.keys[169] ∈ back := by
        simp only [whole]
        rw [List.getElem_append_right (by omega)]
        exact List.getElem_mem _
      exact less (median ▸ above _ member)
    have found : InternalNode.childIndexFor
        ⟨node.keys.drop 170, node.children.drop 170⟩ split.sepKey = front.length - 170 := by
      rw [← List.length_drop]
      apply @childIndexFor_eq _ (front.drop 170) back
      · rw [whole, List.drop_append_of_le_length long]
      · exact fun key member => below key (List.mem_of_mem_drop member)
      · exact above
    have right : InternalNode.insertChildAt ⟨node.keys.drop 170, node.children.drop 170⟩
        (front.length - 170) split.sepKey split.right =
        ⟨(node.insertChildAt front.length split.sepKey split.right).keys.drop 170,
          (node.insertChildAt front.length split.sepKey split.right).children.drop 170⟩ := by
      simp only [InternalNode.insertChildAt]
      rw [insert_drop long (by omega), (by omega : front.length - 170 + 1 = front.length + 1 - 170),
        insert_drop (by omega) (by omega)]
    have left : node.setCount 169 =
        (node.insertChildAt front.length split.sepKey split.right).setCount 169 := by
      simp only [InternalNode.setCount, InternalNode.insertChildAt]
      rw [← insert_drop_take (by omega) (by omega), ← insert_drop_take (by omega) (by omega)]
    refine ⟨169, .inl rfl, ?_, ?_⟩
    · simp only [InternalNode.keyAt, List.getD_eq_getElem?_getD, grown]
      rw [whole, List.getElem?_append_left (by omega), List.getElem?_append_left (by omega)]
    · simp [insertSplit, full, mid, less, found, left, right]

end Split

theorem Entered.between {old new front back : List (Key × Value)} {inserted : Bool}
    (entered : Entered unique overwrite key value old new inserted)
    (above : ∀ e ∈ back, key < e.1) :
    Entered unique overwrite key value (front ++ old ++ back) (front ++ new ++ back) inserted := by
  cases entered with
  | added before after ahead =>
    have moved := @Entered.added unique overwrite key value (front ++ before) (after ++ back)
      fun e member => (List.mem_append.mp member).elim (ahead e) (above e)
    simpa only [List.append_assoc, List.cons_append] using moved
  | overwritten before after was known asked =>
    have moved := @Entered.overwritten unique overwrite key value (front ++ before)
      (after ++ back) was known asked
    simpa only [List.append_assoc, List.cons_append] using moved
  | kept entries was known asked member =>
    exact .kept _ was known asked (List.mem_append_left _ (List.mem_append_right _ member))

section Inner

variable {s s' : Store} {id : PageId} {keys keys' : List Key} {kids kids' : List (Tree h)}
  {kid : Tree h} {krow : Row (Tree h)} {rounds : Nat} {split : Option Split} {inserted : Bool}

/-- One of the trees that stand side by side. -/
theorem Standing.only (standing : Standing s (kids ++ [kid] ++ kids')) : Standing s [kid] := by
  have inside : ∀ other ∈ idsOf [kid], other ∈ idsOf (kids ++ [kid] ++ kids') := fun other member => by
    simp only [idsOf_append, List.mem_append]
    exact .inl (.inr member)
  constructor
  · intro t member
    exact standing.stored t (List.mem_append_left _ (List.mem_append_right _ member))
  · have nodup := standing.nodup
    simp only [idsOf_append] at nodup
    exact (List.nodup_append.mp (List.nodup_append.mp nodup).1).2.1
  · exact fun other member => standing.owned other (inside other member)

/-- The children of a node around one of them. -/
abbrev around (keys : List Key) (kids : List (Tree h)) (kid : Tree h) (keys' : List Key)
    (kids' : List (Tree h)) : Row (Tree h) :=
  (⟨[], [kid]⟩ : Row (Tree h)).between keys kids keys' kids'

theorem Pieces.whole {row : Row (Tree h)} (pieces : Pieces id row split) :
    row.kids.length = row.keys.length + 1 := by
  cases pieces <;> rfl

theorem Grown.each (grown : Grown unique overwrite key value rounds s kid split inserted s' krow)
    (enough : minCount h ≤ kid.count) : ∀ piece ∈ krow.kids, minCount h ≤ piece.count ∧ piece.Sound := by
  intro piece member
  refine ⟨?_, grown.sound piece member⟩
  by_cases whole : split = none
  · exact enough.trans (grown.enough whole piece member)
  · exact grown.halves whole piece member

/-- The child's pieces in its place: the row that the node would be if it could hold it. -/
structure Taken (unique overwrite : Bool) (key : Key) (value : Value) (s : Store)
    (row : Row (Tree h)) (inserted : Bool) (s' : Store) (row' : Row (Tree h)) : Prop where
  became : Became s row.kids s' row'.kids
  keeps : Keeps unique key value row.items row'.items
  entered : Entered unique overwrite key value (entriesOf row.items) (entriesOf row'.items) inserted
  whole : row'.kids.length = row'.keys.length + 1
  each : ∀ piece ∈ row'.kids, minCount h ≤ piece.count ∧ piece.Sound

theorem Taken.ordered {row row' : Row (Tree h)}
    (taken : Taken unique overwrite key value s row inserted s' row')
    (inOrder : InOrder unique row.items) : InOrder unique row'.items := by
  have whole := taken.keeps [] [] (by simpa using inOrder)
    (fun x never => absurd never List.not_mem_nil) (fun y never => absurd never List.not_mem_nil)
  simpa using whole

theorem Grown.taken (grown : Grown unique overwrite key value rounds s kid split inserted s' krow)
    (left : kids.length = keys.length) (right : kids'.length = keys'.length)
    (below : ∀ k ∈ keys, k ≤ key) (above : ∀ k ∈ keys', key < k)
    (standing : Standing s (around keys kids kid keys' kids').kids)
    (inOrder : InOrder unique (around keys kids kid keys' kids').items)
    (each : ∀ piece ∈ (around keys kids kid keys' kids').kids,
      minCount h ≤ piece.count ∧ piece.Sound) :
    Taken unique overwrite key value s (around keys kids kid keys' kids') inserted s'
      (krow.between keys kids keys' kids') := by
  have whole := grown.pieces.whole
  have items := @Row.items_between _ keys keys' kids kids' ⟨[], [kid]⟩ left rfl
  have items' := @Row.items_between _ keys keys' kids kids' krow left whole
  rw [Row.items_one] at items
  have passes : ∀ y ∈ back keys' (kids'.map Tree.items), key < y.key := by
    intro y member
    rw [items] at inOrder
    obtain ⟨k, known, least⟩ := sep_le_of_mem_back (inOrder_append.mp inOrder).2.1 member
    exact Std.lt_of_lt_of_le (above k known) least
  constructor
  · exact grown.became.between standing
  · intro before after ordered first last
    rw [items] at ordered
    rw [items']
    have around_ := grown.keeps (before ++ front keys (kids.map Tree.items))
      (back keys' (kids'.map Tree.items) ++ after) (by simpa only [List.append_assoc] using ordered)
    simp only [List.append_assoc] at around_ ⊢
    apply around_
    · intro x member
      rcases List.mem_append.mp member with outside | inFront
      · exact first x outside
      · rw [items, List.append_assoc] at inOrder
        obtain ⟨k, known, bounded⟩ :=
          before_sep_of_mem_front (inOrder_append.mp inOrder).1 inFront
        exact bounded.of_le (below k known)
    · intro y member
      exact (List.mem_append.mp member).elim (passes y) (last y)
  · rw [items, items']
    simp only [entriesOf_append]
    apply grown.entered.between
    intro e member
    exact passes _ (mem_entriesOf.mp member)
  · simp only [Row.between, List.length_append, left, right, whole]
    omega
  · intro piece member
    simp only [Row.between, List.mem_append, List.mem_singleton] at each member
    rcases member with (inLeft | new) | inRight
    · exact each piece (.inl (.inl inLeft))
    · exact grown.each (each kid (.inl (.inr rfl))).1 piece new
    · exact each piece (.inr inRight)

variable {s'' : Store} {row row' : Row (Tree h)}

/-- The node has taken in what its child became. -/
theorem Taken.one (taken : Taken unique overwrite key value s row inserted s' row')
    (more : row.keys.length ≤ row'.keys.length) (fits : row'.keys.length ≤ kInternalMaxKeys)
    (became : Became s [row.tree id] s'' [row'.tree id]) :
    Grown unique overwrite key value rounds s (row.tree id) none inserted s''
      ⟨[], [row'.tree id]⟩ := by
  constructor
  · exact .one _ rfl
  · exact became
  · intro piece member
    obtain rfl := List.mem_singleton.mp member
    exact ⟨fits, taken.whole, taken.each⟩
  · intro _ piece member
    obtain rfl := List.mem_singleton.mp member
    exact more
  · exact fun never => absurd rfl never
  · rw [Row.items_one, Row.items_tree, Row.items_tree]
    exact taken.keeps
  · rw [Row.items_one, Row.items_tree, Row.items_tree]
    exact taken.entered
  · exact fun sep member => absurd member List.not_mem_nil

/-- The node is cut in two as well. -/
theorem Taken.two (taken : Taken unique overwrite key value s row inserted s' row')
    {left right : Row (Tree h)} {median : Key} {new : PageId}
    (keys : row'.keys = left.keys ++ median :: right.keys)
    (kids : row'.kids = left.kids ++ right.kids)
    (leftWhole : left.kids.length = left.keys.length + 1)
    (leftFits : kInternalMinKeys ≤ left.keys.length ∧ left.keys.length ≤ kInternalMaxKeys)
    (rightFits : kInternalMinKeys ≤ right.keys.length ∧ right.keys.length ≤ kInternalMaxKeys)
    (became : Became s [row.tree id] s'' [left.tree id, right.tree new])
    (middle : median = (row.tree id).page.middle)
    (full : fullPath s.nodes key rounds id = true) :
    Grown unique overwrite key value rounds s (row.tree id) (some ⟨median, new⟩) inserted s''
      ⟨[median], [left.tree id, right.tree new]⟩ := by
  have rightWhole : right.kids.length = right.keys.length + 1 := by
    have whole := taken.whole
    rw [keys, kids] at whole
    simp only [List.length_append, List.length_cons] at whole
    omega
  have items : row'.items = left.items ++ .sep median :: right.items := by
    rw [Row.items, keys, kids, List.map_append]
    apply weave_split
    · rw [List.length_map, leftWhole]
    · intro none
      rw [List.map_eq_nil_iff.mp none] at rightWhole
      cases rightWhole
  have each := taken.each
  rw [kids] at each
  constructor
  · exact .two _ _ _ rfl
  · exact became
  · intro piece member
    rcases List.mem_pair.mp member with rfl | rfl
    · exact ⟨leftFits.2, leftWhole, fun kid inside => each kid (List.mem_append_left _ inside)⟩
    · exact ⟨rightFits.2, rightWhole, fun kid inside => each kid (List.mem_append_right _ inside)⟩
  · exact fun never => absurd never (Option.some_ne_none _)
  · intro _ piece member
    rcases List.mem_pair.mp member with rfl | rfl
    · exact leftFits.1
    · exact rightFits.1
  · rw [Row.items_two, Row.items_tree, Row.items_tree, Row.items_tree, ← items]
    exact taken.keeps
  · rw [Row.items_two, Row.items_tree, Row.items_tree, Row.items_tree, ← items]
    exact taken.entered
  · intro sep member
    obtain rfl := List.mem_singleton.mp member
    exact ⟨middle, full⟩

/-- A tree that holds enough holds an entry. -/
theorem Tree.some_entry (t : Tree h) (sound : t.Sound) (enough : minCount h ≤ t.count) :
    ∃ k v, Item.entry k v ∈ t.items := by
  induction h with
  | zero =>
    obtain ⟨id, page⟩ : LeafTree := t
    obtain ⟨e, rest, starts⟩ := List.exists_cons_of_length_pos
      (Nat.lt_of_lt_of_le (by decide) enough : 0 < page.entries.length)
    refine ⟨e.1, e.2, ?_⟩
    change _ ∈ block page.entries
    rw [starts]
    exact List.mem_cons_self
  | succ h ih =>
    obtain ⟨row, id⟩ : InnerTree (Tree h) := t
    obtain ⟨_, whole, each⟩ := sound
    obtain ⟨first, rest, starts⟩ := List.exists_cons_of_length_pos
      (whole ▸ Nat.succ_pos _ : 0 < row.kids.length)
    have here : first ∈ row.kids := starts ▸ List.mem_cons_self
    obtain ⟨k, v, member⟩ := ih first (each first here).2 (each first here).1
    refine ⟨k, v, ?_⟩
    change _ ∈ weave row.keys (row.kids.map Tree.items)
    rw [starts]
    exact List.mem_append_left _ member

/-- The separators behind a child that has split are not below the new one; and they are above it
where keys are unique, since the tree between holds an entry. -/
theorem le_of_between {l r : Tree h} {sep k : Key} (member : k ∈ keys')
    (left : kids.length = keys.length) (right : kids'.length = keys'.length)
    (inOrder : InOrder unique ((⟨[sep], [l, r]⟩ : Row (Tree h)).between keys kids keys' kids').items)
    (sound : r.Sound) (enough : minCount h ≤ r.count) :
    sep ≤ k ∧ (unique = true → sep < k) := by
  rw [Row.items_between left rfl, Row.items_two] at inOrder
  have behind : Item.sep k ∈ back keys' (kids'.map Tree.items) := by
    apply (seps_sublist_back (by rw [List.length_map, right])).subset
    exact List.mem_map_of_mem member
  have tail : InOrder unique (.sep sep :: (r.items ++ back keys' (kids'.map Tree.items))) := by
    rw [List.append_assoc, List.append_assoc] at inOrder
    have later := (inOrder_append.mp (inOrder_append.mp inOrder).2.1).2.1
    rwa [List.cons_append] at later
  obtain ⟨bounds, rest⟩ := List.pairwise_cons.mp tail
  refine ⟨bounds _ (List.mem_append_right _ behind), fun known => ?_⟩
  obtain ⟨e, v, inside⟩ := r.some_entry sound enough
  have first : sep ≤ e := bounds _ (List.mem_append_left _ inside)
  have second := (inOrder_append.mp rest).2.2 _ inside _ behind
  rw [known] at second
  exact Std.lt_of_le_of_lt first second

end Inner

section Equations

variable {s s' s'' : Store} {id : PageId} {node : InternalNode} {rounds : Nat} {split : Split}
  {up : Option Split} {inserted : Bool}

theorem insertRec_leaf {leaf : LeafNode} (here : s.nodes id = .leaf leaf) :
    insertRec alloc unique (rounds + 1) id key value overwrite s =
      insertLeaf alloc unique id leaf key value overwrite s := by
  simp [insertRec, here]

theorem insertRec_absorbed (here : s.nodes id = .internal node)
    (below : insertRec alloc unique rounds (node.childAt (node.childIndexFor key)) key value
      overwrite s = some ((none, inserted), s')) :
    insertRec alloc unique (rounds + 1) id key value overwrite s =
      some ((none, inserted), s') := by
  simp [insertRec, here, below]

theorem insertRec_split (here : s.nodes id = .internal node)
    (below : insertRec alloc unique rounds (node.childAt (node.childIndexFor key)) key value
      overwrite s = some ((some split, inserted), s'))
    (above : insertSplit alloc id node (node.childIndexFor key) split s' = some (up, s'')) :
    insertRec alloc unique (rounds + 1) id key value overwrite s =
      some ((up, inserted), s'') := by
  simp [insertRec, here, below, above]

end Equations

theorem tieFree_internal {nodes : PageId → Node} {rounds : Nat} {id : PageId} {node : InternalNode}
    (here : nodes id = .internal node) (free : tieFree nodes key (rounds + 1) id = true) :
    tieFree nodes key rounds (node.childAt (node.childIndexFor key)) = true ∧
      (node.isFull = true →
        fullPath nodes key rounds (node.childAt (node.childIndexFor key)) = true →
        node.childIndexFor key < node.count →
        (nodes (node.childAt (node.childIndexFor key))).middle ≠
          node.keyAt (node.childIndexFor key)) := by
  simp only [tieFree, here, Bool.and_eq_true, Bool.not_eq_true', Bool.and_eq_false_iff] at free
  refine ⟨free.1, fun full path inside same => ?_⟩
  simp [full, path, inside, same] at free

theorem childAt_around (keys : List Key) (kids : List (Tree h)) (kid : Tree h) (keys' : List Key)
    (kids' : List (Tree h)) : (around keys kids kid keys' kids').node.childAt kids.length = kid.id := by
  change ((kids ++ [kid] ++ kids').map Tree.id).getD kids.length kNullPage = kid.id
  rw [List.getD_eq_getElem?_getD, List.append_assoc, List.map_append,
    List.getElem?_append_right (List.length_map _).le, List.length_map, Nat.sub_self]
  rfl

/-- The child that a search of the separators comes to, and what lies on both sides of it. -/
theorem Row.child {row : Row (Tree h)} (whole : row.kids.length = row.keys.length + 1)
    {i : Nat} {keys keys' : List Key} (cut : row.keys = keys ++ keys') (length : keys.length = i) :
    ∃ kids kid kids', row = around keys kids kid keys' kids' ∧ kids.length = keys.length ∧
      kids'.length = keys'.length ∧ row.node.childAt i = kid.id := by
  obtain ⟨rowKeys, rowKids⟩ := row
  obtain rfl : rowKeys = keys ++ keys' := cut
  change rowKids.length = (keys ++ keys').length + 1 at whole
  rw [List.length_append] at whole
  obtain ⟨kids, kid, kids', rfl, place⟩ :=
    exists_place (by omega : keys.length < rowKids.length)
  have same : (⟨keys ++ keys', kids ++ kid :: kids'⟩ : Row (Tree h)) =
      around keys kids kid keys' kids' := by
    simp [Row.between]
  refine ⟨kids, kid, kids', same, place, ?_, ?_⟩
  · rw [List.length_append, List.length_cons] at whole
    omega
  · rw [same, ← length, ← place]
    exact childAt_around ..

theorem Row.sortedKeys {row : Row (Tree h)} (inOrder : InOrder unique row.items)
    (whole : row.kids.length = row.keys.length + 1) : row.keys.Pairwise (· ≤ ·) :=
  inOrder.separators (by rw [List.length_map, whole])

section Step

variable {s s' : Store} {id : PageId} {keys keys' : List Key} {kids kids' : List (Tree h)}
  {kid : Tree h} {krow : Row (Tree h)} {rounds : Nat} {inserted : Bool} {split : Option Split}

/-- A separator that a child of a full node hands up is smaller than the one behind the child. -/
theorem Grown.strict {sep : Key} {new : PageId}
    (grown : Grown unique overwrite key value rounds s kid (some ⟨sep, new⟩) inserted s' krow)
    (taken : Taken unique overwrite key value s (around keys kids kid keys' kids') inserted s'
      (krow.between keys kids keys' kids'))
    (inOrder : InOrder unique (around keys kids kid keys' kids').items)
    (left : kids.length = keys.length) (right : kids'.length = keys'.length)
    (standing : Standing s [kid]) (full : (around keys kids kid keys' kids').node.isFull = true)
    (place : (around keys kids kid keys' kids').node.childIndexFor key = keys.length)
    (child : (around keys kids kid keys' kids').node.childAt keys.length = kid.id)
    (here : s.nodes id = .internal (around keys kids kid keys' kids').node)
    (free : unique = true ∨ tieFree s.nodes key (rounds + 1) id = true) :
    ∀ k ∈ keys', sep < k := by
  have pieces := grown.pieces
  cases pieces with
  | two l r sep sameId =>
    have inside : r ∈ [l, r] := List.mem_cons_of_mem _ List.mem_cons_self
    have bound := fun k member => @le_of_between unique h keys keys' kids kids' l r sep k member left
      right (taken.ordered inOrder) (grown.sound r inside) (grown.halves (Option.some_ne_none _) r inside)
    rcases free with known | free
    · exact fun k member => (bound k member).2 known
    · obtain ⟨middle, path⟩ := grown.middle sep List.mem_cons_self
      have apart := (tieFree_internal here free).2 full
      rw [place, child] at apart
      have page : s.nodes kid.id = kid.page :=
        (standing.stored kid List.mem_cons_self).here
      rw [page, ← middle] at apart
      cases keys' with
      | nil => exact fun k never => absurd never List.not_mem_nil
      | cons first rest =>
        have next : (around keys kids kid (first :: rest) kids').node.keyAt keys.length = first := by
          change (keys ++ [] ++ first :: rest).getD keys.length 0 = first
          rw [List.append_nil, List.getD_eq_getElem?_getD,
            List.getElem?_append_right (Nat.le_refl _), Nat.sub_self]
          rfl
        have inside : keys.length < (around keys kids kid (first :: rest) kids').node.count := by
          simp [InternalNode.count, Row.node, Row.between]
        have different : sep ≠ first := next ▸ apart path inside
        have less : sep < first :=
          Std.lt_of_le_of_ne (bound first List.mem_cons_self).1 different
        have sorted : (keys ++ [] ++ first :: rest).Pairwise (· ≤ ·) := by
          apply Row.sortedKeys inOrder
          simp only [Row.between, List.length_append, left, right, List.length_cons,
            List.length_nil]
          omega
        intro k member
        rcases List.mem_cons.mp member with rfl | later
        · exact less
        · have tail := (List.pairwise_append.mp sorted).2.1
          exact Std.lt_of_lt_of_le less ((List.pairwise_cons.mp tail).1 k later)

theorem node_two (sep : Key) (l r : Tree h) (left : kids.length = keys.length)
    (same : l.id = kid.id) :
    ((⟨[sep], [l, r]⟩ : Row (Tree h)).between keys kids keys' kids').node =
      (around keys kids kid keys' kids').node.insertChildAt keys.length sep r.id := by
  have size : (kids.map Tree.id ++ [kid.id]).length = keys.length + 1 := by
    rw [List.length_append, List.length_map, left]
    rfl
  simp only [Row.node, Row.between, InternalNode.insertChildAt, List.append_nil, List.map_append,
    List.map_cons, List.append_assoc, List.cons_append, List.nil_append, same]
  rw [List.take_left, List.drop_left,
    List.append_cons (kids.map Tree.id) kid.id (kids'.map Tree.id), List.take_left' size,
    List.drop_left' size, List.append_assoc]
  rfl

/-- The two parts of a row around one of its separators. -/
def Row.upTo (row : Row (Tree h)) (n : Nat) : Row (Tree h) :=
  ⟨row.keys.take n, row.kids.take (n + 1)⟩

def Row.after (row : Row (Tree h)) (n : Nat) : Row (Tree h) :=
  ⟨row.keys.drop (n + 1), row.kids.drop (n + 1)⟩

theorem Row.node_upTo (row : Row (Tree h)) (n : Nat) : (row.upTo n).node = row.node.setCount n := by
  simp only [node, upTo, InternalNode.setCount, List.map_take]

theorem Row.node_after (row : Row (Tree h)) (n : Nat) :
    (row.after n).node = ⟨row.node.keys.drop (n + 1), row.node.children.drop (n + 1)⟩ := by
  simp only [node, after, List.map_drop]

theorem insertRec_around (standing : Standing s [(around keys kids kid keys' kids').tree id])
    (sound : ((around keys kids kid keys' kids').tree id).Sound)
    (inOrder : InOrder unique (around keys kids kid keys' kids').items)
    (free : unique = true ∨ tieFree s.nodes key (rounds + 1) id = true)
    (left : kids.length = keys.length) (right : kids'.length = keys'.length)
    (small : ∀ k ∈ keys, k ≤ key) (large : ∀ k ∈ keys', key < k) (only : Standing s [kid])
    (ran : insertRec alloc unique rounds kid.id key value overwrite s =
      some ((split, inserted), s'))
    (grown : Grown unique overwrite key value rounds s kid split inserted s' krow) :
    ∃ up s'' row,
      insertRec alloc unique (rounds + 1) id key value overwrite s = some ((up, inserted), s'') ∧
      Grown unique overwrite key value (rounds + 1) s ((around keys kids kid keys' kids').tree id)
        up inserted s'' row := by
  obtain ⟨below, -, -, here⟩ := standing.below
  obtain ⟨fits, whole, each⟩ := sound
  have taken := grown.taken left right small large below inOrder each
  have place : (around keys kids kid keys' kids').node.childIndexFor key = keys.length :=
    childIndexFor_eq (congrArg (· ++ keys') (List.append_nil keys)) small large
  have child : (around keys kids kid keys' kids').node.childAt keys.length = kid.id :=
    left ▸ childAt_around ..
  rw [← child, ← place] at ran
  have pieces := grown.pieces
  cases pieces with
  | one piece sameId =>
    have same : ((⟨[], [piece]⟩ : Row (Tree h)).between keys kids keys' kids').node =
        (around keys kids kid keys' kids').node := by
      simp [Row.node, Row.between, sameId]
    refine ⟨none, s', _, insertRec_absorbed here ran, taken.one (Nat.le_refl _) fits ?_⟩
    exact taken.became.under standing same
  | two l r sep sameId =>
    have grownNode := @node_two h keys keys' kids kids' kid sep l r left sameId
    by_cases room : (around keys kids kid keys' kids').node.isFull = false
    · have up : insertSplit alloc id (around keys kids kid keys' kids').node
          ((around keys kids kid keys' kids').node.childIndexFor key) ⟨sep, r.id⟩ s' =
          some (none, s'.write id (.internal
            ((⟨[sep], [l, r]⟩ : Row (Tree h)).between keys kids keys' kids').node)) := by
        rw [place, grownNode]
        exact insertSplit_room alloc room
      refine ⟨none, _, _, insertRec_split here ran up, taken.one ?_ ?_ ?_⟩
      · simp [Row.between]
      · have short : (keys ++ [] ++ keys').length < kInternalMaxKeys :=
          Nat.not_le.mp (of_decide_eq_false room)
        simp only [Row.between, List.length_append, List.length_nil, List.length_cons] at short ⊢
        omega
      · exact taken.became.inner standing
    · have full : (around keys kids kid keys' kids').node.isFull = true := by
        rwa [Bool.not_eq_false] at room
      have size : (keys ++ [] ++ keys').length = kInternalMaxKeys :=
        Nat.le_antisymm fits (of_decide_eq_true full)
      have strict := grown.strict taken inOrder left right only full place child here free
      have whole' := taken.whole
      have sorted := Row.sortedKeys (taken.ordered inOrder) whole'
      have least : ∀ k ∈ keys, k ≤ sep := fun k member =>
        (List.pairwise_append.mp (List.pairwise_append.mp sorted).1).2.2 k member sep
          List.mem_cons_self
      obtain ⟨n, bounds, median, up⟩ := @insertSplit_full s' id keys.length
        (around keys kids kid keys' kids').node ⟨sep, r.id⟩ keys keys' alloc
        (congrArg (· ++ keys') (List.append_nil keys)) size
        ((List.length_map _).trans (whole.trans (congrArg (· + 1) size))) least strict
      simp only [← grownNode, ← Row.node_upTo, ← Row.node_after] at up median
      generalize row' : (⟨[sep], [l, r]⟩ : Row (Tree h)).between keys kids keys' kids' = row at *
      have length : row.keys.length = kInternalMaxKeys + 1 := by
        rw [← row', ← size]
        simp [Row.between]
        omega
      have bound : kInternalMaxKeys = kInternalMinKeys + kInternalMinKeys + 1 := rfl
      have cut : row.keys = (row.upTo n).keys ++ row.node.keyAt n :: (row.after n).keys := by
        have inside : n < row.keys.length := by omega
        rw [InternalNode.keyAt, List.getD_eq_getElem?_getD]
        change row.keys = row.keys.take n ++ (row.keys[n]?).getD 0 :: row.keys.drop (n + 1)
        rw [List.getElem?_eq_getElem inside, Option.getD_some, List.getElem_cons_drop,
          List.take_append_drop]
      rw [median] at cut
      have leftKeys : (row.upTo n).keys.length = n := List.length_take_of_le (by omega)
      have rightKeys : (row.after n).keys.length = kInternalMaxKeys - n := by
        rw [Row.after, List.length_drop]
        omega
      refine ⟨_, _, ⟨[_], [(row.upTo n).tree id, (row.after n).tree (s'.handedOut alloc)]⟩,
        insertRec_split here ran (place ▸ up), taken.two cut ?_ ?_ ?_ ?_ ?_ rfl ?_⟩
      · exact (List.take_append_drop _ _).symm
      · rw [leftKeys]
        exact List.length_take_of_le (by omega)
      · omega
      · omega
      · apply Became.split alloc _ standing
        rw [Row.upTo, Row.after, List.take_append_drop]
        exact taken.became
      · rw [fullPath_internal here, place, child, full]
        exact (grown.middle sep List.mem_cons_self).2

end Step

variable (alloc)

/-- An insert into a tree in order. Induction on the height: a child's pieces stand where the child
stood. -/
theorem insertRec_spec {rounds : Nat} {s : Store} (t : Tree h) (deep : h < rounds)
    (standing : Standing s [t]) (sound : t.Sound) (inOrder : InOrder unique t.items)
    (free : unique = true ∨ tieFree s.nodes key rounds t.id = true) :
    ∃ split inserted s' row,
      insertRec alloc unique rounds t.id key value overwrite s = some ((split, inserted), s') ∧
      Grown unique overwrite key value rounds s t split inserted s' row := by
  induction h generalizing rounds with
  | zero =>
    obtain ⟨id, leaf⟩ : LeafTree := t
    obtain ⟨rounds, rfl⟩ := Nat.exists_eq_succ_of_ne_zero (Nat.ne_of_gt deep)
    obtain ⟨split, inserted, s', row, ran, grown⟩ :=
      @insertLeaf_spec alloc unique overwrite key value s id leaf rounds standing inOrder sound
    refine ⟨split, inserted, s', row, ?_, grown⟩
    exact (insertRec_leaf (standing.stored _ (List.mem_singleton.mpr rfl))).trans ran
  | succ h ih =>
    obtain ⟨row, id⟩ : InnerTree (Tree h) := t
    obtain ⟨rounds, rfl⟩ := Nat.exists_eq_succ_of_ne_zero (Nat.ne_of_gt (Nat.zero_lt_of_lt deep))
    change Standing s [row.tree id] at standing
    change (row.tree id).Sound at sound
    change InOrder unique row.items at inOrder
    have whole : row.kids.length = row.keys.length + 1 := sound.2.1
    obtain ⟨keys, keys', cut, length, small, large⟩ :=
      searchList_le (Row.sortedKeys inOrder whole) key
    obtain ⟨kids, kid, kids', rfl, left, right, child⟩ := Row.child whole cut length
    have here := standing.below.2.2.2
    have only : Standing s [kid] := standing.below.1.only
    have kidEach := sound.2.2 kid (List.mem_append_left _ (List.mem_append_right _ List.mem_cons_self))
    have kidFree : unique = true ∨ tieFree s.nodes key rounds kid.id = true := by
      rcases free with known | free
      · exact .inl known
      · rw [← child]
        exact .inr (tieFree_internal here free).1
    have kidOrder : InOrder unique kid.items := by
      rw [Row.items_between left rfl, Row.items_one] at inOrder
      exact (inOrder_append.mp (inOrder_append.mp inOrder).1).2.1
    obtain ⟨split, inserted, s', krow, ran, grown⟩ :=
      ih kid (Nat.lt_of_succ_lt_succ deep) only kidEach.2 kidOrder kidFree
    obtain ⟨up, s'', row, ran', grown'⟩ := insertRec_around standing sound inOrder free left right
      small large only ran grown
    exact ⟨up, inserted, s'', row, ran', grown'⟩

end Labdb.BTree
