import Labdb.BTree.Holds
import Labdb.BTree.Siblings

/-! A child that is left with too little, and what its parent makes of it and a neighbour. -/

namespace Labdb.BTree

open Labdb.Data Labdb.Data.Item Labdb.Query Labdb.Storage

variable {h : Nat}

section Fix

variable {s s' : Store} {keys keys' : List Key} {kids kids' : List (Tree h)} {l r l' r' t : Tree h}
  {sep sep' : Key} {ci : Nat}

/-- The children of a node around two neighbours. -/
abbrev beside (keys : List Key) (kids : List (Tree h)) (l : Tree h) (sep : Key) (r : Tree h)
    (keys' : List Key) (kids' : List (Tree h)) : Row (Tree h) :=
  (⟨[sep], [l, r]⟩ : Row (Tree h)).between keys kids keys' kids'

theorem around_append : around (keys ++ [sep]) (kids ++ [l]) r keys' kids' =
    beside keys kids l sep r keys' kids' := by
  simp [Row.between]

private theorem around_cons : around keys kids l (sep :: keys') (r :: kids') =
    beside keys kids l sep r keys' kids' := by
  simp [Row.between]

section Node

variable (left : kids.length = keys.length)

include left

theorem childAt_left : (beside keys kids l sep r keys' kids').node.childAt keys.length = l.id := by
  rw [← around_cons, ← left]
  exact childAt_around ..

private theorem childAt_right :
    (beside keys kids l sep r keys' kids').node.childAt (keys.length + 1) = r.id := by
  have size : (kids ++ [l]).length = keys.length + 1 := by
    rw [List.length_append, left]
    rfl
  rw [← around_append, ← size]
  exact childAt_around ..

omit left in
theorem keyAt_beside : (beside keys kids l sep r keys' kids').node.keyAt keys.length = sep := by
  change (keys ++ [sep] ++ keys').getD keys.length 0 = sep
  rw [List.getD_eq_getElem?_getD, List.append_assoc, List.getElem?_append_right (Nat.le_refl _),
    Nat.sub_self]
  rfl

omit left in
private theorem setKeyAt_beside (same : l'.id = l.id) (same' : r'.id = r.id) :
    (beside keys kids l sep r keys' kids').node.setKeyAt keys.length sep' =
      (beside keys kids l' sep' r' keys' kids').node := by
  simp [InternalNode.setKeyAt, Row.node, Row.between, same, same']

private theorem eraseKeyChildAt_beside (same : t.id = l.id) :
    (beside keys kids l sep r keys' kids').node.eraseKeyChildAt keys.length =
      (around keys kids t keys' kids').node := by
  simp [InternalNode.eraseKeyChildAt, Row.node, Row.between, same, ← left, List.take_append,
    List.drop_append]
  rw [List.take_of_length_le (by simp), List.drop_of_length_le (by simp), List.nil_append]

end Node

section Equations

variable {parent : InternalNode} {front back merged : Node}
  (first : parent.childAt keys.length = l.id) (second : parent.childAt (keys.length + 1) = r.id)
  (between : parent.keyAt keys.length = sep) (here : s.nodes l.id = l.page)
  (here' : s.nodes r.id = r.page)

include first second between here here'

private theorem fix_borrowLeft (spare : l.page.spare = true)
    (gave : borrowLeft l.page r.page sep = (front, back, sep')) :
    fixChildUnderflow parent (keys.length + 1) s =
      some (parent.setKeyAt keys.length sep', (s.write l.id front).write r.id back) := by
  simp [fixChildUnderflow, first, second, between, here, here', spare, gave]

private theorem fix_borrowRight
    (none : ¬ (0 < keys.length ∧ (s.nodes (parent.childAt (keys.length - 1))).spare = true))
    (inside : keys.length < parent.count) (spare : r.page.spare = true)
    (gave : borrowRight l.page r.page sep = (front, back, sep')) :
    fixChildUnderflow parent keys.length s =
      some (parent.setKeyAt keys.length sep', (s.write l.id front).write r.id back) := by
  simp [fixChildUnderflow, first, second, between, here, here', spare, gave, none, inside]

private theorem fix_mergeLeft (none : l.page.spare = false)
    (none' : ¬ (keys.length + 1 < parent.count ∧
      (s.nodes (parent.childAt (keys.length + 1 + 1))).spare = true))
    (gave : mergeNodes l.page r.page sep = merged) :
    fixChildUnderflow parent (keys.length + 1) s =
      some (parent.eraseKeyChildAt keys.length, (s.write l.id merged).free r.id) := by
  simp [fixChildUnderflow, first, second, between, here, here', none, gave, none']

private theorem fix_mergeRight (only : keys = []) (none : r.page.spare = false)
    (gave : mergeNodes l.page r.page sep = merged) :
    fixChildUnderflow parent keys.length s =
      some (parent.eraseKeyChildAt keys.length, (s.write l.id merged).free r.id) := by
  subst only
  simp only [List.length_nil] at first second between ⊢
  simp [fixChildUnderflow, first, second, between, here, here', none, gave]

end Equations

end Fix

/-- What a parent and the trees below it have become once a child is mended. -/
structure Mended (s : Store) (row : Row (Tree h)) (s' : Store) (row' : Row (Tree h)) : Prop where
  became : Became s row.kids s' row'.kids
  whole : row'.kids.length = row'.keys.length + 1
  each : ∀ kid ∈ row'.kids, minCount h ≤ kid.count ∧ kid.Sound
  keeps : ∀ front back, InOrder true (front ++ row.items ++ back) →
    InOrder true (front ++ row'.items ++ back)
  entries : entriesOf row'.items = entriesOf row.items
  fewer : row.keys.length ≤ row'.keys.length + 1
  fits : row'.keys.length ≤ row.keys.length

section Mend

variable {s s' : Store} {keys keys' : List Key} {kids kids' : List (Tree h)} {kid l r : Tree h}
  {sep : Key} {row : Row (Tree h)}

theorem Joined.mended (joined : Joined s l sep r s' row) (short : row.keys.length ≤ 1)
    (standing : Standing s (beside keys kids l sep r keys' kids').kids)
    (left : kids.length = keys.length) (right : kids'.length = keys'.length)
    (others : ∀ kid ∈ kids ++ kids', minCount h ≤ kid.count ∧ kid.Sound) :
    Mended s (beside keys kids l sep r keys' kids') s' (row.between keys kids keys' kids') := by
  have items := @Row.items_between h keys keys' kids kids' ⟨[sep], [l, r]⟩ left rfl
  have items' := @Row.items_between h keys keys' kids kids' row left joined.whole
  rw [Row.items_two] at items
  constructor
  · exact joined.became.between standing
  · simp only [Row.between, List.length_append, left, right, joined.whole]
    omega
  · intro kid member
    simp only [Row.between, List.mem_append] at member others
    rcases member with (inLeft | new) | inRight
    · exact others kid (.inl inLeft)
    · exact joined.each kid new
    · exact others kid (.inr inRight)
  · intro before after inOrder
    have moved := joined.keeps (before ++ front keys (kids.map Tree.items))
      (back keys' (kids'.map Tree.items) ++ after)
    rw [items] at inOrder
    rw [items']
    simp only [List.append_assoc] at moved inOrder ⊢
    exact moved inOrder
  · rw [items, items']
    simp only [entriesOf_append, entriesOf_sep, joined.entries, List.append_assoc]
  · simp only [Row.between, List.length_append, List.length_singleton]
    omega
  · simp only [Row.between, List.length_append, List.length_singleton]
    omega

/-- Two neighbours of a row that stands. -/
theorem Standing.pair (standing : Standing s (beside keys kids l sep r keys' kids').kids) :
    Standing s [l, r] := by
  obtain ⟨stored, nodup, owned⟩ := standing
  simp only [Row.between, idsOf_append, List.mem_append] at stored nodup owned
  constructor
  · exact fun t member => stored t (.inl (.inr member))
  · exact (List.nodup_append.mp (List.nodup_append.mp nodup).1).2.1
  · exact fun other member => owned other (.inl (.inr member))

variable (standing : Standing s (beside keys kids l sep r keys' kids').kids)
  (left : kids.length = keys.length) (right : kids'.length = keys'.length)
  (others : ∀ kid ∈ kids ++ kids', minCount h ≤ kid.count ∧ kid.Sound)

include standing left right others

/-- The neighbours are merged: neither has one to spare. -/
theorem mended_merge (leftSound : l.Sound) (rightSound : r.Sound)
    (little : l.count + r.count + 1 = minCount h + minCount h) :
    ∃ merged, mergeNodes l.page r.page sep = merged ∧ ∃ row' : Row (Tree h),
      (beside keys kids l sep r keys' kids').node.eraseKeyChildAt keys.length = row'.node ∧
      Mended s (beside keys kids l sep r keys' kids') ((s.write l.id merged).free r.id) row' := by
  obtain ⟨t, merged, same, joined⟩ :=
    @mergeNodes_spec h s l r sep standing.pair leftSound rightSound little
  refine ⟨t.page, merged, _, eraseKeyChildAt_beside left same, ?_⟩
  exact joined.mended (Nat.zero_le _) standing left right others

private theorem mended_borrowLeft (leftSound : l.Sound) (rightSound : r.Sound)
    (spare : minCount h < l.count) (little : r.count + 1 = minCount h) :
    ∃ front back sep', borrowLeft l.page r.page sep = (front, back, sep') ∧ ∃ row' : Row (Tree h),
      (beside keys kids l sep r keys' kids').node.setKeyAt keys.length sep' = row'.node ∧
      Mended s (beside keys kids l sep r keys' kids') ((s.write l.id front).write r.id back)
        row' := by
  obtain ⟨l', r', sep', gave, same, same', joined⟩ :=
    @borrowLeft_spec h s l r sep standing.pair spare leftSound rightSound little
  refine ⟨l'.page, r'.page, sep', gave, _, setKeyAt_beside same same', ?_⟩
  exact joined.mended (Nat.le_refl 1) standing left right others

private theorem mended_borrowRight (leftSound : l.Sound) (rightSound : r.Sound)
    (spare : minCount h < r.count) (little : l.count + 1 = minCount h) :
    ∃ front back sep', borrowRight l.page r.page sep = (front, back, sep') ∧ ∃ row' : Row (Tree h),
      (beside keys kids l sep r keys' kids').node.setKeyAt keys.length sep' = row'.node ∧
      Mended s (beside keys kids l sep r keys' kids') ((s.write l.id front).write r.id back)
        row' := by
  obtain ⟨l', r', sep', gave, same, same', joined⟩ :=
    @borrowRight_spec h s l r sep standing.pair spare leftSound rightSound little
  refine ⟨l'.page, r'.page, sep', gave, _, setKeyAt_beside same same', ?_⟩
  exact joined.mended (Nat.le_refl 1) standing left right others

omit standing left right others

/-- The neighbour on the right mends a child, or is merged into it. -/
theorem fix_toRight (standing : Standing s (beside keys kids l sep r keys' kids').kids)
    (left : kids.length = keys.length) (right : kids'.length = keys'.length)
    (others : ∀ kid ∈ kids ++ kids', minCount h ≤ kid.count ∧ kid.Sound)
    (leftSound : l.Sound) (rightSound : minCount h ≤ r.count ∧ r.Sound)
    (little : l.count + 1 = minCount h)
    (none : ¬ (0 < keys.length ∧ (s.nodes ((beside keys kids l sep r keys' kids').node.childAt
      (keys.length - 1))).spare = true)) (able : minCount h < r.count ∨ keys = []) :
    ∃ s' row', fixChildUnderflow (beside keys kids l sep r keys' kids').node keys.length s =
      some (row'.node, s') ∧ Mended s (beside keys kids l sep r keys' kids') s' row' := by
  have here := (standing.pair.stored l List.mem_cons_self).here
  have here' := (standing.pair.stored r (List.mem_cons_of_mem _ List.mem_cons_self)).here
  have inside : keys.length < (beside keys kids l sep r keys' kids').node.count := by
    simp only [InternalNode.count, Row.node, Row.between, List.length_append, List.length_singleton]
    omega
  by_cases spare : minCount h < r.count
  · obtain ⟨front, back, sep', gave, row', node, mended⟩ :=
      mended_borrowRight standing left right others leftSound rightSound.2 spare little
    refine ⟨_, row', ?_, mended⟩
    rw [← node]
    exact fix_borrowRight (childAt_left left) (childAt_right left) keyAt_beside here here' none
      inside (r.spare_page.trans (decide_eq_true spare)) gave
  · have only := able.resolve_left spare
    obtain ⟨merged, gave, row', node, mended⟩ :=
      mended_merge standing left right others leftSound rightSound.2 (by omega)
    refine ⟨_, row', ?_, mended⟩
    rw [← node]
    exact fix_mergeRight (childAt_left left) (childAt_right left) keyAt_beside here here' only
      (r.spare_page.trans (decide_eq_false spare)) gave

/-- The neighbour on the left takes a child in: neither neighbour has one to spare. -/
theorem fix_toLeft (standing : Standing s (beside keys kids l sep r keys' kids').kids)
    (left : kids.length = keys.length) (right : kids'.length = keys'.length)
    (others : ∀ kid ∈ kids ++ kids', minCount h ≤ kid.count ∧ kid.Sound)
    (leftSound : minCount h ≤ l.count ∧ l.Sound) (rightSound : r.Sound)
    (little : r.count + 1 = minCount h)
    (able : minCount h < l.count ∨ ¬ (keys.length + 1 <
        (beside keys kids l sep r keys' kids').node.count ∧
      (s.nodes ((beside keys kids l sep r keys' kids').node.childAt (keys.length + 1 + 1))).spare =
        true)) :
    ∃ s' row', fixChildUnderflow (beside keys kids l sep r keys' kids').node (keys.length + 1) s =
      some (row'.node, s') ∧ Mended s (beside keys kids l sep r keys' kids') s' row' := by
  have here := (standing.pair.stored l List.mem_cons_self).here
  have here' := (standing.pair.stored r (List.mem_cons_of_mem _ List.mem_cons_self)).here
  by_cases spare : minCount h < l.count
  · obtain ⟨front, back, sep', gave, row', node, mended⟩ :=
      mended_borrowLeft standing left right others leftSound.2 rightSound spare little
    refine ⟨_, row', ?_, mended⟩
    rw [← node]
    exact fix_borrowLeft (childAt_left left) (childAt_right left) keyAt_beside here here'
      (l.spare_page.trans (decide_eq_true spare)) gave
  · obtain ⟨merged, gave, row', node, mended⟩ :=
      mended_merge standing left right others leftSound.2 rightSound (by omega)
    refine ⟨_, row', ?_, mended⟩
    rw [← node]
    exact fix_mergeLeft (childAt_left left) (childAt_right left) keyAt_beside here here'
      (l.spare_page.trans (decide_eq_false spare)) (able.resolve_left spare) gave

/-- A child that is left with one too few, whichever neighbours it has: first the left one is asked,
then the right one, and then it is merged. -/
theorem fixChildUnderflow_spec (standing : Standing s (around keys kids kid keys' kids').kids)
    (left : kids.length = keys.length) (right : kids'.length = keys'.length)
    (others : ∀ other ∈ kids ++ kids', minCount h ≤ other.count ∧ other.Sound)
    (sound : kid.Sound) (little : kid.count + 1 = minCount h) (some_ : 0 < (keys ++ keys').length) :
    ∃ s' row', fixChildUnderflow (around keys kids kid keys' kids').node keys.length s =
      some (row'.node, s') ∧ Mended s (around keys kids kid keys' kids') s' row' := by
  have pageOf : ∀ t ∈ kids ++ kids', s.nodes t.id = t.page := fun t member => by
    apply Tree.Stored.here
    apply standing.stored
    simp only [Row.between, List.mem_append] at member ⊢
    tauto
  by_cases first : 0 < keys.length
  · obtain ⟨keys, sep, rfl, -⟩ := exists_last first
    obtain ⟨kids, l, rfl, -⟩ := exists_last (left ▸ first)
    simp only [List.length_append, List.length_singleton, Nat.add_right_cancel_iff] at left ⊢
    have leftKid := others l (List.mem_append_left _ (List.mem_append_right _ List.mem_cons_self))
    have rest : ∀ other ∈ kids ++ kids', minCount h ≤ other.count ∧ other.Sound :=
      fun other member => others other (by simp only [List.mem_append] at member ⊢; tauto)
    by_cases able : minCount h < l.count ∨ ¬ (keys.length + 1 <
        (beside keys kids l sep kid keys' kids').node.count ∧
      (s.nodes ((beside keys kids l sep kid keys' kids').node.childAt (keys.length + 1 + 1))).spare =
        true)
    · rw [around_append] at standing ⊢
      exact fix_toLeft standing left right rest leftKid sound little able
    · obtain ⟨poor, inside, spare⟩ : ¬ minCount h < l.count ∧ _ ∧ _ := by
        rw [not_or, not_not] at able
        exact able
      simp only [InternalNode.count, Row.node, Row.between, List.length_append,
        List.length_singleton] at inside
      obtain ⟨sep', keys', rfl⟩ := List.exists_cons_of_length_pos (by omega : 0 < keys'.length)
      obtain ⟨r, kids', rfl⟩ := List.exists_cons_of_length_pos
        (right.symm ▸ Nat.succ_pos _ : 0 < kids'.length)
      have size : (kids ++ [l]).length = (keys ++ [sep]).length := by
        simp only [List.length_append, List.length_singleton, left]
      have place : (keys ++ [sep]).length = keys.length + 1 := List.length_append
      have known : r ∈ kids ++ [l] ++ r :: kids' := List.mem_append_right _ List.mem_cons_self
      have known' : l ∈ kids ++ [l] ++ r :: kids' :=
        List.mem_append_left _ (List.mem_append_right _ List.mem_cons_self)
      rw [← around_append, around_cons, ← place, childAt_right size, pageOf r known,
        r.spare_page] at spare
      rw [around_cons] at standing ⊢
      rw [← place]
      apply fix_toRight standing size (Nat.succ.inj right) ?_ sound (others r known) little ?_
        (.inl (of_decide_eq_true spare))
      · intro other member
        apply others other
        simp only [List.mem_append, List.mem_cons] at member ⊢
        tauto
      · rw [place, Nat.add_sub_cancel, ← around_cons, around_append, childAt_left left,
          pageOf l known', l.spare_page]
        simp [poor]
  · obtain rfl : keys = [] := List.eq_nil_of_length_eq_zero (by omega)
    obtain rfl : kids = [] := List.eq_nil_of_length_eq_zero left
    obtain ⟨sep, keys', rfl⟩ := List.exists_cons_of_length_pos some_
    obtain ⟨r, kids', rfl⟩ := List.exists_cons_of_length_pos
      (right.symm ▸ Nat.succ_pos _ : 0 < kids'.length)
    rw [around_cons] at standing ⊢
    apply fix_toRight standing rfl (Nat.succ.inj right) ?_ sound (others r List.mem_cons_self) little
      ?_ (.inr rfl)
    · exact fun other member => others other (List.mem_cons_of_mem _ member)
    · exact fun never => first never.1

end Mend

end Labdb.BTree
