import Labdb.BTree.Ties
import Labdb.BTree.Valid

/-! Inserts into a tree with duplicate keys, wherever its separators have come to lie: the chain of
its leaves takes in every entry once. -/

namespace Labdb.BTree

open Labdb.Data Labdb.Data.Item Labdb.Query Labdb.Storage

/-- The page of the first leaf. -/
def Tree.firstId : {h : Nat} → Tree h → Option PageId
  | 0, t => some (LeafTree.id t)
  | _ + 1, (t : InnerTree (Tree _)) => t.kids.head?.bind Tree.firstId

variable {h : Nat}

/-- A leaf that has taken an entry in stands there alone or with a new leaf behind it. -/
inductive Receives (key : Key) (value : Value) : LeafTree → List LeafTree → Prop where
  | whole {id : PageId} {page page' : LeafNode} : page'.next = page.next →
    page'.entries.Perm ((key, value) :: page.entries) →
    Receives key value ⟨id, page⟩ [⟨id, page'⟩]
  | cut {id new : PageId} {page front back : LeafNode} : front.next = new →
    back.next = page.next → (front.entries ++ back.entries).Perm ((key, value) :: page.entries) →
    Receives key value ⟨id, page⟩ [⟨id, front⟩, ⟨new, back⟩]

section Chain

variable {key : Key} {value : Value} {old : LeafTree} {new front back : List LeafTree}

/-- The chain runs through the new leaves as it ran through the old one. -/
theorem Receives.linked (receives : Receives key value old new) {exit : PageId}
    (linked : Linked (front ++ old :: back) exit) : Linked (front ++ new ++ back) exit := by
  rw [linked_append] at linked
  rw [List.append_assoc, linked_append]
  cases receives with
  | whole same _ => exact ⟨linked.1, same.trans linked.2.1, linked.2.2⟩
  | cut links same _ => exact ⟨linked.1, links, same.trans linked.2.1, linked.2.2⟩

theorem Receives.entries (receives : Receives key value old new) :
    (entriesIn new).Perm ((key, value) :: old.page.entries) := by
  cases receives with
  | whole _ same =>
    rw [entriesIn_cons]
    exact (List.append_nil _).symm ▸ same
  | cut _ _ same =>
    rw [entriesIn_cons, entriesIn_cons]
    exact (List.append_nil _).symm ▸ same

end Chain

section Filed

variable {s s' : Store} {key : Key} {value : Value} {trees trees' : List (Tree h)}

/-- Trees side by side once an entry has gone into one of their leaves. -/
structure Filed (key : Key) (value : Value) (s : Store) (trees : List (Tree h)) (s' : Store)
    (trees' : List (Tree h)) : Prop where
  housed : Housed s trees s' trees'
  fits : ∀ t ∈ trees', t.Fits
  first : trees'.head?.bind Tree.firstId = trees.head?.bind Tree.firstId
  leaf : ∃ old new rest, Receives key value old new ∧ (leavesOf trees).Perm (old :: rest) ∧
    (leavesOf trees').Perm (new ++ rest)

variable {row row' front back : Row (Tree h)} {id : PageId}

/-- How many separators and children a node has. -/
def Row.Whole (row : Row (Tree h)) : Prop :=
  row.keys.length ≤ kInternalMaxKeys ∧ row.kids.length = row.keys.length + 1

/-- With trees on both sides that stay. -/
theorem Filed.between {left right : List (Tree h)} (filed : Filed key value s trees s' trees')
    (standing : Standing s (left ++ trees ++ right)) (some_ : trees ≠ [] ∧ trees' ≠ [])
    (fits : ∀ t ∈ left ++ right, t.Fits) :
    Filed key value s (left ++ trees ++ right) s' (left ++ trees' ++ right) where
  housed := filed.housed.between standing
  fits t member := by
    simp only [List.mem_append] at member fits
    rcases member with (inLeft | new) | inRight
    · exact fits t (.inl inLeft)
    · exact filed.fits t new
    · exact fits t (.inr inRight)
  first := by
    cases left with
    | nil =>
      rw [List.nil_append, List.nil_append, List.head?_append_of_ne_nil _ some_.1,
        List.head?_append_of_ne_nil _ some_.2]
      exact filed.first
    | cons t rest => rfl
  leaf := by
    obtain ⟨old, new, rest, receives, was, is_⟩ := filed.leaf
    refine ⟨old, new, rest ++ leavesOf left ++ leavesOf right, receives, ?_, ?_⟩
    · rw [leavesOf_append, leavesOf_append]
      exact (List.perm_append_comm.append_right _).trans ((was.append_right _).append_right _)
    · rw [leavesOf_append, leavesOf_append, ← List.append_assoc, ← List.append_assoc]
      exact (List.perm_append_comm.append_right _).trans ((is_.append_right _).append_right _)

/-- The trees below a root, which holds on to them. -/
theorem Filed.above {s'' : Store} (filed : Filed key value s row.kids s' row'.kids)
    (housed : Housed s [row.tree id] s'' [row'.tree id]) (whole : row'.Whole) :
    Filed key value s [row.tree id] s'' [row'.tree id] where
  housed := housed
  fits t member := by
    obtain rfl := List.mem_singleton.mp member
    exact ⟨whole.1, whole.2, filed.fits⟩
  first := filed.first
  leaf := by
    rw [leavesOf_tree, leavesOf_tree]
    exact filed.leaf

/-- The trees below a root that is cut in two, in whatever order the parts hold them. -/
theorem Filed.split (alloc : Allocator) (filed : Filed key value s row.kids s' trees')
    (standing : Standing s [row.tree id]) (same : trees'.Perm (front.kids ++ back.kids))
    (head : front.kids.head? = trees'.head?) (whole : front.Whole) (whole' : back.Whole) :
    Filed key value s [row.tree id]
      (((s'.allocate alloc).write id (.internal front.node)).write (s'.handedOut alloc)
        (.internal back.node))
      [front.tree id, back.tree (s'.handedOut alloc)] where
  housed := (filed.housed.perm same).split alloc standing
  fits t member := by
    have each : ∀ kid ∈ front.kids ++ back.kids, kid.Fits := fun kid inside =>
      filed.fits kid (same.mem_iff.mpr inside)
    rcases List.mem_pair.mp member with rfl | rfl
    · exact ⟨whole.1, whole.2, fun kid inside => each kid (List.mem_append_left _ inside)⟩
    · exact ⟨whole'.1, whole'.2, fun kid inside => each kid (List.mem_append_right _ inside)⟩
  first := (congrArg (·.bind Tree.firstId) head).trans filed.first
  leaf := by
    obtain ⟨old, new, rest, receives, was, is_⟩ := filed.leaf
    refine ⟨old, new, rest, receives, leavesOf_tree ▸ was, ?_⟩
    rw [leavesOf_cons, leavesOf_tree, Row.leaves_tree, ← leavesOf_append]
    exact (same.symm.flatMap_right _).trans is_

end Filed

section Leaf

variable {alloc : Allocator} {overwrite : Bool} {s : Store} {id : PageId} {leaf : LeafNode}

private theorem insertAt_perm (leaf : LeafNode) (i : Nat) (key : Key) (value : Value) :
    (leaf.insertAt i key value).entries.Perm ((key, value) :: leaf.entries) := by
  have whole := List.take_append_drop i leaf.entries
  rw [LeafNode.insertAt]
  exact List.perm_middle.trans (by rw [whole])

/-- A leaf is cut in two around an entry that it takes in. -/
theorem filed_cut {front back : LeafNode} {key : Key} {value : Value}
    (standing : Standing s [Tree.ofLeaf id leaf]) (links : front.next = s.handedOut alloc)
    (same : back.next = leaf.next)
    (entries : (front.entries ++ back.entries).Perm ((key, value) :: leaf.entries))
    (fits : front.entries.length ≤ kLeafMaxEntries) (fits' : back.entries.length ≤ kLeafMaxEntries) :
    Filed key value s [Tree.ofLeaf id leaf]
      (((s.allocate alloc).write id (.leaf front)).write (s.handedOut alloc) (.leaf back))
      [Tree.ofLeaf id front, Tree.ofLeaf (s.handedOut alloc) back] where
  housed := .leaves alloc standing front back
  fits t member := by
    rcases List.mem_pair.mp member with rfl | rfl
    · exact fits
    · exact fits'
  first := rfl
  leaf := ⟨⟨id, leaf⟩, _, [], .cut links same entries, List.Perm.refl _, List.Perm.refl _⟩

/-- An insert into a leaf, whatever it holds. -/
theorem insertLeaf_filed (standing : Standing s [Tree.ofLeaf id leaf])
    (fits : leaf.entries.length ≤ kLeafMaxEntries) (key : Key) (value : Value) :
    ∃ split s' row, insertLeaf alloc false id leaf key value overwrite s =
        some ((split, true), s') ∧
      Pieces id row split ∧ Filed key value s [Tree.ofLeaf id leaf] s' row.kids := by
  have never : ¬ (false = true ∧ leaf.lowerBound key < leaf.count ∧
      leaf.keyAt (leaf.lowerBound key) = key) := fun absurd_ => Bool.false_ne_true absurd_.1
  have most : kLeafMaxEntries = 254 := rfl
  by_cases room : leaf.isFull = false
  · have short : leaf.entries.length < kLeafMaxEntries :=
      Nat.not_le.mp (of_decide_eq_false room)
    have grown := insertAt_perm leaf (leaf.at_ false key) key value
    refine ⟨none, _, ⟨[], [Tree.ofLeaf id (leaf.insertAt (leaf.at_ false key) key value)]⟩,
      @insertLeaf_room alloc false overwrite key value s id leaf never room, .one _ rfl, ?_⟩
    constructor
    · exact .leaf standing _
    · intro t member
      obtain rfl := List.mem_singleton.mp member
      exact grown.length_eq.trans_le short
    · rfl
    · exact ⟨⟨id, leaf⟩, [⟨id, leaf.insertAt (leaf.at_ false key) key value⟩], [],
        .whole rfl grown, List.Perm.refl _, List.Perm.refl _⟩
  · have full : leaf.isFull = true := by rwa [Bool.not_eq_false] at room
    have size : leaf.entries.length = 254 := Nat.le_antisymm fits (of_decide_eq_true full)
    have halves : (leaf.leftHalf (s.handedOut alloc)).entries ++ leaf.rightHalf.entries =
        leaf.entries := List.take_append_drop _ _
    have leftSize : (leaf.leftHalf (s.handedOut alloc)).entries.length = 127 := by
      change (leaf.entries.take (leaf.entries.length / 2)).length = 127
      rw [List.length_take, size]
      rfl
    have rightSize : leaf.rightHalf.entries.length = 127 := by
      change (leaf.entries.drop (leaf.entries.length / 2)).length = 127
      rw [List.length_drop, size]
    obtain ⟨front, back, ran, links, same, entries, fits, fits'⟩ : ∃ front back : LeafNode,
        insertLeaf alloc false id leaf key value overwrite s =
          some ((some ⟨back.keyAt 0, s.handedOut alloc⟩, true),
            ((s.allocate alloc).write id (.leaf front)).write (s.handedOut alloc) (.leaf back)) ∧
        front.next = s.handedOut alloc ∧ back.next = leaf.next ∧
        (front.entries ++ back.entries).Perm ((key, value) :: leaf.entries) ∧
        front.entries.length ≤ kLeafMaxEntries ∧ back.entries.length ≤ kLeafMaxEntries := by
      by_cases less : key < leaf.rightHalf.keyAt 0
      · have grown := insertAt_perm (leaf.leftHalf (s.handedOut alloc))
          ((leaf.leftHalf (s.handedOut alloc)).at_ false key) key value
        refine ⟨_, _, @insertLeaf_full alloc false overwrite key value s id leaf never full _ _
          (.inl ⟨less, rfl, rfl⟩), rfl, rfl, halves ▸ grown.append_right _, ?_, by omega⟩
        rw [grown.length_eq, List.length_cons]
        omega
      · have grown := insertAt_perm leaf.rightHalf (leaf.rightHalf.at_ false key) key value
        refine ⟨_, _, @insertLeaf_full alloc false overwrite key value s id leaf never full _ _
          (.inr ⟨less, rfl, rfl⟩), rfl, rfl,
          (grown.append_left _).trans (halves ▸ List.perm_middle), by omega, ?_⟩
        rw [grown.length_eq, List.length_cons]
        omega
    exact ⟨_, _, ⟨[back.keyAt 0], [Tree.ofLeaf id front, Tree.ofLeaf (s.handedOut alloc) back]⟩, ran,
      .two _ _ _ rfl, filed_cut standing links same entries fits fits'⟩

end Leaf

section Inner

variable {alloc : Allocator} {overwrite : Bool} {s : Store} {id : PageId} {row : Row (Tree h)}
  {sep : Key} {r : Tree h}

/-- A separator and the tree on its right, put in somewhere. -/
def Row.insertChildAt (row : Row (Tree h)) (ki : Nat) (sep : Key) (r : Tree h) : Row (Tree h) where
  keys := row.keys.take ki ++ sep :: row.keys.drop ki
  kids := row.kids.take (ki + 1) ++ r :: row.kids.drop (ki + 1)

private theorem Row.node_insertChildAt (row : Row (Tree h)) (ki : Nat) (sep : Key) (r : Tree h) :
    (row.insertChildAt ki sep r).node = row.node.insertChildAt ki sep r.id := by
  simp [Row.insertChildAt, Row.node, InternalNode.insertChildAt, List.map_take, List.map_drop]

private theorem Row.insertChildAt_kids (row : Row (Tree h)) (ki : Nat) (sep : Key) (r : Tree h) :
    (row.insertChildAt ki sep r).kids.Perm (r :: row.kids) := by
  have whole := List.take_append_drop (ki + 1) row.kids
  exact List.perm_middle.trans (by rw [whole])

private theorem Row.insertChildAt_whole (size : row.kids.length = row.keys.length + 1)
    (room : row.keys.length < kInternalMaxKeys) (ki : Nat) (sep : Key) (r : Tree h) :
    (row.insertChildAt ki sep r).Whole := by
  have kids := (row.insertChildAt_kids ki sep r).length_eq
  have keys : (row.insertChildAt ki sep r).keys.length = row.keys.length + 1 := by
    have whole := List.take_append_drop ki row.keys
    have same : (row.insertChildAt ki sep r).keys.Perm (sep :: row.keys) :=
      List.perm_middle.trans (by rw [whole])
    exact same.length_eq
  refine ⟨keys ▸ room, ?_⟩
  rw [kids, keys, List.length_cons, size]

private theorem Row.head_insertChildAt (some_ : row.kids ≠ []) (ki : Nat) (sep : Key) (r : Tree h) :
    (row.insertChildAt ki sep r).kids.head? = row.kids.head? := by
  obtain ⟨first, rest, cut⟩ := List.exists_cons_of_ne_nil some_
  rw [Row.insertChildAt, cut]
  rfl

/-- A full node is cut in two, and the new child is put into one of the parts: into which and
where does not matter here. -/
theorem insertSplit_cut (alloc : Allocator) (ci : Nat) (sep : Key) (r : Tree h)
    (size : row.keys.length = kInternalMaxKeys) (kids : row.kids.length = row.keys.length + 1) :
    ∃ median, ∃ front back : Row (Tree h),
      insertSplit alloc id row.node ci ⟨sep, r.id⟩ s = some (some ⟨median, s.handedOut alloc⟩,
        ((s.allocate alloc).write id (.internal front.node)).write (s.handedOut alloc)
          (.internal back.node)) ∧
      front.Whole ∧ back.Whole ∧ (front.kids ++ back.kids).Perm (r :: row.kids) ∧
      front.kids.head? = row.kids.head? := by
  have full : row.node.isFull = true := decide_eq_true size.ge
  have mid : row.node.count / 2 = 169 := by
    rw [InternalNode.count]
    change row.keys.length / 2 = 169
    rw [size]
    rfl
  have most : kInternalMaxKeys = 339 := rfl
  rw [size] at kids
  have upKeys : (row.upTo 169).keys.length = 169 := by
    rw [Row.upTo, List.length_take, size]
    rfl
  have upKids : (row.upTo 169).kids.length = 170 := by
    rw [Row.upTo, List.length_take, kids]
    rfl
  have afterKeys : (row.after 169).keys.length = 169 := by
    rw [Row.after, List.length_drop, size]
    rfl
  have afterKids : (row.after 169).kids.length = 170 := by
    rw [Row.after, List.length_drop, kids]
    rfl
  have whole : (row.upTo 169).kids ++ (row.after 169).kids = row.kids := List.take_append_drop _ _
  have first : (row.upTo 169).kids.head? = row.kids.head? := by
    rw [Row.upTo, List.head?_take, if_neg (Nat.succ_ne_zero _)]
  have some_ : (row.upTo 169).kids ≠ [] := List.ne_nil_of_length_pos (by omega)
  by_cases less : sep < row.node.keyAt 169
  · refine ⟨row.node.keyAt 169,
      (row.upTo 169).insertChildAt ((row.upTo 169).node.childIndexFor sep) sep r, row.after 169,
      ?_, ?_, ⟨by omega, by omega⟩, ?_, ?_⟩
    · rw [Row.node_insertChildAt, Row.node_upTo, Row.node_after]
      simp [insertSplit, full, mid, less]
    · exact Row.insertChildAt_whole (by omega) (by omega) _ sep r
    · have grown := (row.upTo 169).insertChildAt_kids ((row.upTo 169).node.childIndexFor sep) sep r
      exact whole ▸ grown.append_right _
    · rw [Row.head_insertChildAt some_, first]
  · refine ⟨row.node.keyAt 169, row.upTo 169,
      (row.after 169).insertChildAt ((row.after 169).node.childIndexFor sep) sep r,
      ?_, ⟨by omega, by omega⟩, ?_, ?_, first⟩
    · rw [Row.node_insertChildAt, Row.node_upTo, Row.node_after]
      simp [insertSplit, full, mid, less]
    · exact Row.insertChildAt_whole (by omega) (by omega) _ sep r
    · have grown := (row.after 169).insertChildAt_kids ((row.after 169).node.childIndexFor sep) sep r
      exact (grown.append_left _).trans (whole ▸ List.perm_middle)

end Inner

section Insert

variable {alloc : Allocator} {overwrite : Bool} {key : Key} {value : Value}

theorem Pieces.some_ {id : PageId} {row : Row (Tree h)} {split : Option Split}
    (pieces : Pieces id row split) : row.kids ≠ [] := by
  cases pieces with
  | one t same => exact List.cons_ne_nil _ _
  | two l r sep same => exact List.cons_ne_nil _ _

section Around

variable {s s' : Store} {id : PageId} {keys keys' : List Key} {kids kids' : List (Tree h)}
  {kid : Tree h} {krow : Row (Tree h)} {rounds : Nat} {split : Option Split}

theorem insertRec_filed_around (standing : Standing s [(around keys kids kid keys' kids').tree id])
    (fits : ((around keys kids kid keys' kids').tree id).Fits)
    (left : kids.length = keys.length)
    (place : (around keys kids kid keys' kids').node.childIndexFor key = keys.length)
    (ran : insertRec alloc false rounds kid.id key value overwrite s = some ((split, true), s'))
    (pieces : Pieces kid.id krow split) (filed : Filed key value s [kid] s' krow.kids) :
    ∃ split' s'' row',
      insertRec alloc false (rounds + 1) id key value overwrite s = some ((split', true), s'') ∧
      Pieces id row' split' ∧
      Filed key value s [(around keys kids kid keys' kids').tree id] s'' row'.kids := by
  have most : (keys ++ [] ++ keys').length ≤ kInternalMaxKeys := fits.1
  have size : (kids ++ [kid] ++ kids').length = (keys ++ [] ++ keys').length + 1 := fits.2.1
  have each : ∀ t ∈ kids ++ [kid] ++ kids', t.Fits := fits.2.2
  obtain ⟨below, -, -, here⟩ := standing.below
  have child : (around keys kids kid keys' kids').node.childAt keys.length = kid.id :=
    left ▸ childAt_around ..
  rw [← child, ← place] at ran
  have all : Filed key value s (around keys kids kid keys' kids').kids s'
      (krow.between keys kids keys' kids').kids := by
    apply filed.between below ⟨List.cons_ne_nil _ _, pieces.some_⟩
    intro t member
    apply each
    simp only [List.mem_append] at member ⊢
    exact member.elim (fun first => .inl (.inl first)) .inr
  cases pieces with
  | one piece sameId =>
    have same : ((⟨[], [piece]⟩ : Row (Tree h)).between keys kids keys' kids').node =
        (around keys kids kid keys' kids').node := by
      simp [Row.node, Row.between, sameId]
    have whole : ((⟨[], [piece]⟩ : Row (Tree h)).between keys kids keys' kids').Whole := by
      refine ⟨most, ?_⟩
      simpa [Row.between] using size
    have housed := all.housed.inner standing
    rw [all.housed.written standing same] at housed
    exact ⟨none, s', ⟨[], [_]⟩, insertRec_absorbed here ran, .one _ rfl, all.above housed whole⟩
  | two l r sep sameId =>
    by_cases room : (around keys kids kid keys' kids').node.isFull = false
    · have grownNode := @node_two h keys keys' kids kids' kid sep l r left sameId
      have up : insertSplit alloc id (around keys kids kid keys' kids').node
          ((around keys kids kid keys' kids').node.childIndexFor key) ⟨sep, r.id⟩ s' =
          some (none, s'.write id (.internal
            ((⟨[sep], [l, r]⟩ : Row (Tree h)).between keys kids keys' kids').node)) := by
        rw [place, grownNode]
        exact insertSplit_room alloc room
      have whole : ((⟨[sep], [l, r]⟩ : Row (Tree h)).between keys kids keys' kids').Whole := by
        have short : (keys ++ [] ++ keys').length < kInternalMaxKeys :=
          Nat.not_le.mp (of_decide_eq_false room)
        simp only [Row.Whole, Row.between, List.length_append, List.length_nil,
          List.length_cons] at short size ⊢
        omega
      exact ⟨none, _, ⟨[], [_]⟩, insertRec_split here ran up, .one _ rfl,
        all.above (all.housed.inner standing) whole⟩
    · have full : kInternalMaxKeys ≤ (around keys kids kid keys' kids').keys.length := by
        rw [Bool.not_eq_false] at room
        exact of_decide_eq_true room
      have same : (around keys kids l keys' kids').node =
          (around keys kids kid keys' kids').node := by
        simp [Row.node, Row.between, sameId]
      have sizes : (around keys kids l keys' kids').kids.length =
          (around keys kids l keys' kids').keys.length + 1 := by
        simpa [Row.between] using size
      obtain ⟨median, front, back, up, whole, whole', perm, head⟩ := @insertSplit_cut h s' id
        (around keys kids l keys' kids') alloc
        ((around keys kids kid keys' kids').node.childIndexFor key) sep r
        (Nat.le_antisymm most full) sizes
      rw [same] at up
      have order : (kids ++ [l, r] ++ kids').Perm (front.kids ++ back.kids) := by
        refine List.Perm.trans ?_ perm.symm
        have moved : (kids ++ [l] ++ r :: kids').Perm (r :: (kids ++ [l] ++ kids')) :=
          List.perm_middle
        have same_ : kids ++ [l, r] ++ kids' = kids ++ [l] ++ r :: kids' := by simp
        rw [same_]
        exact moved
      refine ⟨_, _, ⟨[median], [front.tree id, back.tree (s'.handedOut alloc)]⟩,
        insertRec_split here ran up, .two _ _ _ rfl, all.split alloc standing order ?_ whole whole'⟩
      rw [head]
      cases kids <;> rfl

end Around

variable (alloc)

/-- An insert comes to some leaf, and every node on the way holds what it may. Induction on the
height. -/
theorem insertRec_filed {rounds : Nat} {s : Store} (t : Tree h) (deep : h < rounds)
    (standing : Standing s [t]) (fits : t.Fits) :
    ∃ split s' row, insertRec alloc false rounds t.id key value overwrite s =
        some ((split, true), s') ∧
      Pieces t.id row split ∧ Filed key value s [t] s' row.kids := by
  induction h generalizing rounds with
  | zero =>
    obtain ⟨rounds, rfl⟩ := Nat.exists_eq_succ_of_ne_zero (Nat.ne_of_gt deep)
    obtain ⟨id, leaf⟩ : LeafTree := t
    obtain ⟨split, s', row, ran, pieces, filed⟩ :=
      @insertLeaf_filed alloc overwrite s id leaf standing fits key value
    have here : s.nodes id = .leaf leaf := standing.stored _ (List.mem_singleton.mpr rfl)
    exact ⟨split, s', row, (insertRec_leaf here).trans ran, pieces, filed⟩
  | succ h ih =>
    obtain ⟨rounds, rfl⟩ := Nat.exists_eq_succ_of_ne_zero (Nat.ne_of_gt (Nat.zero_lt_of_lt deep))
    obtain ⟨row, id⟩ : InnerTree (Tree h) := t
    change Standing s [row.tree id] at standing
    have whole : row.kids.length = row.keys.length + 1 := fits.2.1
    have inside : row.node.childIndexFor key ≤ row.keys.length := searchList_le_length _ _
    have length := List.length_take_of_le inside
    obtain ⟨kids, kid, kids', same, left, right, child⟩ :=
      Row.child whole (List.take_append_drop (row.node.childIndexFor key) row.keys).symm length
    generalize row.keys.take (row.node.childIndexFor key) = keys at *
    generalize row.keys.drop (row.node.childIndexFor key) = keys' at *
    subst same
    obtain ⟨split, s', krow, ran, pieces, filed⟩ := ih kid (Nat.lt_of_succ_lt_succ deep)
      standing.below.1.only (fits.2.2 kid (by simp [Row.between]))
    exact insertRec_filed_around standing fits left length.symm ran pieces filed

end Insert

section Whole

variable {alloc : Allocator} {s s' : Store} {t : Tree h} {key : Key} {value : Value}

/-- A tree that may have equal keys on both sides of its separators, and its leaves in the order in
which they are linked. -/
structure Chained (s : Store) (t : Tree h) (links : List LeafTree) : Prop where
  standing : Standing s [t]
  root : s.root = t.id
  fits : t.Fits
  linked : Linked links kNullPage
  leaves : links.Perm t.leaves
  starts : links.head?.map LeafTree.id = t.firstId
  real : ∀ id ∈ t.ids, id ≠ kNullPage

variable {links : List LeafTree}

theorem Chained.size (chained : Chained s t links) : t.ids.length ≤ s.used.length := by
  obtain ⟨-, nodup, owned⟩ := chained.standing
  rw [idsOf_one] at nodup owned
  exact nodup.length_le_of_subset owned

theorem Chained.deep (chained : Chained s t links) : h < rounds s := by
  have within := chained.size
  have deep := chained.fits.height_lt
  rw [rounds]
  omega

theorem Chained.chain (chained : Chained s t links) : Chain s links where
  stored leaf member := by
    have below := chained.leaves.mem_iff.mp member
    have inside : leaf.id ∈ t.ids := t.leaves_ids.subset (List.mem_map_of_mem below)
    exact ⟨(chained.standing.stored t List.mem_cons_self).leaves leaf below, chained.real _ inside⟩
  linked := chained.linked
  short := by
    have within := t.leaves_ids.length_le
    rw [List.length_map, ← chained.leaves.length_eq] at within
    exact within.trans chained.size

theorem Receives.head {old : LeafTree} {new back back' : List LeafTree}
    (receives : Receives key value old new) :
    (new ++ back).head?.map LeafTree.id = (old :: back').head?.map LeafTree.id := by
  cases receives <;> rfl

/-- The chain takes the entry in where one of its leaves did. -/
theorem Chained.filed {trees : List (Tree h)} (chained : Chained s t links)
    (filed : Filed key value s [t] s' trees) :
    ∃ links', Linked links' kNullPage ∧ links'.Perm (leavesOf trees) ∧
      links'.head?.map LeafTree.id = trees.head?.bind Tree.firstId ∧
      (entriesIn links').Perm ((key, value) :: entriesIn links) := by
  obtain ⟨old, new, rest, receives, was, is_⟩ := filed.leaf
  rw [leavesOf_cons, leavesOf_nil, List.append_nil] at was
  have member : old ∈ links :=
    (chained.leaves.trans was).mem_iff.mpr List.mem_cons_self
  obtain ⟨front, back, rfl⟩ := List.append_of_mem member
  have others : (front ++ back).Perm rest :=
    (List.perm_middle.symm.trans (chained.leaves.trans was)).cons_inv
  refine ⟨front ++ new ++ back, receives.linked chained.linked, ?_, ?_, ?_⟩
  · rw [List.append_assoc]
    exact (List.perm_append_comm_assoc _ _ _).trans ((others.append_left new).trans is_.symm)
  · have starts : (front ++ old :: back).head?.map LeafTree.id = trees.head?.bind Tree.firstId :=
      chained.starts.trans filed.first.symm
    rw [← starts]
    cases front with
    | nil => exact receives.head
    | cons leaf front => rfl
  · have grown := (receives.entries.append_left (entriesIn front)).append_right (entriesIn back)
    rw [entriesIn_append, entriesIn_append, entriesIn_append, entriesIn_cons]
    refine grown.trans ?_
    rw [List.append_assoc]
    exact List.perm_middle

private theorem Chained.of_housed {h' : Nat} {t' : Tree h'} {links' : List LeafTree} {s'' : Store}
    (chained : Chained s t links) (housed : Housed s [t] s' [t']) (nodes : s''.nodes = s'.nodes)
    (used : s''.used = s'.used) (moved : s''.root = t'.id) (fits : t'.Fits)
    (linked : Linked links' kNullPage) (leaves : links'.Perm t'.leaves)
    (starts : links'.head?.map LeafTree.id = t'.firstId) : Chained s'' t' links' where
  standing := by
    obtain ⟨stored, nodup, owned⟩ := housed.standing
    rw [← nodes] at stored
    rw [← used] at owned
    exact ⟨stored, nodup, owned⟩
  root := moved
  fits := fits
  linked := linked
  leaves := leaves
  starts := starts
  real id member := by
    have fresh := housed.replaced.fresh id
    rw [idsOf_one, idsOf_one] at fresh
    exact (fresh member).elim (chained.real id) And.right

/-- An insert puts the entry into the chain. -/
theorem Chained.insertWith (alloc : Allocator) (overwrite : Bool) (key : Key) (value : Value)
    (chained : Chained s t links) :
    ∃ s' h', ∃ t' : Tree h', ∃ links',
      Labdb.BTree.insertWith alloc false key value overwrite s = some (true, s') ∧
      Chained s' t' links' ∧ Regrown s t s' t' ∧
      (entriesIn links').Perm ((key, value) :: entriesIn links) := by
  obtain ⟨split, s', row, ran, pieces, filed⟩ :=
    @insertRec_filed h alloc overwrite key value (rounds s) s t chained.deep chained.standing
      chained.fits
  rw [← chained.root] at ran
  obtain ⟨links', linked, leaves, starts, entries⟩ := chained.filed filed
  cases pieces with
  | one t' sameId =>
    rw [leavesOf_cons, leavesOf_nil, List.append_nil] at leaves
    refine ⟨s', h, t', links', by simp [Labdb.BTree.insertWith, ran], ?_, .stayed filed.housed,
      entries⟩
    apply chained.of_housed filed.housed rfl rfl
    · rw [filed.housed.replaced.root, chained.root, sameId]
    · exact filed.fits t' List.mem_cons_self
    · exact linked
    · exact leaves
    · exact starts
  | two l r sep sameId =>
    have rootId : l.id = s.root := sameId.trans chained.root.symm
    have moved : Labdb.BTree.insertWith alloc false key value overwrite s =
        some (true, ((s'.allocate alloc).write (s'.handedOut alloc)
          (.internal (⟨[sep], [l, r]⟩ : Row (Tree h)).node)).moveRoot (s'.handedOut alloc)) := by
      simp [Labdb.BTree.insertWith, ran, Row.node, rootId]
    refine ⟨_, h + 1, (⟨[sep], [l, r]⟩ : Row (Tree h)).tree (s'.handedOut alloc), links', moved, ?_,
      .topped alloc filed.housed, entries⟩
    apply chained.of_housed (@Housed.rooting h h s s' ⟨[sep], [l, r]⟩ [t] alloc filed.housed)
    · rfl
    · rfl
    · rfl
    · exact ⟨(by decide : 1 ≤ kInternalMaxKeys), rfl, filed.fits⟩
    · exact linked
    · exact leaves
    · exact starts

end Whole

section Start

variable {s : Store} {t : Tree h} {links : List LeafTree}

private theorem firstChildFor_zero (node : InternalNode) : node.firstChildFor 0 = 0 :=
  searchList_none fun _ _ => decide_eq_false (Std.not_lt.mpr (UInt64.zero_le))

private theorem lowerBound_zero (leaf : LeafNode) : leaf.lowerBound 0 = 0 :=
  searchList_none fun _ _ => decide_eq_false (Std.not_lt.mpr (UInt64.zero_le))

/-- The way down to the first leaf. Induction on the height. -/
theorem descend_first {rounds : Nat} (t : Tree h) (deep : h < rounds) (stored : t.Stored s.nodes)
    (fits : t.Fits) :
    ∃ leaf ∈ t.leaves, t.firstId = some leaf.id ∧
      descend (InternalNode.firstChildFor · 0) rounds t.id s = some ((leaf.id, leaf.page), s) := by
  induction h generalizing rounds with
  | zero =>
    obtain ⟨id, page⟩ : LeafTree := t
    obtain ⟨rounds, rfl⟩ := Nat.exists_eq_succ_of_ne_zero (Nat.ne_of_gt deep)
    exact ⟨⟨id, page⟩, List.mem_singleton.mpr rfl, rfl, descend_leaf stored⟩
  | succ h ih =>
    obtain ⟨row, id⟩ : InnerTree (Tree h) := t
    obtain ⟨rounds, rfl⟩ := Nat.exists_eq_succ_of_ne_zero (Nat.ne_of_gt (Nat.zero_lt_of_lt deep))
    obtain ⟨_, whole, each⟩ := fits
    obtain ⟨keys, kids⟩ := row
    change kids.length = keys.length + 1 at whole
    cases kids with
    | nil => cases whole
    | cons first rest =>
      obtain ⟨here, below⟩ := stored
      obtain ⟨leaf, member, starts, ran⟩ := ih first (Nat.lt_of_succ_lt_succ deep)
        (below first List.mem_cons_self) (each first List.mem_cons_self)
      refine ⟨leaf, List.mem_append_left _ member, starts, ?_⟩
      rw [← ran]
      refine (descend_internal here).trans ?_
      rw [firstChildFor_zero]
      rfl

/-- A seek from the start is ahead of every entry of the chain. -/
theorem Chained.seek (chained : Chained s t links) :
    ∃ c, Labdb.BTree.seek false 0 s = some (c, s) ∧ Reads s c (entriesIn links) := by
  have stored := chained.standing.stored t List.mem_cons_self
  obtain ⟨leaf, member, starts, ran⟩ := descend_first t chained.deep stored chained.fits
  rw [← chained.root] at ran
  cases links with
  | nil =>
    rw [← chained.leaves.mem_iff] at member
    exact absurd member List.not_mem_nil
  | cons first rest =>
    have same : first.id = leaf.id := Option.some.inj (chained.starts.trans starts)
    have page : first.page = leaf.page := by
      have here := (chained.chain.stored first List.mem_cons_self).1
      have there := stored.leaves leaf member
      rw [same, there] at here
      exact (Node.leaf.inj here).symm
    obtain ⟨c, settled, reads⟩ := @settle_spec s { leaf := leaf.page, leafId := leaf.id, idx := 0 }
      (rounds s) (entriesIn (first :: rest))
      ⟨first, rest, page.symm, same.symm, chained.chain, rfl⟩ (Nat.lt_succ_self _)
    refine ⟨c, ?_, reads⟩
    simpa [Labdb.BTree.seek, seekBy, ran, lowerBound_zero] using settled

end Start

section Runs

/-- A cursor from the start of the tree meets the entries, each as often as it is there. -/
def Scanned (s : Store) (entries : List (Key × Value)) : Prop :=
  ∃ met : List (Key × Value), met.Perm entries ∧ ∃ c, seek false 0 s = some (c, s) ∧
    ∀ count, walk count c s = some (met.take count, s)

theorem Chained.scanned {s : Store} {t : Tree h} {links : List LeafTree}
    (chained : Chained s t links) {entries : List (Key × Value)}
    (same : (entriesIn links).Perm entries) : Scanned s entries := by
  obtain ⟨c, sought, reads⟩ := chained.seek
  exact ⟨_, same, c, sought, reads.walk⟩

variable {alloc : Allocator}

theorem Chained.insertAll {s : Store} {t : Tree h} {links : List LeafTree}
    (chained : Chained s t links) (entries : List (Key × Value)) :
    ∃ s' h', ∃ t' : Tree h', ∃ links',
      Labdb.BTree.insertAll alloc entries s = some (List.replicate entries.length true, s') ∧
      Chained s' t' links' ∧ (entriesIn links').Perm (entries ++ entriesIn links) := by
  induction entries generalizing s h links with
  | nil => exact ⟨s, h, t, links, rfl, chained, List.Perm.refl _⟩
  | cons e rest ih =>
    obtain ⟨s₁, h₁, t₁, chain₁, ran, chained₁, -, grown⟩ :=
      chained.insertWith alloc true e.1 e.2
    obtain ⟨s', h', t', links', ran', chained', grown'⟩ := ih chained₁
    refine ⟨s', h', t', links', ?_, chained', ?_⟩
    · have first : BTree.insert alloc false e.1 e.2 s = some (true, s₁) := ran
      have others : rest.mapM (fun e => BTree.insert alloc false e.1 e.2) s₁ =
          some (List.replicate rest.length true, s') := ran'
      simp [Labdb.BTree.insertAll, List.mapM_cons, first, others, List.replicate_succ]
    · exact grown'.trans ((grown.append_left rest).trans List.perm_middle)

theorem Holds.chained {s : Store} {id : PageId} (holds : Holds false s (Tree.ofLeaf id {})) :
    Chained s (Tree.ofLeaf id {}) [⟨id, {}⟩] where
  standing := holds.standing
  root := holds.root
  fits := Nat.zero_le _
  linked := ⟨rfl, trivial⟩
  leaves := List.Perm.refl _
  starts := rfl
  real id member := holds.real id ((holds.pages id).mpr member)

end Runs

/-- A scan of a tree with duplicate keys loses none and meets none twice, however many ties its
inserts were asked for. -/
theorem scan_meets_all (alloc : Allocator) (nodes : PageId → Node) (root : PageId)
    (entries : List (Key × Value)) :
    ∃ s₀ s, plant alloc { nodes, used := [], root } = some ((), s₀) ∧
      insertAll alloc entries s₀ = some (List.replicate entries.length true, s) ∧
      Scanned s entries := by
  obtain ⟨s₀, id, planted, holds⟩ := Holds.plant alloc false nodes root
  obtain ⟨s, h, t, links, ran, chained, grown⟩ := @Chained.insertAll 0 alloc s₀ _ _ holds.chained entries
  refine ⟨s₀, s, planted, ran, chained.scanned ?_⟩
  simpa [entriesIn] using grown

end Labdb.BTree
