import Labdb.BTree.Underflow

/-! Inserts into a tree with duplicate keys whose root is a leaf or is over leaves: what each one
makes of the tree, and what many entries with one key make of it. -/

namespace Labdb.BTree

open Labdb.Data Labdb.Data.Item Labdb.Query Labdb.Storage

variable {h : Nat}

/-- The calls, which all insert. -/
def insertAll (alloc : Allocator) (entries : List (Key × Value)) : TreeM (List Bool) :=
  entries.mapM fun e => BTree.insert alloc false e.1 e.2

section Steps

variable {alloc : Allocator} {s : Store} {id lid : PageId} {leaf : LeafNode} {key sep : Key}
  {value v : Value} {front back rest : List (Key × Value)} {keys keys' : List Key}
  {kids kids' : List (Tree 0)}

/-- A tree on the pages of a store, whatever it holds. -/
structure Rooted (s : Store) (t : Tree h) : Prop where
  standing : Standing s [t]
  root : s.root = t.id

theorem Rooted.of_became {s' : Store} {t t' : Tree h} (rooted : Rooted s t)
    (became : Became s [t] s' [t']) (same : t'.id = t.id) : Rooted s' t' where
  standing := became.standing
  root := became.replaced.root.trans (rooted.root.trans same.symm)

theorem Rooted.moved {t : Tree h} (standing : Standing s [t]) : Rooted (s.moveRoot t.id) t :=
  ⟨⟨standing.stored, standing.nodup, standing.owned⟩, rfl⟩

/-- Where an entry goes in a leaf with duplicate keys. -/
theorem insertAt_upper (whole : leaf.entries = front ++ back) (below : ∀ e ∈ front, e.1 ≤ key)
    (above : ∀ e ∈ back, key < e.1) (value : Value) :
    (leaf.insertAt (leaf.at_ false key) key value).entries = front ++ (key, value) :: back := by
  have place : leaf.at_ false key = front.length := by
    change searchList (fun e : Key × Value => decide (e.1 ≤ key)) leaf.entries = front.length
    rw [whole]
    apply searchList_eq
    · exact fun e member => decide_eq_true (below e member)
    · exact fun e member => decide_eq_false (Std.not_le.mpr (above e member))
  rw [place]
  exact LeafNode.insertAt_cut whole key value

private theorem present_not : ¬ (false = true ∧ leaf.lowerBound key < leaf.count ∧
    leaf.keyAt (leaf.lowerBound key) = key) := fun never => Bool.false_ne_true never.1

/-- A root that is a leaf takes an entry in. -/
theorem insert_leafRoot (rooted : Rooted s (Tree.ofLeaf id leaf))
    (room : leaf.entries.length < kLeafMaxEntries) (key : Key) (value : Value) :
    ∃ s', BTree.insert alloc false key value s = some (true, s') ∧
      Rooted s' (Tree.ofLeaf id (leaf.insertAt (leaf.at_ false key) key value)) := by
  have here : s.nodes id = .leaf leaf := rooted.standing.stored _ List.mem_cons_self
  have root : s.root = id := rooted.root
  have notFull : leaf.isFull = false := decide_eq_false (Nat.not_le.mpr room)
  refine ⟨_, ?_, rooted.of_became (.leaf rooted.standing rfl) rfl⟩
  have ran := @insertRec_leaf alloc false true key value s id s.used.length leaf here
  rw [@insertLeaf_room alloc false true key value s id leaf present_not notFull] at ran
  rw [← root] at ran ⊢
  simp [BTree.insert, insertWith, rounds, ran]

/-- A leaf below the root takes an entry in. -/
theorem insert_leafBelow
    (rooted : Rooted s ((around keys kids (Tree.ofLeaf lid leaf) keys' kids').tree id))
    (left : kids.length = keys.length) (small : ∀ k ∈ keys, k ≤ key) (large : ∀ k ∈ keys', key < k)
    (room : leaf.entries.length < kLeafMaxEntries) (value : Value) :
    ∃ s', BTree.insert alloc false key value s = some (true, s') ∧
      Rooted s' ((around keys kids (Tree.ofLeaf lid (leaf.insertAt (leaf.at_ false key) key value))
        keys' kids').tree id) := by
  obtain ⟨below, used, -, here⟩ := rooted.standing.below
  have hereLeaf : s.nodes lid = .leaf leaf := below.only.stored _ List.mem_cons_self
  have root : s.root = id := rooted.root
  have notFull : leaf.isFull = false := decide_eq_false (Nat.not_le.mpr room)
  have place : (around keys kids (Tree.ofLeaf lid leaf) keys' kids').node.childIndexFor key =
      keys.length := childIndexFor_eq (congrArg (· ++ keys') (List.append_nil keys)) small large
  have child : (around keys kids (Tree.ofLeaf lid leaf) keys' kids').node.childAt keys.length =
      lid := left ▸ childAt_around ..
  obtain ⟨n, size⟩ : ∃ n, s.used.length = n + 1 :=
    Nat.exists_eq_succ_of_ne_zero (Nat.ne_of_gt (List.length_pos_of_mem used))
  have ran := @insertRec_leaf alloc false true key value s lid n leaf hereLeaf
  rw [@insertLeaf_room alloc false true key value s lid leaf present_not notFull, ← child,
    ← place] at ran
  have ran' := insertRec_absorbed here ran
  have became := (@Became.leaf s lid leaf (leaf.insertAt (leaf.at_ false key) key value)
    below.only rfl).between below
  have same : ((⟨[], [Tree.ofLeaf lid (leaf.insertAt (leaf.at_ false key) key value)]⟩ :
      Row (Tree 0)).between keys kids keys' kids').node =
        (around keys kids (Tree.ofLeaf lid leaf) keys' kids').node := by
    simp [Row.node, Row.between]
  refine ⟨_, ?_, rooted.of_became (became.under rooted.standing same) rfl⟩
  rw [place, child, ← root] at ran'
  simp [BTree.insert, insertWith, rounds, size, ran']

/-- The right half of a leaf once it has taken the entry in. -/
def LeafNode.rightTaking (leaf : LeafNode) (key : Key) (value : Value) : LeafNode :=
  leaf.rightHalf.insertAt (leaf.rightHalf.at_ false key) key value

/-- What a full leaf becomes when the entry goes to its right half. -/
theorem insertLeaf_right (standing : Standing s [Tree.ofLeaf lid leaf]) (full : leaf.isFull = true)
    (least : ¬ key < leaf.rightHalf.keyAt 0) (rounds : Nat) (value : Value) :
    ∃ s' new, insertRec alloc false (rounds + 1) lid key value true s =
        some ((some ⟨(leaf.rightTaking key value).keyAt 0, new⟩, true), s') ∧
      s'.root = s.root ∧
      Became s [Tree.ofLeaf lid leaf] s' [Tree.ofLeaf lid (leaf.leftHalf new),
        Tree.ofLeaf new (leaf.rightTaking key value)] := by
  have here : s.nodes lid = .leaf leaf := standing.stored _ List.mem_cons_self
  have ran := @insertLeaf_full alloc false true key value s lid leaf present_not full _ _
    (.inr ⟨least, rfl, rfl⟩)
  exact ⟨_, s.handedOut alloc, (insertRec_leaf here).trans ran, rfl,
    .leaves alloc standing rfl rfl⟩

/-- A root that is a full leaf splits. -/
theorem insert_leafRoot_full (rooted : Rooted s (Tree.ofLeaf id leaf)) (full : leaf.isFull = true)
    (least : ¬ key < leaf.rightHalf.keyAt 0) (value : Value) :
    ∃ s' new id', BTree.insert alloc false key value s = some (true, s') ∧
      Rooted s' ((⟨[(leaf.rightTaking key value).keyAt 0], [Tree.ofLeaf id (leaf.leftHalf new),
        Tree.ofLeaf new (leaf.rightTaking key value)]⟩ : Row (Tree 0)).tree id') := by
  obtain ⟨s', new, ran, -, became⟩ :=
    @insertLeaf_right alloc s id leaf key rooted.standing full least s.used.length value
  have topped := @Became.rooting 0 s s' _ ⟨[(leaf.rightTaking key value).keyAt 0], _⟩ alloc became
  have root : s.root = id := rooted.root
  refine ⟨_, new, _, ?_, Rooted.moved topped.standing⟩
  rw [← root] at ran ⊢
  simp [BTree.insert, insertWith, rounds, ran, Row.node]

/-- A full leaf below the root splits, and the root has room. -/
theorem insert_leafBelow_full
    (rooted : Rooted s ((around keys kids (Tree.ofLeaf lid leaf) keys' kids').tree id))
    (left : kids.length = keys.length) (small : ∀ k ∈ keys, k ≤ key) (large : ∀ k ∈ keys', key < k)
    (full : leaf.isFull = true) (least : ¬ key < leaf.rightHalf.keyAt 0)
    (room : (keys ++ keys').length < kInternalMaxKeys) (value : Value) :
    ∃ s' new, BTree.insert alloc false key value s = some (true, s') ∧
      Rooted s' ((beside keys kids (Tree.ofLeaf lid (leaf.leftHalf new))
        ((leaf.rightTaking key value).keyAt 0) (Tree.ofLeaf new (leaf.rightTaking key value))
        keys' kids').tree id) := by
  obtain ⟨below, used, -, here⟩ := rooted.standing.below
  have root : s.root = id := rooted.root
  have place : (around keys kids (Tree.ofLeaf lid leaf) keys' kids').node.childIndexFor key =
      keys.length := childIndexFor_eq (congrArg (· ++ keys') (List.append_nil keys)) small large
  have child : (around keys kids (Tree.ofLeaf lid leaf) keys' kids').node.childAt keys.length =
      lid := left ▸ childAt_around ..
  have notFull : (around keys kids (Tree.ofLeaf lid leaf) keys' kids').node.isFull = false := by
    apply decide_eq_false
    simpa [InternalNode.count, Row.node, Row.between] using room
  obtain ⟨n, size⟩ : ∃ n, s.used.length = n + 1 :=
    Nat.exists_eq_succ_of_ne_zero (Nat.ne_of_gt (List.length_pos_of_mem used))
  obtain ⟨s', new, ran, -, became⟩ :=
    @insertLeaf_right alloc s lid leaf key below.only full least n value
  have grown := @node_two 0 keys keys' kids kids' (Tree.ofLeaf lid leaf)
    ((leaf.rightTaking key value).keyAt 0) (Tree.ofLeaf lid (leaf.leftHalf new))
    (Tree.ofLeaf new (leaf.rightTaking key value)) left rfl
  have up : insertSplit alloc id (around keys kids (Tree.ofLeaf lid leaf) keys' kids').node
      ((around keys kids (Tree.ofLeaf lid leaf) keys' kids').node.childIndexFor key)
      ⟨(leaf.rightTaking key value).keyAt 0, new⟩ s' =
      some (none, s'.write id (.internal (beside keys kids (Tree.ofLeaf lid (leaf.leftHalf new))
        ((leaf.rightTaking key value).keyAt 0) (Tree.ofLeaf new (leaf.rightTaking key value))
        keys' kids').node)) := by
    rw [place, grown]
    exact insertSplit_room alloc notFull
  have whole := @Became.inner 0 s s' _ (beside keys kids (Tree.ofLeaf lid (leaf.leftHalf new))
    ((leaf.rightTaking key value).keyAt 0) (Tree.ofLeaf new (leaf.rightTaking key value))
    keys' kids') id (became.between below) rooted.standing
  rw [← child, ← place] at ran
  have ran' := insertRec_split here ran up
  refine ⟨_, new, ?_, rooted.of_became whole rfl⟩
  rw [← root] at ran' ⊢
  simp [BTree.insert, insertWith, rounds, size, ran']

end Steps

section Halves

variable {leaf : LeafNode} {front back : List (Key × Value)}

theorem leftHalf_cut (whole : leaf.entries = front ++ back) (same : back.length = front.length)
    (new : PageId) : (leaf.leftHalf new).entries = front := by
  have size : leaf.count / 2 = front.length := by
    rw [LeafNode.count, whole, List.length_append, same]
    omega
  change leaf.entries.take (leaf.count / 2) = front
  rw [size, whole, List.take_left]

theorem rightHalf_cut (whole : leaf.entries = front ++ back) (same : back.length = front.length) :
    leaf.rightHalf.entries = back := by
  have size : leaf.count / 2 = front.length := by
    rw [LeafNode.count, whole, List.length_append, same]
    omega
  change leaf.entries.drop (leaf.count / 2) = back
  rw [size, whole, List.drop_left]

end Halves

section Equals

/-- Entries with one key, numbered in the order in which they come. -/
def equals (k : Key) (from_ count : Nat) : List (Key × Value) :=
  (List.range' from_ count).map fun i => (k, UInt64.ofNat i)

variable {k : Key} {from_ count : Nat}

private theorem equals_append (k : Key) (from_ first second : Nat) :
    equals k from_ first ++ equals k (from_ + first) second = equals k from_ (first + second) := by
  rw [equals, equals, ← List.map_append, List.range'_append_1]
  rfl

private theorem equals_succ (k : Key) (from_ count : Nat) :
    equals k from_ (count + 1) = equals k from_ count ++ [(k, UInt64.ofNat (from_ + count))] :=
  (equals_append k from_ count 1).symm

theorem length_equals (k : Key) (from_ count : Nat) : (equals k from_ count).length = count := by
  rw [equals, List.length_map, List.length_range']

theorem key_of_mem_equals {e : Key × Value} (member : e ∈ equals k from_ count) : e.1 = k := by
  obtain ⟨i, -, rfl⟩ := List.mem_map.mp member
  rfl

theorem getLast_equals (k : Key) (from_ count : Nat) :
    (equals k from_ (count + 1)).getLast? = some (k, UInt64.ofNat (from_ + count)) := by
  rw [equals_succ, List.getLast?_concat]

variable {leaf : LeafNode} {new : PageId}

/-- An entry goes behind those with its key. -/
theorem insertAt_equals (whole : leaf.entries = equals k from_ count) :
    (leaf.insertAt (leaf.at_ false k) k (UInt64.ofNat (from_ + count))).entries =
      equals k from_ (count + 1) := by
  rw [equals_succ]
  apply insertAt_upper (whole.trans (List.append_nil _).symm)
  · exact fun e member => key_of_mem_equals member ▸ Std.le_refl _
  · exact fun e never => absurd never List.not_mem_nil

private theorem halves_equals (k : Key) (from_ : Nat) :
    equals k from_ kLeafMaxEntries = equals k from_ 127 ++ equals k (from_ + 127) 127 :=
  (equals_append k from_ 127 127).symm

theorem keyAt_equals (whole : leaf.entries = equals k from_ (count + 1)) : leaf.keyAt 0 = k := by
  rw [LeafNode.keyAt, whole]
  rfl

end Equals

section Fill

variable {alloc : Allocator} {s s' s'' : Store} {k : Key}

/-- All entries go in. -/
def Inserted (alloc : Allocator) (s : Store) (entries : List (Key × Value)) (s' : Store) : Prop :=
  insertAll alloc entries s = some (List.replicate entries.length true, s')

theorem Inserted.nil : Inserted alloc s [] s := rfl

theorem Inserted.snoc {entries : List (Key × Value)} {key : Key} {value : Value}
    (first : Inserted alloc s entries s')
    (then_ : BTree.insert alloc false key value s' = some (true, s'')) :
    Inserted alloc s (entries ++ [(key, value)]) s'' := by
  have ran : (entries.mapM fun e => BTree.insert alloc false e.1 e.2) s =
      some (List.replicate entries.length true, s') := first
  simp [Inserted, insertAll, ran, then_, List.replicate_succ']

theorem Inserted.more {done : List (Key × Value)} {n : Nat}
    (first : Inserted alloc s (done ++ equals k 0 n) s')
    (then_ : BTree.insert alloc false k (UInt64.ofNat n) s' = some (true, s'')) :
    Inserted alloc s (done ++ equals k 0 (n + 1)) s'' := by
  rw [equals_succ, Nat.zero_add, ← List.append_assoc]
  exact first.snoc then_

/-- A root that is a leaf with the first entries. -/
structure One (s : Store) (k : Key) (n : Nat) : Prop where
  room : n ≤ kLeafMaxEntries
  rooted : ∃ id leaf, Rooted s (Tree.ofLeaf id leaf) ∧ leaf.entries = equals k 0 n

/-- A root over leaves with `n` entries of one key: the first holds half of what it can, and the
last what came since. -/
structure Filled (s : Store) (k : Key) (j n : Nat) : Prop where
  least : 127 * j + 128 ≤ n
  most : n ≤ 127 * j + kLeafMaxEntries
  keys : 0 < j ∧ j ≤ kInternalMaxKeys
  rooted : ∃ id fid, ∃ first : LeafNode, ∃ rest lid, ∃ leaf : LeafNode,
    Rooted s ((around (List.replicate j k) (Tree.ofLeaf fid first :: rest) (Tree.ofLeaf lid leaf)
      [] []).tree id) ∧ first.entries = equals k 0 127 ∧ rest.length + 1 = j ∧
      leaf.entries = equals k (127 * j) (n - 127 * j)

theorem One.next {n : Nat} (one : One s k n) (room : n < kLeafMaxEntries) :
    ∃ s', BTree.insert alloc false k (UInt64.ofNat n) s = some (true, s') ∧ One s' k (n + 1) := by
  obtain ⟨-, id, leaf, rooted, whole⟩ := one
  have size : leaf.entries.length < kLeafMaxEntries := by rwa [whole, length_equals]
  obtain ⟨s', ran, rooted'⟩ := @insert_leafRoot alloc s id leaf rooted size k (UInt64.ofNat n)
  refine ⟨s', ran, room, id, _, rooted', ?_⟩
  have grown := insertAt_equals whole
  rwa [Nat.zero_add] at grown

/-- What a full leaf with equal keys splits into. -/
theorem split_equals {leaf : LeafNode} {from_ : Nat}
    (whole : leaf.entries = equals k from_ kLeafMaxEntries) :
    leaf.isFull = true ∧ ¬ k < leaf.rightHalf.keyAt 0 ∧
      (∀ new, (leaf.leftHalf new).entries = equals k from_ 127) ∧
      (leaf.rightTaking k (UInt64.ofNat (from_ + kLeafMaxEntries))).entries =
        equals k (from_ + 127) 128 ∧
      (leaf.rightTaking k (UInt64.ofNat (from_ + kLeafMaxEntries))).keyAt 0 = k := by
  have right := rightHalf_cut (whole.trans (halves_equals k from_)) (by simp only [length_equals])
  have taken : (leaf.rightTaking k (UInt64.ofNat (from_ + kLeafMaxEntries))).entries =
      equals k (from_ + 127) 128 := insertAt_equals right
  refine ⟨decide_eq_true ?_, ?_, fun new => ?_, taken, keyAt_equals taken⟩
  · rw [LeafNode.count, whole, length_equals]
  · rw [keyAt_equals right]
    exact Std.lt_irrefl
  · exact leftHalf_cut (whole.trans (halves_equals k from_)) (by simp only [length_equals]) new

theorem One.split (one : One s k kLeafMaxEntries) :
    ∃ s', BTree.insert alloc false k (UInt64.ofNat kLeafMaxEntries) s = some (true, s') ∧
      Filled s' k 1 (kLeafMaxEntries + 1) := by
  obtain ⟨-, id, leaf, rooted, whole⟩ := one
  have halves := split_equals whole
  rw [Nat.zero_add] at halves
  obtain ⟨full, least, left, right, first⟩ := halves
  obtain ⟨s', new, id', ran, rooted'⟩ := @insert_leafRoot_full alloc s id leaf k rooted full least
    (UInt64.ofNat kLeafMaxEntries)
  rw [first] at rooted'
  refine ⟨s', ran, ?_⟩
  constructor
  · decide
  · decide
  · decide
  · exact ⟨id', id, _, [], new, _, rooted', left new, rfl, right⟩

theorem Filled.next {j n : Nat} (filled : Filled s k j n) (room : n < 127 * j + kLeafMaxEntries) :
    ∃ s', BTree.insert alloc false k (UInt64.ofNat n) s = some (true, s') ∧
      Filled s' k j (n + 1) := by
  obtain ⟨least, -, keys, id, fid, first, rest, lid, leaf, rooted, whole, length, ends⟩ := filled
  have size : leaf.entries.length < kLeafMaxEntries := by
    rw [ends, length_equals]
    omega
  obtain ⟨s', ran, rooted'⟩ := @insert_leafBelow alloc s id lid leaf k _ _ _ _ rooted
    (by simpa using length) (fun e member => List.eq_of_mem_replicate member ▸ Std.le_refl _)
    (fun e never => absurd never List.not_mem_nil) size (UInt64.ofNat n)
  refine ⟨s', ran, by omega, room, keys, id, fid, first, rest, lid, _, rooted', whole, length, ?_⟩
  have grown := insertAt_equals ends
  rwa [Nat.add_sub_cancel' (by omega), ← Nat.sub_add_comm (by omega)] at grown

theorem Filled.split {j : Nat} (filled : Filled s k j (127 * j + kLeafMaxEntries))
    (room : j < kInternalMaxKeys) :
    ∃ s', BTree.insert alloc false k (UInt64.ofNat (127 * j + kLeafMaxEntries)) s =
        some (true, s') ∧
      Filled s' k (j + 1) (127 * j + kLeafMaxEntries + 1) := by
  obtain ⟨-, -, keys, id, fid, first, rest, lid, leaf, rooted, whole, length, ends⟩ := filled
  rw [Nat.add_sub_cancel_left] at ends
  obtain ⟨full, least, left, right, head⟩ := split_equals ends
  obtain ⟨s', new, ran, rooted'⟩ := @insert_leafBelow_full alloc s id lid leaf k _ _ _ _ rooted
    (by simpa using length) (fun e member => List.eq_of_mem_replicate member ▸ Std.le_refl _)
    (fun e never => absurd never List.not_mem_nil) full least (by simpa using room)
    (UInt64.ofNat (127 * j + kLeafMaxEntries))
  rw [head, ← around_append, ← List.replicate_succ', List.cons_append] at rooted'
  have size : kLeafMaxEntries = 254 := rfl
  refine ⟨s', ran, by omega, by omega, ⟨Nat.succ_pos j, room⟩, id, fid, first, rest ++ [_], new, _,
    rooted', whole, by simpa using length, ?_⟩
  have place : 127 * (j + 1) = 127 * j + 127 := Nat.mul_succ 127 j
  have much : 127 * j + kLeafMaxEntries + 1 - (127 * j + 127) = 128 := by omega
  rw [right, place, much]

/-- Entries with one key fill the leaves from left to right, until the root is full. -/
theorem fill {id : PageId} (rooted : Rooted s (Tree.ofLeaf id {})) (k : Key) {n : Nat}
    (bound : n ≤ 127 * kInternalMaxKeys + kLeafMaxEntries) :
    ∃ s', Inserted alloc s (equals k 0 n) s' ∧ (One s' k n ∨ ∃ j, Filled s' k j n) := by
  induction n with
  | zero => exact ⟨s, .nil, .inl ⟨Nat.zero_le _, id, {}, rooted, rfl⟩⟩
  | succ n ih =>
    obtain ⟨s', inserted, shape⟩ := ih (Nat.le_of_succ_le bound)
    have step : ∃ s'', BTree.insert alloc false k (UInt64.ofNat n) s' = some (true, s'') ∧
        (One s'' k (n + 1) ∨ ∃ j, Filled s'' k j (n + 1)) := by
      rcases shape with one | ⟨j, filled⟩
      · by_cases room : n < kLeafMaxEntries
        · obtain ⟨s'', ran, one'⟩ := @One.next alloc _ _ _ one room
          exact ⟨s'', ran, .inl one'⟩
        · obtain rfl : n = kLeafMaxEntries := Nat.le_antisymm one.room (Nat.not_lt.mp room)
          obtain ⟨s'', ran, filled⟩ := @One.split alloc _ _ one
          exact ⟨s'', ran, .inr ⟨1, filled⟩⟩
      · by_cases room : n < 127 * j + kLeafMaxEntries
        · obtain ⟨s'', ran, filled'⟩ := @Filled.next alloc _ _ _ _ filled room
          exact ⟨s'', ran, .inr ⟨j, filled'⟩⟩
        · obtain rfl : n = 127 * j + kLeafMaxEntries :=
            Nat.le_antisymm filled.most (Nat.not_lt.mp room)
          have more : j < kInternalMaxKeys := by omega
          obtain ⟨s'', ran, filled'⟩ := @Filled.split alloc _ _ _ filled more
          exact ⟨s'', ran, .inr ⟨j + 1, filled'⟩⟩
    obtain ⟨s'', ran, shape'⟩ := step
    exact ⟨s'', @Inserted.more alloc s s' s'' k [] n inserted ran, shape'⟩

end Fill

section Front

variable {alloc : Allocator} {s s' : Store} {low k : Key}

/-- A full root, and in front of its first leaf's entries some with a smaller key. -/
def Fronted (s : Store) (low k : Key) (p : Nat) : Prop :=
  ∃ id lid, ∃ leaf : LeafNode, ∃ others,
    Rooted s ((around [] [] (Tree.ofLeaf lid leaf) (List.replicate kInternalMaxKeys k)
      others).tree id) ∧
    others.length = kInternalMaxKeys ∧ leaf.entries = equals low 0 p ++ equals k 0 127

private theorem Filled.fronted {n : Nat} (filled : Filled s k kInternalMaxKeys n) (low : Key) :
    Fronted s low k 0 := by
  obtain ⟨-, -, -, id, fid, first, rest, lid, leaf, rooted, whole, length, -⟩ := filled
  have same : around (List.replicate kInternalMaxKeys k) (Tree.ofLeaf fid first :: rest)
      (Tree.ofLeaf lid leaf) [] [] = around [] [] (Tree.ofLeaf fid first)
        (List.replicate kInternalMaxKeys k) (rest ++ [Tree.ofLeaf lid leaf]) := by
    simp [Row.between]
  rw [same] at rooted
  exact ⟨id, fid, first, _, rooted, by simpa using length, whole⟩

theorem Fronted.next {p : Nat} (less : low < k) (fronted : Fronted s low k p) (room : p < 127) :
    ∃ s', BTree.insert alloc false low (UInt64.ofNat p) s = some (true, s') ∧
      Fronted s' low k (p + 1) := by
  obtain ⟨id, lid, leaf, others, rooted, length, whole⟩ := fronted
  have size : leaf.entries.length < kLeafMaxEntries := by
    have most : kLeafMaxEntries = 254 := rfl
    rw [whole, List.length_append, length_equals, length_equals]
    omega
  obtain ⟨s', ran, rooted'⟩ := @insert_leafBelow alloc s id lid leaf low _ _ _ _ rooted rfl
    (fun e never => absurd never List.not_mem_nil)
    (fun e member => List.eq_of_mem_replicate member ▸ less) size (UInt64.ofNat p)
  refine ⟨s', ran, id, lid, _, others, rooted', length, ?_⟩
  rw [equals_succ, Nat.zero_add, List.append_assoc]
  apply insertAt_upper whole
  · exact fun e member => key_of_mem_equals member ▸ Std.le_refl _
  · exact fun e member => key_of_mem_equals member ▸ less

/-- A full node with equal separators takes in one more of them behind all the others. -/
theorem insertSplit_ties {id new : PageId} {node : InternalNode} {ci m : Nat}
    (full : node.isFull = true) (ties : node.keys = List.replicate (m + (m + 1)) k)
    (size : node.children.length = m + (m + 1) + 1) (alloc : Allocator) :
    insertSplit alloc id node ci ⟨k, new⟩ s =
      some (some ⟨k, s.handedOut alloc⟩,
        ((s.allocate alloc).write id (.internal (node.setCount m))).write (s.handedOut alloc)
          (.internal ⟨List.replicate m k ++ [k], node.children.drop (m + 1) ++ [new]⟩)) := by
  have mid : node.count / 2 = m := by
    rw [InternalNode.count, ties, List.length_replicate]
    omega
  have median : node.keyAt m = k := by
    rw [InternalNode.keyAt, ties, List.getD_eq_getElem?_getD, List.getElem?_replicate,
      if_pos (by omega), Option.getD_some]
  have rest : node.keys.drop (m + 1) = List.replicate m k := by
    rw [ties, List.drop_replicate]
    congr 1
    omega
  have behind : (node.children.drop (m + 1)).length = m + 1 := by
    rw [List.length_drop, size]
    omega
  have found : InternalNode.childIndexFor ⟨List.replicate m k, node.children.drop (m + 1)⟩ k =
      m := by
    have place := @childIndexFor_eq ⟨List.replicate m k, node.children.drop (m + 1)⟩
      (List.replicate m k) [] (List.append_nil _).symm k
      (fun e member => List.eq_of_mem_replicate member ▸ Std.le_refl _)
      (fun e never => absurd never List.not_mem_nil)
    rwa [List.length_replicate] at place
  have irrefl : ¬ k < k := Std.lt_irrefl
  have taken : InternalNode.insertChildAt ⟨List.replicate m k, node.children.drop (m + 1)⟩ m k
      new = ⟨List.replicate m k ++ [k], node.children.drop (m + 1) ++ [new]⟩ := by
    have keys : (List.replicate m k).length ≤ m := List.length_replicate.le
    simp only [InternalNode.insertChildAt, List.take_of_length_le keys,
      List.drop_of_length_le keys, List.take_of_length_le behind.le,
      List.drop_of_length_le behind.le]
  simp [insertSplit, full, mid, median, irrefl, rest, found, taken]

/-- Down the last children of two nodes to a leaf. -/
theorem last_below {top under : InternalNode} {leaf : LeafNode} {front : List (Key × Value)}
    {e : Key × Value} (first : s.nodes s.root = .internal top)
    (second : s.nodes (top.childAt top.count) = .internal under)
    (third : s.nodes (under.childAt under.count) = .leaf leaf)
    (real : under.childAt under.count ≠ kNullPage) (whole : leaf.entries = front ++ [e])
    (deep : 2 ≤ s.used.length) : ∃ c, last s = some (c, s) ∧ c.current = some e := by
  obtain ⟨n, size⟩ : ∃ n, s.used.length = n + 2 := Nat.exists_eq_add_of_le' deep
  have count : leaf.count = front.length + 1 := by
    rw [LeafNode.count, whole, List.length_append]
    rfl
  have key : leaf.keyAt front.length = e.1 := LeafNode.keyAt_cut whole
  have value : leaf.valueAt front.length = e.2 := LeafNode.valueAt_cut whole
  refine ⟨{ leaf, leafId := under.childAt under.count, idx := front.length, current := some e },
    ?_, rfl⟩
  simp [last, descend, settle, rounds, size, first, second, third, real, count, key, value]

/-- The left half of a leaf once it has taken the entry in. -/
def LeafNode.leftTaking (leaf : LeafNode) (new : PageId) (key : Key) (value : Value) : LeafNode :=
  (leaf.leftHalf new).insertAt ((leaf.leftHalf new).at_ false key) key value

/-- What a full leaf becomes when the entry goes to its left half. -/
theorem insertLeaf_left {lid : PageId} {leaf : LeafNode} {key : Key}
    (standing : Standing s [Tree.ofLeaf lid leaf]) (full : leaf.isFull = true)
    (less : key < leaf.rightHalf.keyAt 0) (rounds : Nat) (value : Value) :
    ∃ s', insertRec alloc false (rounds + 1) lid key value true s =
        some ((some ⟨leaf.rightHalf.keyAt 0, s.handedOut alloc⟩, true), s') ∧
      s'.root = s.root ∧
      Became s [Tree.ofLeaf lid leaf] s' [Tree.ofLeaf lid (leaf.leftTaking (s.handedOut alloc) key
        value), Tree.ofLeaf (s.handedOut alloc) leaf.rightHalf] := by
  have here : s.nodes lid = .leaf leaf := standing.stored _ List.mem_cons_self
  have ran := @insertLeaf_full alloc false true key value s lid leaf present_not full _ _
    (.inl ⟨less, rfl, rfl⟩)
  exact ⟨_, (insertRec_leaf here).trans ran, rfl, .leaves alloc standing rfl rfl⟩

private theorem childAt_count {node : InternalNode} {children : List PageId} {c : PageId}
    (whole : node.children = children ++ [c]) (size : children.length = node.keys.length) :
    node.childAt node.count = c := by
  rw [InternalNode.count, InternalNode.childAt, whole, List.getD_eq_getElem?_getD, ← size,
    List.getElem?_concat_length]
  rfl

/-- A full root with equal separators, whose child has split with that separator too: the child's
right half becomes the last leaf of all. -/
theorem insert_ties {node : InternalNode} {key : Key} {value : Value} {m n : Nat} {new : PageId}
    {page : LeafNode} {front : List (Key × Value)} {e : Key × Value}
    (here : s.nodes s.root = .internal node) (full : node.isFull = true)
    (ties : node.keys = List.replicate (m + (m + 1)) k)
    (size : node.children.length = m + (m + 1) + 1) (enough : s.used.length = n + 1)
    (ran : insertRec alloc false (n + 1) (node.childAt (node.childIndexFor key)) key value true s =
      some ((some ⟨k, new⟩, true), s'))
    (used : new ∈ s'.used) (there : s'.nodes new = .leaf page) (apart : new ≠ s.root)
    (real : new ≠ kNullPage) (whole : page.entries = front ++ [e]) :
    ∃ s'', BTree.insert alloc false key value s = some (true, s'') ∧
      ∃ c, last s'' = some (c, s'') ∧ c.current = some e := by
  have up := @insertSplit_ties s' k s.root new node (node.childIndexFor key) m full ties size alloc
  have behind : (node.children.drop (m + 1)).length = m + 1 := by
    rw [List.length_drop, size]
    omega
  have ran' := insertRec_split here ran up
  generalize middle : ((s'.allocate alloc).write s.root _).write _ _ = s₂ at ran'
  have usedThere : s₂.used = s'.handedOut alloc :: s'.used := middle ▸ rfl
  have newRoot : s₂.handedOut alloc ∉ s₂.used := alloc.unused _ _
  have newRight : s'.handedOut alloc ∉ s'.used := alloc.unused _ _
  rw [usedThere, List.mem_cons, not_or] at newRoot
  have under : s₂.nodes (s'.handedOut alloc) = .internal
      ⟨List.replicate m k ++ [k], node.children.drop (m + 1) ++ [new]⟩ :=
    middle ▸ Function.update_self ..
  have leaf : s₂.nodes new = .leaf page := by
    have other : new ≠ s'.handedOut alloc := fun same => newRight (same ▸ used)
    rw [← middle, ← there]
    exact (Function.update_of_ne other _ _).trans (Function.update_of_ne apart _ _)
  have final := @childAt_count ⟨List.replicate m k ++ [k], node.children.drop (m + 1) ++ [new]⟩
    _ new rfl (behind.trans (by rw [List.length_append, List.length_replicate]; rfl))
  refine ⟨_, by simp [BTree.insert, insertWith, rounds, enough, ran']; rfl, ?_⟩
  apply @last_below _ ⟨[k], [s.root, s'.handedOut alloc]⟩
    ⟨List.replicate m k ++ [k], node.children.drop (m + 1) ++ [new]⟩ page front e
  · exact Function.update_self ..
  · exact (Function.update_of_ne (Ne.symm newRoot.1) _ _).trans under
  · rw [final]
    have other : new ≠ s₂.handedOut alloc := fun same => newRoot.2 (same ▸ used)
    exact (Function.update_of_ne other _ _).trans leaf
  · rwa [final]
  · exact whole
  · change 2 ≤ (s₂.handedOut alloc :: s₂.used).length
    rw [usedThere, List.length_cons, List.length_cons]
    omega

/-- The root splits when the first leaf does, and the leaf's right half becomes the last child of
all. -/
theorem Fronted.split (less : low < k) (fronted : Fronted s low k 127) (value : Value) :
    ∃ s', BTree.insert alloc false low value s = some (true, s') ∧
      ∃ c, last s' = some (c, s') ∧ c.current = some (k, 126) := by
  obtain ⟨id, lid, leaf, others, rooted, length, whole⟩ := fronted
  obtain ⟨below, used, outside, here⟩ := rooted.standing.below
  have root : s.root = id := rooted.root
  have same : (equals k 0 127).length = (equals low 0 127).length := by
    rw [length_equals, length_equals]
  have full : leaf.isFull = true := by
    apply decide_eq_true
    rw [LeafNode.count, whole, List.length_append, length_equals, length_equals]
    exact Nat.le_refl _
  have right := rightHalf_cut whole same
  have first : leaf.rightHalf.keyAt 0 = k := keyAt_equals right
  obtain ⟨n, size⟩ : ∃ n, s.used.length = n + 1 :=
    Nat.exists_eq_succ_of_ne_zero (Nat.ne_of_gt (List.length_pos_of_mem used))
  obtain ⟨s', ran, root', became⟩ := @insertLeaf_left alloc s lid leaf low below.only full
    (first ▸ less) n value
  rw [first] at ran
  have standing := became.standing
  have member : Tree.ofLeaf (s.handedOut alloc) leaf.rightHalf ∈
      [Tree.ofLeaf lid (leaf.leftTaking (s.handedOut alloc) low value),
        Tree.ofLeaf (s.handedOut alloc) leaf.rightHalf] :=
    List.mem_cons_of_mem _ List.mem_cons_self
  have unused : s.handedOut alloc ∉ s.used := alloc.unused _ _
  have place : (around [] [] (Tree.ofLeaf lid leaf) (List.replicate kInternalMaxKeys k)
      others).node.childIndexFor low = 0 :=
    @childIndexFor_eq _ [] _ (List.nil_append _) low (fun e never => absurd never List.not_mem_nil)
      (fun e member => List.eq_of_mem_replicate member ▸ less)
  apply @insert_ties alloc s s' k (around [] [] (Tree.ofLeaf lid leaf)
    (List.replicate kInternalMaxKeys k) others).node low value 169 n (s.handedOut alloc)
    leaf.rightHalf (equals k 0 126) (k, 126)
  · rwa [root]
  · exact decide_eq_true List.length_replicate.ge
  · rfl
  · simp [Row.node, Row.between, length]
    rfl
  · exact size
  · rw [place]
    exact ran
  · exact standing.owned _ (mem_idsOf.mpr ⟨_, member, Tree.id_mem _⟩)
  · exact standing.stored _ member
  · exact fun same => unused (same ▸ root ▸ used)
  · exact alloc.real _ _
  · rw [right]
    exact equals_succ k 0 126

/-- As many equal keys as fill the root, and then smaller keys until the first leaf splits. -/
theorem ties_misplaced {id : PageId} (rooted : Rooted s (Tree.ofLeaf id {})) (less : low < k) :
    ∃ s', Inserted alloc s (equals k 0 43181 ++ equals low 0 128) s' ∧
      ∃ c, last s' = some (c, s') ∧ c.current = some (k, 126) := by
  have most : kLeafMaxEntries = 254 := rfl
  have keys : kInternalMaxKeys = 339 := rfl
  obtain ⟨s₁, inserted, shape⟩ := @fill alloc s id rooted k 43181 (by omega)
  have fronted : Fronted s₁ low k 0 := by
    rcases shape with one | ⟨j, filled⟩
    · exact absurd one.room (by omega)
    · obtain rfl : j = kInternalMaxKeys := by
        have := filled.least
        have := filled.most
        omega
      exact filled.fronted low
  have before : ∀ p ≤ 127, ∃ s', Inserted alloc s (equals k 0 43181 ++ equals low 0 p) s' ∧
      Fronted s' low k p := by
    intro p bound
    induction p with
    | zero => exact ⟨s₁, (List.append_nil _).symm ▸ inserted, fronted⟩
    | succ p ih =>
      obtain ⟨s', inserted', fronted'⟩ := ih (Nat.le_of_succ_le bound)
      obtain ⟨s'', ran, next⟩ := @Fronted.next alloc _ _ _ _ less fronted' bound
      exact ⟨s'', inserted'.more ran, next⟩
  obtain ⟨s', inserted', fronted'⟩ := before 127 (Nat.le_refl _)
  obtain ⟨s'', ran, ends⟩ := @Fronted.split alloc _ _ _ less fronted' (UInt64.ofNat 127)
  exact ⟨s'', inserted'.more ran, ends⟩

end Front

end Labdb.BTree
