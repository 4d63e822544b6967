import Labdb.BTree.Holds

/-! Reading: a descent to the leaf where a key belongs, and a cursor that walks from there along
the chain of leaves. -/

namespace Labdb.BTree

open Labdb.Data Labdb.Data.Item Labdb.Query Labdb.Storage

variable {unique : Bool} {h : Nat}

section Leaves

def entriesIn (leaves : List LeafTree) : List (Key × Value) :=
  leaves.flatMap fun leaf => leaf.page.entries

@[simp] theorem entriesIn_append (front back : List LeafTree) :
    entriesIn (front ++ back) = entriesIn front ++ entriesIn back := List.flatMap_append

@[simp] theorem entriesIn_cons (leaf : LeafTree) (rest : List LeafTree) :
    entriesIn (leaf :: rest) = leaf.page.entries ++ entriesIn rest := List.flatMap_cons

private theorem mem_entriesIn {leaves : List LeafTree} {e : Key × Value} :
    e ∈ entriesIn leaves ↔ ∃ leaf ∈ leaves, e ∈ leaf.page.entries := List.mem_flatMap

theorem entriesOf_weave {keys : List Key} {blocks : List (List (Item Key Value))}
    (whole : blocks.length = keys.length + 1) :
    entriesOf (weave keys blocks) = blocks.flatMap entriesOf := by
  cases blocks with
  | nil => cases whole
  | cons first rest =>
    have same : keys.length = rest.length := (Nat.succ.inj whole).symm
    rw [weave, entriesOf_append, List.flatMap_cons]
    congr 1
    clear whole
    induction rest generalizing keys with
    | nil =>
      obtain rfl := List.length_eq_zero_iff.mp same
      rfl
    | cons items others ih =>
      cases keys with
      | nil => cases same
      | cons key keys =>
        rw [back_cons, entriesOf_append, entriesOf_sep, List.flatMap_cons, ih (Nat.succ.inj same)]

/-- The entries of a tree are those of its leaves. -/
theorem Tree.entries_leaves (t : Tree h) (sound : t.Sound) :
    entriesOf t.items = entriesIn t.leaves := by
  induction h with
  | zero =>
    obtain ⟨id, page⟩ : LeafTree := t
    exact (entriesOf_block page.entries).trans (List.append_nil _).symm
  | succ h ih =>
    obtain ⟨row, id⟩ : InnerTree (Tree h) := t
    obtain ⟨_, whole, each⟩ := sound
    change entriesOf (weave row.keys (row.kids.map Tree.items)) = entriesIn (leavesOf row.kids)
    rw [entriesOf_weave (by rw [List.length_map]; exact whole), List.flatMap_map]
    change ∀ kid ∈ row.kids, minCount h ≤ kid.count ∧ kid.Sound at each
    clear whole
    generalize row.kids = kids at each
    induction kids with
    | nil => rfl
    | cons kid rest ihKids =>
      rw [List.flatMap_cons, leavesOf_cons, entriesIn_append,
        ih kid (each kid List.mem_cons_self).2,
        ihKids fun other member => each other (List.mem_cons_of_mem _ member)]

theorem Tree.leaves_ids (t : Tree h) : (t.leaves.map LeafTree.id).Sublist t.ids := by
  induction h with
  | zero => exact List.Sublist.refl _
  | succ h ih =>
    obtain ⟨row, id⟩ : InnerTree (Tree h) := t
    change ((leavesOf row.kids).map LeafTree.id).Sublist (id :: idsOf row.kids)
    apply List.Sublist.cons
    induction row.kids with
    | nil => exact List.Sublist.refl _
    | cons kid rest ihKids =>
      rw [leavesOf_cons, List.map_append, idsOf_cons]
      exact (ih kid).append ihKids

theorem Tree.Stored.leaves {nodes : PageId → Node} {t : Tree h} (stored : t.Stored nodes) :
    ∀ leaf ∈ t.leaves, nodes leaf.id = .leaf leaf.page := by
  induction h with
  | zero =>
    intro leaf member
    obtain rfl := List.mem_singleton.mp member
    exact stored
  | succ h ih =>
    intro leaf member
    obtain ⟨kid, inside, under⟩ := List.mem_flatMap.mp member
    exact ih (stored.2 kid inside) leaf under

end Leaves

section Descend

variable {s : Store} {id : PageId} {rounds : Nat} {rule : InternalNode → Nat}
  {before after : LeafTree → Prop}

theorem descend_leaf {leaf : LeafNode} (here : s.nodes id = .leaf leaf) :
    descend rule (rounds + 1) id s = some ((id, leaf), s) := by
  simp [descend, here]

theorem descend_internal {node : InternalNode} (here : s.nodes id = .internal node) :
    descend rule (rounds + 1) id s = descend rule rounds (node.childAt (rule node)) s := by
  simp [descend, here]

/-- A rule that comes to a child for which something holds of all leaves before it, and something
else of all leaves behind. -/
def Cuts (unique : Bool) (rule : InternalNode → Nat) (before after : LeafTree → Prop) : Prop :=
  ∀ (h : Nat) (row : Row (Tree h)), row.kids.length = row.keys.length + 1 →
    (∀ kid ∈ row.kids, kid.Sound) → InOrder unique row.items →
    ∃ keys kids kid keys' kids', row = around keys kids kid keys' kids' ∧
      rule row.node = keys.length ∧ kids.length = keys.length ∧
      (∀ leaf ∈ leavesOf kids, before leaf) ∧ ∀ leaf ∈ leavesOf kids', after leaf

/-- A descent by the rule comes to a leaf that has both. Induction on the height. -/
theorem descend_spec (cuts : Cuts unique rule before after) (t : Tree h) (deep : h < rounds)
    (stored : t.Stored s.nodes) (sound : t.Sound) (inOrder : InOrder unique t.items) :
    ∃ front leaf back, t.leaves = front ++ leaf :: back ∧
      descend rule rounds t.id s = some ((leaf.id, leaf.page), s) ∧
      (∀ other ∈ front, before other) ∧ ∀ other ∈ back, after other := by
  induction h generalizing rounds with
  | zero =>
    obtain ⟨id, page⟩ : LeafTree := t
    obtain ⟨rounds, rfl⟩ := Nat.exists_eq_succ_of_ne_zero (Nat.ne_of_gt deep)
    exact ⟨[], ⟨id, page⟩, [], rfl, descend_leaf stored,
      fun _ never => absurd never List.not_mem_nil, fun _ never => absurd never List.not_mem_nil⟩
  | succ h ih =>
    obtain ⟨row, id⟩ : InnerTree (Tree h) := t
    obtain ⟨rounds, rfl⟩ := Nat.exists_eq_succ_of_ne_zero (Nat.ne_of_gt (Nat.zero_lt_of_lt deep))
    obtain ⟨_, whole, each⟩ := sound
    change row.kids.length = row.keys.length + 1 at whole
    change ∀ kid ∈ row.kids, minCount h ≤ kid.count ∧ kid.Sound at each
    change InOrder unique row.items at inOrder
    obtain ⟨here, below⟩ := stored
    change s.nodes id = .internal row.node at here
    change ∀ kid ∈ row.kids, kid.Stored s.nodes at below
    obtain ⟨keys, kids, kid, keys', kids', rfl, place, left, passed, ahead⟩ :=
      cuts h row whole (fun kid member => (each kid member).2) inOrder
    have kidIn : kid ∈ (around keys kids kid keys' kids').kids :=
      List.mem_append_left _ (List.mem_append_right _ List.mem_cons_self)
    have kidOrder : InOrder unique kid.items := by
      rw [Row.items_between left rfl, Row.items_one] at inOrder
      exact (inOrder_append.mp (inOrder_append.mp inOrder).1).2.1
    obtain ⟨front, leaf, back, leaves, ran, passed', ahead'⟩ :=
      ih kid (Nat.lt_of_succ_lt_succ deep) (below kid kidIn) (each kid kidIn).2 kidOrder
    refine ⟨leavesOf kids ++ front, leaf, back ++ leavesOf kids', ?_, ?_, ?_, ?_⟩
    · change leavesOf (kids ++ [kid] ++ kids') = _
      simp [leaves]
    · rw [← ran, ← childAt_around keys kids kid keys' kids', left, ← place]
      exact descend_internal here
    · exact fun other member => (List.mem_append.mp member).elim (passed other) (passed' other)
    · exact fun other member => (List.mem_append.mp member).elim (ahead' other) (ahead other)

end Descend

section Rules

/-- All keys of a leaf are below, are not below, or are above one. -/
def Below (lo : Key) (leaf : LeafTree) : Prop := ∀ e ∈ leaf.page.entries, e.1 < lo

def NotBelow (lo : Key) (leaf : LeafTree) : Prop := ∀ e ∈ leaf.page.entries, lo ≤ e.1

def Above (lo : Key) (leaf : LeafTree) : Prop := ∀ e ∈ leaf.page.entries, lo < e.1

/-- Entries of trees side by side are among their items. -/
theorem entry_mem {kids : List (Tree h)} (sound : ∀ kid ∈ kids, kid.Sound) {leaf : LeafTree}
    (member : leaf ∈ leavesOf kids) {e : Key × Value} (inside : e ∈ leaf.page.entries) :
    ∃ kid ∈ kids, Item.entry e.1 e.2 ∈ kid.items := by
  obtain ⟨kid, inKids, under⟩ := List.mem_flatMap.mp member
  refine ⟨kid, inKids, ?_⟩
  rw [← mem_entriesOf, kid.entries_leaves (sound kid inKids)]
  exact mem_entriesIn.mpr ⟨leaf, under, inside⟩

private theorem mem_front {keys : List Key} {blocks : List (List (Item Key Value))}
    (same : blocks.length = keys.length) {items : List (Item Key Value)} (member : items ∈ blocks)
    {x : Item Key Value} (inside : x ∈ items) : x ∈ front keys blocks := by
  induction blocks generalizing keys with
  | nil => exact absurd member List.not_mem_nil
  | cons first rest ih =>
    cases keys with
    | nil => cases same
    | cons key keys =>
      change x ∈ (first ++ [.sep key]) ++ front keys rest
      rcases List.mem_cons.mp member with rfl | later
      · exact List.mem_append_left _ (List.mem_append_left _ inside)
      · exact List.mem_append_right _ (ih (Nat.succ.inj same) later)

theorem mem_back {keys : List Key} {blocks : List (List (Item Key Value))}
    (same : blocks.length = keys.length) {items : List (Item Key Value)} (member : items ∈ blocks)
    {x : Item Key Value} (inside : x ∈ items) : x ∈ back keys blocks := by
  induction blocks generalizing keys with
  | nil => exact absurd member List.not_mem_nil
  | cons first rest ih =>
    cases keys with
    | nil => cases same
    | cons key keys =>
      rw [back_cons]
      rcases List.mem_cons.mp member with rfl | later
      · exact List.mem_append_left _ (List.mem_cons_of_mem _ inside)
      · exact List.mem_append_right _ (ih (Nat.succ.inj same) later)

/-- Where a row is cut, what lies before has a separator of the first part behind it, and what lies
behind has one of the second part before it. -/
theorem cut_bounds {row : Row (Tree h)} (whole : row.kids.length = row.keys.length + 1)
    (sound : ∀ kid ∈ row.kids, kid.Sound) (inOrder : InOrder unique row.items)
    {keys keys' : List Key} (cut : row.keys = keys ++ keys') :
    ∃ kids kid kids', row = around keys kids kid keys' kids' ∧ kids.length = keys.length ∧
      (∀ leaf ∈ leavesOf kids, ∀ e ∈ leaf.page.entries,
        ∃ k ∈ keys, Before unique (.entry e.1 e.2) (.sep k)) ∧
      ∀ leaf ∈ leavesOf kids', ∀ e ∈ leaf.page.entries, ∃ k ∈ keys', k ≤ e.1 := by
  obtain ⟨kids, kid, kids', rfl, left, right, -⟩ := Row.child whole cut rfl
  rw [Row.items_between left rfl, Row.items_one] at inOrder
  obtain ⟨first, last, -⟩ := inOrder_append.mp inOrder
  refine ⟨kids, kid, kids', rfl, left, fun leaf member e inside => ?_, fun leaf member e inside => ?_⟩
  · obtain ⟨other, inKids, under⟩ := entry_mem (fun other inKids => sound other
      (List.mem_append_left _ (List.mem_append_left _ inKids))) member inside
    apply before_sep_of_mem_front (inOrder_append.mp first).1
    exact mem_front (by rw [List.length_map, left]) (List.mem_map_of_mem inKids) under
  · obtain ⟨other, inKids, under⟩ := entry_mem (fun other inKids => sound other
      (List.mem_append_right _ inKids)) member inside
    have behind := @mem_back keys' (kids'.map Tree.items) (by rw [List.length_map, right])
      other.items (List.mem_map_of_mem inKids) _ under
    exact sep_le_of_mem_back last behind

theorem cuts_childIndexFor (lo : Key) :
    Cuts true (fun node => node.childIndexFor lo) (Below lo) (Above lo) := by
  intro h row whole sound inOrder
  obtain ⟨keys, keys', cut, length, small, large⟩ :=
    searchList_le (Row.sortedKeys inOrder whole) lo
  obtain ⟨kids, kid, kids', rfl, left, passed, ahead⟩ := cut_bounds whole sound inOrder cut
  refine ⟨keys, kids, kid, keys', kids', rfl, length.symm, left, fun leaf member e inside => ?_,
    fun leaf member e inside => ?_⟩
  · obtain ⟨k, known, before⟩ := passed leaf member e inside
    exact Std.lt_of_lt_of_le (before : e.1 < k) (small k known)
  · obtain ⟨k, known, least⟩ := ahead leaf member e inside
    exact Std.lt_of_lt_of_le (large k known) least

private theorem cuts_firstChildFor (lo : Key) :
    Cuts unique (fun node => node.firstChildFor lo) (Below lo) (NotBelow lo) := by
  intro h row whole sound inOrder
  obtain ⟨keys, keys', cut, length, small, large⟩ :=
    searchList_lt (Row.sortedKeys inOrder whole) lo
  obtain ⟨kids, kid, kids', rfl, left, passed, ahead⟩ := cut_bounds whole sound inOrder cut
  refine ⟨keys, kids, kid, keys', kids', rfl, length.symm, left, fun leaf member e inside => ?_,
    fun leaf member e inside => ?_⟩
  · obtain ⟨k, known, before⟩ := passed leaf member e inside
    exact Std.lt_of_le_of_lt before.le (small k known)
  · obtain ⟨k, known, least⟩ := ahead leaf member e inside
    exact Std.le_trans (large k known) least

private theorem cuts_count : Cuts unique InternalNode.count (fun _ => True) (fun _ => False) := by
  intro h row whole sound inOrder
  obtain ⟨kids, kid, kids', same, left, -⟩ :=
    cut_bounds whole sound inOrder (List.append_nil row.keys).symm
  have none : kids' = [] := by
    have size := congrArg (fun row : Row (Tree h) => row.kids.length) same
    simp only [Row.between, List.length_append, List.length_singleton, left, whole] at size
    exact List.eq_nil_of_length_eq_zero (by omega)
  refine ⟨row.keys, kids, kid, [], kids', same, rfl, left, fun _ _ => trivial, ?_⟩
  rw [none]
  exact fun leaf never => absurd never List.not_mem_nil

end Rules

section Search

variable {s : Store} {t : Tree h} {key lo : Key}

private theorem searchRec_eq (rounds : Nat) (id : PageId) : searchRec rounds id key s =
    (descend (fun node => node.childIndexFor key) rounds id s).map fun out =>
      (if out.1.2.lowerBound key < out.1.2.count ∧
          out.1.2.keyAt (out.1.2.lowerBound key) = key then
        some (out.1.2.valueAt (out.1.2.lowerBound key)) else none, out.2) := by
  induction rounds generalizing id with
  | zero => rfl
  | succ rounds ih =>
    cases here : s.nodes id with
    | leaf page => simp [searchRec, descend, here]
    | internal node => simp [searchRec, descend, here, ih]

/-- A search finds the entry with the key, if there is one. -/
theorem Tenant.search (tenant : Tenant true s t) (key : Key) :
    ∃ found, Labdb.BTree.search true key s = some (found, s) ∧
      ∀ v, found = some v ↔ (key, v) ∈ entriesOf t.items := by
  obtain ⟨front, leaf, back, leaves, ran, passed, ahead⟩ :=
    descend_spec (cuts_childIndexFor key) t tenant.deep (tenant.standing.stored t List.mem_cons_self)
      tenant.sound tenant.inOrder
  rw [← tenant.root] at ran
  have whole : entriesOf t.items = entriesIn front ++ (leaf.page.entries ++ entriesIn back) := by
    rw [t.entries_leaves tenant.sound, leaves, entriesIn_append, entriesIn_cons]
  have sorted : (leaf.page.entries).Pairwise fun a b => a.1 < b.1 := by
    have all := tenant.inOrder.entries
    rw [whole] at all
    exact (List.pairwise_append.mp (List.pairwise_append.mp all).2.1).1
  have outside : ∀ v, (key, v) ∈ entriesOf t.items ↔ (key, v) ∈ leaf.page.entries := by
    intro v
    rw [whole, List.mem_append, List.mem_append]
    constructor
    · rintro (inFront | here | inBack)
      · obtain ⟨other, member, inside⟩ := mem_entriesIn.mp inFront
        exact absurd (passed other member _ inside) (Std.lt_irrefl)
      · exact here
      · obtain ⟨other, member, inside⟩ := mem_entriesIn.mp inBack
        exact absurd (ahead other member _ inside) (Std.lt_irrefl)
    · exact fun here => .inr (.inl here)
  rcases leaf.page.found_or_absent (sorted.imp Std.le_of_lt) key with
    ⟨first, v, last, cut, length, found⟩ | ⟨none, absent⟩
  · have value : leaf.page.valueAt (leaf.page.lowerBound key) = v :=
      length ▸ LeafNode.valueAt_cut cut
    refine ⟨some v, by simp [Labdb.BTree.search, searchRec_eq, ran, found, value], fun other => ?_⟩
    rw [outside other, cut]
    constructor
    · intro same
      obtain rfl := Option.some.inj same
      exact List.mem_append_right _ List.mem_cons_self
    · intro member
      rw [cut] at sorted
      obtain ⟨-, after, across⟩ := List.pairwise_append.mp sorted
      rcases List.mem_append.mp member with inFirst | inRest
      · exact absurd (across _ inFirst _ List.mem_cons_self) Std.lt_irrefl
      · rcases List.mem_cons.mp inRest with same | inLast
        · exact congrArg some (Prod.mk.inj same).2.symm
        · exact absurd ((List.pairwise_cons.mp after).1 _ inLast) Std.lt_irrefl
  · refine ⟨.none, by simp [Labdb.BTree.search, searchRec_eq, ran, none], fun v => ?_⟩
    rw [outside v]
    exact ⟨fun never => absurd never (by simp), fun member => absurd rfl (absent (key, v) member)⟩

theorem search_spec (holds : Holds true s t) (key : Key) :
    ∃ found, search true key s = some (found, s) ∧
      ∀ v, found = some v ↔ (key, v) ∈ entriesOf t.items :=
  holds.tenant.search key

end Search

section Walk

/-- The entries that a cursor meets from where it is, `count` of them at most. -/
def walk : Nat → Cursor → TreeM (List (Key × Value))
  | 0, _ => pure []
  | count + 1, c =>
    match c.current with
    | none => pure []
    | some e => do
      let c ← c.next
      let rest ← walk count c
      pure (e :: rest)

variable {s : Store} {c : Cursor} {rounds : Nat} {t : Tree h}

/-- Leaves on the pages of a store, each linked to the next one. -/
structure Chain (s : Store) (leaves : List LeafTree) : Prop where
  stored : ∀ leaf ∈ leaves, s.nodes leaf.id = .leaf leaf.page ∧ leaf.id ≠ kNullPage
  linked : Linked leaves kNullPage
  short : leaves.length ≤ s.used.length

theorem Chain.tail {leaf : LeafTree} {rest : List LeafTree} (chain : Chain s (leaf :: rest)) :
    Chain s rest where
  stored other member := chain.stored other (List.mem_cons_of_mem _ member)
  linked := chain.linked.2
  short := (Nat.le_succ _).trans chain.short

/-- A cursor at a place in a leaf of a chain, and the entries from there on. -/
def Stands (s : Store) (c : Cursor) (ahead : List (Key × Value)) : Prop :=
  ∃ leaf rest, c.leaf = leaf.page ∧ c.leafId = leaf.id ∧ Chain s (leaf :: rest) ∧
    ahead = leaf.page.entries.drop c.idx ++ entriesIn rest

/-- A settled cursor has the first entry ahead of it, or there is none. -/
structure Reads (s : Store) (c : Cursor) (ahead : List (Key × Value)) : Prop where
  current : c.current = ahead.head?
  stands : ahead ≠ [] → Stands s c ahead ∧ c.idx < c.leaf.count

section Settle

variable {leaf next : LeafTree} {rest : List LeafTree} {ahead : List (Key × Value)}
  (page : c.leaf = leaf.page) (id : c.leafId = leaf.id)

include page id

/-- An entry is left in the cursor's leaf. -/
theorem settle_here (chain : Chain s (leaf :: rest)) (inside : c.idx < leaf.page.count)
    (whole : ahead = leaf.page.entries.drop c.idx ++ entriesIn rest) :
    ∃ c', settle (rounds + 1) c s = some (c', s) ∧ Reads s c' ahead := by
  obtain ⟨front, e, back, cut, place⟩ := exists_place inside
  have first : leaf.page.entries.drop c.idx = e :: back := by
    rw [cut, ← place, List.drop_left]
  have real := (chain.stored leaf List.mem_cons_self).2
  have key : leaf.page.keyAt c.idx = e.1 := place ▸ LeafNode.keyAt_cut cut
  have value : leaf.page.valueAt c.idx = e.2 := place ▸ LeafNode.valueAt_cut cut
  refine ⟨{ c with current := some e }, ?_, ?_, fun _ => ⟨⟨leaf, rest, page, id, chain, whole⟩, ?_⟩⟩
  · simp [settle, id, real, page, inside, key, value]
  · rw [whole, first]
    rfl
  · rw [page]
    exact inside

private theorem settle_end (chain : Chain s [leaf]) (past : leaf.page.count ≤ c.idx) :
    ∃ c', settle (rounds + 1) c s = some (c', s) ∧
      Reads s c' (leaf.page.entries.drop c.idx ++ entriesIn []) := by
  have none : leaf.page.entries.drop c.idx ++ entriesIn [] = [] := by
    rw [List.drop_of_length_le past]
    rfl
  have real := (chain.stored leaf List.mem_cons_self).2
  have last : leaf.page.next = kNullPage := chain.linked.1
  rw [none]
  refine ⟨{ c with leafId := kNullPage, current := .none }, ?_, rfl, fun never => absurd rfl never⟩
  simp [settle, id, real, page, Nat.not_lt.mpr past, last]

theorem settle_next (chain : Chain s (leaf :: next :: rest)) (past : leaf.page.count ≤ c.idx) :
    settle (rounds + 1) c s =
      settle rounds { c with leafId := next.id, leaf := next.page, idx := 0 } s := by
  have real := (chain.stored leaf List.mem_cons_self).2
  obtain ⟨here, real'⟩ := chain.stored next (List.mem_cons_of_mem _ List.mem_cons_self)
  have link : leaf.page.next = next.id := chain.linked.1
  simp [settle, id, real, page, Nat.not_lt.mpr past, link, here, real']

end Settle

/-- A cursor settles on the first entry ahead of it. Induction on the leaves that follow. -/
theorem settle_spec {ahead : List (Key × Value)} (stands : Stands s c ahead)
    (enough : s.used.length < rounds) :
    ∃ c', settle rounds c s = some (c', s) ∧ Reads s c' ahead := by
  obtain ⟨leaf, rest, page, id, chain, whole⟩ := stands
  replace enough : rest.length < rounds := Nat.lt_of_lt_of_le (Nat.lt_succ_self _)
    (chain.short.trans enough.le)
  induction rest generalizing rounds c leaf with
  | nil =>
    obtain ⟨rounds, rfl⟩ := Nat.exists_eq_succ_of_ne_zero (Nat.ne_of_gt enough)
    rcases Nat.lt_or_ge c.idx leaf.page.count with inside | past
    · exact settle_here page id chain inside whole
    · rw [whole]
      exact settle_end page id chain past
  | cons next rest ih =>
    obtain ⟨rounds, rfl⟩ := Nat.exists_eq_succ_of_ne_zero (Nat.ne_of_gt (Nat.zero_lt_of_lt enough))
    rcases Nat.lt_or_ge c.idx leaf.page.count with inside | past
    · exact settle_here page id chain inside whole
    · rw [settle_next page id chain past]
      refine @ih { c with leafId := next.id, leaf := next.page, idx := 0 } rounds next rfl rfl
        chain.tail ?_ ?_
      · rw [whole, List.drop_of_length_le past]
        rfl
      · exact Nat.lt_of_succ_lt_succ enough

theorem Reads.next {e : Key × Value} {ahead : List (Key × Value)} (reads : Reads s c (e :: ahead)) :
    ∃ c', c.next s = some (c', s) ∧ Reads s c' ahead := by
  obtain ⟨⟨leaf, rest, page, id, chain, whole⟩, inside⟩ := reads.stands (List.cons_ne_nil _ _)
  rw [page] at inside
  obtain ⟨front, first, back, cut, place⟩ := exists_place inside
  have here : leaf.page.entries.drop c.idx = first :: back := by
    rw [cut, ← place, List.drop_left]
  have after : leaf.page.entries.drop (c.idx + 1) = back := by
    rw [← List.drop_drop, here]
    rfl
  rw [here, List.cons_append] at whole
  have stands : Stands s { c with idx := c.idx + 1 } ahead :=
    ⟨leaf, rest, page, id, chain, after ▸ (List.cons.inj whole).2⟩
  obtain ⟨c', settled, reads'⟩ := @settle_spec s _ (rounds s) ahead stands (Nat.lt_succ_self _)
  exact ⟨c', by simpa [Cursor.next] using settled, reads'⟩

/-- A walk meets the entries ahead in their order, and ends behind the last one. -/
theorem Reads.walk {ahead : List (Key × Value)} (reads : Reads s c ahead) (count : Nat) :
    walk count c s = some (ahead.take count, s) := by
  induction count generalizing c ahead with
  | zero => rfl
  | succ count ih =>
    have current := reads.current
    cases ahead with
    | nil => simp [Labdb.BTree.walk, current]
    | cons e ahead =>
      obtain ⟨c', moved, reads'⟩ := reads.next
      simp [Labdb.BTree.walk, current, moved, ih reads']

end Walk

section Positions

variable {s : Store} {t : Tree h}

theorem Tenant.chain (tenant : Tenant unique s t) : Chain s t.leaves where
  stored leaf member := by
    have inside : leaf.id ∈ t.ids := t.leaves_ids.subset (List.mem_map_of_mem member)
    exact ⟨(tenant.standing.stored t List.mem_cons_self).leaves leaf member, tenant.real _ inside⟩
  linked := tenant.linked
  short := by
    have within := t.leaves_ids.length_le
    rw [List.length_map] at within
    exact within.trans tenant.size

theorem Chain.from_ {front back : List LeafTree} (chain : Chain s (front ++ back)) : Chain s back := by
  induction front with
  | nil => exact chain
  | cons leaf rest ih => exact ih chain.tail

private theorem seekBy_spec {rule : InternalNode → Key → Nat} {lo : Key} {after : LeafTree → Prop}
    (tenant : Tenant unique s t) (cuts : Cuts unique (rule · lo) (Below lo) after)
    (notBelow : ∀ leaf, after leaf → NotBelow lo leaf) :
    ∃ c, seekBy rule lo s = some (c, s) ∧
      Reads s c ((entriesOf t.items).filter fun e => lo ≤ e.1) := by
  obtain ⟨front, leaf, back, leaves, ran, passed, ahead⟩ :=
    descend_spec cuts t tenant.deep (tenant.standing.stored t List.mem_cons_self) tenant.sound
      tenant.inOrder
  rw [← tenant.root] at ran
  have whole : entriesOf t.items = entriesIn front ++ (leaf.page.entries ++ entriesIn back) := by
    rw [t.entries_leaves tenant.sound, leaves, entriesIn_append, entriesIn_cons]
  have sorted : leaf.page.entries.Pairwise fun a b => a.1 ≤ b.1 := by
    have all := @sorted_of_inOrder unique (entriesOf t.items)
      (inOrder_block.mpr tenant.inOrder.entries)
    rw [whole] at all
    exact (List.pairwise_append.mp (List.pairwise_append.mp all).2.1).1
  obtain ⟨first, last, cut, length, below, above⟩ := searchList_lt sorted lo
  have place : leaf.page.lowerBound lo = first.length := length.symm
  have filtered : (entriesOf t.items).filter (fun e => lo ≤ e.1) = last ++ entriesIn back := by
    have noFront : (entriesIn front).filter (fun e => decide (lo ≤ e.1)) = [] := by
      apply List.filter_eq_nil_iff.mpr
      intro e member
      obtain ⟨other, inFront, inside⟩ := mem_entriesIn.mp member
      simpa using Std.not_le.mpr (passed other inFront e inside)
    have noFirst : first.filter (fun e => decide (lo ≤ e.1)) = [] := by
      apply List.filter_eq_nil_iff.mpr
      intro e member
      simpa using Std.not_le.mpr (below e member)
    have allLast : last.filter (fun e => decide (lo ≤ e.1)) = last := by
      apply List.filter_eq_self.mpr
      exact fun e member => decide_eq_true (above e member)
    have allBack : (entriesIn back).filter (fun e => decide (lo ≤ e.1)) = entriesIn back := by
      apply List.filter_eq_self.mpr
      intro e member
      obtain ⟨other, inBack, inside⟩ := mem_entriesIn.mp member
      exact decide_eq_true (notBelow other (ahead other inBack) e inside)
    rw [whole, cut, List.filter_append, List.filter_append, List.filter_append, noFront, noFirst,
      allLast, allBack]
    rfl
  have stands : Stands s { leaf := leaf.page, leafId := leaf.id, idx := leaf.page.lowerBound lo }
      ((entriesOf t.items).filter fun e => lo ≤ e.1) := by
    refine ⟨leaf, back, rfl, rfl, Chain.from_ (leaves ▸ tenant.chain), ?_⟩
    rw [filtered, place, cut, List.drop_left]
  obtain ⟨c, settled, reads⟩ := @settle_spec s _ (rounds s) _ stands (Nat.lt_succ_self _)
  exact ⟨c, by simpa [seekBy, ran] using settled, reads⟩

/-- A seek is ahead of the entries that are not below the key. -/
theorem Tenant.seek (tenant : Tenant unique s t) (lo : Key) :
    ∃ c, Labdb.BTree.seek unique lo s = some (c, s) ∧
      Reads s c ((entriesOf t.items).filter fun e => lo ≤ e.1) := by
  cases unique with
  | true =>
    exact seekBy_spec tenant (cuts_childIndexFor lo) fun leaf above e inside =>
      Std.le_of_lt (above e inside)
  | false => exact seekBy_spec tenant (cuts_firstChildFor lo) fun leaf above => above

theorem seek_spec (holds : Holds unique s t) (lo : Key) : ∃ c, seek unique lo s = some (c, s) ∧
    Reads s c ((entriesOf t.items).filter fun e => lo ≤ e.1) :=
  holds.tenant.seek lo

private theorem Tree.leaf_enough (t : Tree h) (sound : t.Sound) (enough : minCount h ≤ t.count) :
    ∀ leaf ∈ t.leaves, kLeafMinEntries ≤ leaf.page.entries.length := by
  induction h with
  | zero =>
    intro leaf member
    obtain rfl := List.mem_singleton.mp member
    exact enough
  | succ h ih =>
    intro leaf member
    obtain ⟨kid, inside, under⟩ := List.mem_flatMap.mp member
    obtain ⟨kidEnough, kidSound⟩ := sound.2.2 kid inside
    exact ih kid kidSound kidEnough leaf under

/-- Only a tree that is one leaf can have an empty one. -/
theorem Tree.empty_leaf (t : Tree h) (sound : t.Sound) {leaf : LeafTree} (member : leaf ∈ t.leaves)
    (empty : leaf.page.entries = []) : t.leaves = [leaf] := by
  cases h with
  | zero =>
    obtain rfl := List.mem_singleton.mp member
    rfl
  | succ h =>
    obtain ⟨kid, inside, under⟩ := List.mem_flatMap.mp member
    obtain ⟨kidEnough, kidSound⟩ := sound.2.2 kid inside
    have enough := kid.leaf_enough kidSound kidEnough leaf under
    rw [empty] at enough
    exact absurd enough (by decide)

/-- The last entry, if there is one. -/
theorem Tenant.last (tenant : Tenant unique s t) : ∃ c, Labdb.BTree.last s = some (c, s) ∧
    Reads s c (entriesOf t.items).getLast?.toList := by
  obtain ⟨front, leaf, back, leaves, ran, -, ahead⟩ :=
    descend_spec cuts_count t tenant.deep (tenant.standing.stored t List.mem_cons_self) tenant.sound
      tenant.inOrder
  rw [← tenant.root] at ran
  obtain rfl : back = [] := List.eq_nil_iff_forall_not_mem.mpr ahead
  have whole : entriesOf t.items = entriesIn front ++ leaf.page.entries := by
    rw [t.entries_leaves tenant.sound, leaves, entriesIn_append, entriesIn_cons]
    exact congrArg (entriesIn front ++ ·) (List.append_nil _)
  have stands : Stands s { leaf := leaf.page, leafId := leaf.id, idx := leaf.page.count - 1 }
      (entriesOf t.items).getLast?.toList := by
    refine ⟨leaf, [], rfl, rfl, Chain.from_ (leaves ▸ tenant.chain), ?_⟩
    rcases Nat.eq_zero_or_pos leaf.page.entries.length with none | some_
    · have empty := List.eq_nil_of_length_eq_zero none
      have only := t.empty_leaf tenant.sound
        (leaves ▸ List.mem_append_right _ List.mem_cons_self : leaf ∈ t.leaves) empty
      rw [only] at leaves
      obtain rfl : front = [] := by
        have size := congrArg List.length leaves
        simp only [List.length_append, List.length_cons, List.length_nil] at size
        exact List.eq_nil_of_length_eq_zero (by omega)
      rw [whole, empty, List.drop_nil]
      rfl
    · obtain ⟨others, e, cut, place⟩ := exists_last some_
      rw [LeafNode.count, place, whole, cut, List.drop_left, ← List.append_assoc,
        List.getLast?_concat]
      rfl
  obtain ⟨c, settled, reads⟩ := @settle_spec s _ (rounds s) _ stands (Nat.lt_succ_self _)
  exact ⟨c, by simpa [Labdb.BTree.last, ran] using settled, reads⟩

theorem last_spec (holds : Holds unique s t) : ∃ c, last s = some (c, s) ∧
    Reads s c (entriesOf t.items).getLast?.toList :=
  holds.tenant.last

end Positions

end Labdb.BTree
