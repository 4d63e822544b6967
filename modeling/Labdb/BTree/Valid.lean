import Labdb.BTree.Walk

/-! What a reader of the pages sees of a tree: its nodes, the separators that bound the trees below
them, and the chain of its leaves. -/

namespace Labdb.BTree

open Labdb.Data Labdb.Data.Item Labdb.Query Labdb.Storage

variable {h : Nat}

/-- The separators of every node bound the trees on both sides of them. -/
def Tree.Separates (strict : Bool) : {h : Nat} → Tree h → Prop
  | 0, _ => True
  | h + 1, (t : InnerTree (Tree h)) =>
    (∀ (i : Nat) (key : Key), t.keys[i]? = some key → ∀ (j : Nat) (kid : Tree h),
      t.kids[j]? = some kid →
      ∀ e ∈ entriesOf kid.items,
        if j ≤ i then (if strict then e.1 < key else e.1 ≤ key) else key ≤ e.1) ∧
    ∀ kid ∈ t.kids, Separates strict kid

private theorem mem_weave {keys : List Key} {blocks : List (List (Item Key Value))}
    (whole : blocks.length = keys.length + 1) {items : List (Item Key Value)}
    (member : items ∈ blocks) {x : Item Key Value} (inside : x ∈ items) : x ∈ weave keys blocks := by
  cases blocks with
  | nil => exact absurd member List.not_mem_nil
  | cons first rest =>
    rcases List.mem_cons.mp member with rfl | later
    · exact List.mem_append_left _ inside
    · exact List.mem_append_right _ (mem_back (Nat.succ.inj whole) later inside)

theorem Tree.separates {unique : Bool} (t : Tree h) (sound : t.Sound)
    (inOrder : InOrder unique t.items) : t.Separates unique := by
  induction h with
  | zero => exact trivial
  | succ h ih =>
    obtain ⟨row, id⟩ : InnerTree (Tree h) := t
    obtain ⟨_, whole, each⟩ := sound
    change row.kids.length = row.keys.length + 1 at whole
    change ∀ kid ∈ row.kids, minCount h ≤ kid.count ∧ kid.Sound at each
    change InOrder unique row.items at inOrder
    refine ⟨fun i key hasKey j kid hasKid e member => ?_, fun kid member => ?_⟩
    · obtain ⟨keys, keys', cut, length⟩ :
          ∃ keys keys', row.keys = keys ++ key :: keys' ∧ keys.length = i := by
        obtain ⟨inside, rfl⟩ := List.getElem?_eq_some_iff.mp hasKey
        refine ⟨row.keys.take i, row.keys.drop (i + 1), ?_, List.length_take_of_le inside.le⟩
        change row.keys = row.keys.take i ++ row.keys[i] :: row.keys.drop (i + 1)
        rw [List.getElem_cons_drop, List.take_append_drop]
      change row.kids[j]? = some kid at hasKid
      have size : (row.kids.take (i + 1)).length = keys.length + 1 := by
        rw [List.length_take_of_le, length]
        rw [whole, cut, List.length_append, List.length_cons, length]
        omega
      have size' : (row.kids.drop (i + 1)).length = keys'.length + 1 := by
        rw [List.length_drop, whole, cut, List.length_append, List.length_cons, length]
        omega
      have items := Row.items_append ⟨keys, row.kids.take (i + 1)⟩ ⟨keys', row.kids.drop (i + 1)⟩ key
        size (List.ne_nil_of_length_pos (size'.symm ▸ Nat.succ_pos _))
      simp only [← cut, List.take_append_drop] at items
      change row.items = _ at items
      rw [items] at inOrder
      obtain ⟨_, last, across⟩ := inOrder_append.mp inOrder
      rw [mem_entriesOf] at member
      by_cases left : j ≤ i
      · rw [if_pos left]
        have inLeft : kid ∈ row.kids.take (i + 1) := by
          apply List.mem_of_getElem? (i := j)
          rw [List.getElem?_take_of_lt (Nat.lt_succ_of_le left)]
          exact hasKid
        have before := across _ (mem_weave (by rw [List.length_map, size])
          (List.mem_map_of_mem inLeft) member) _ List.mem_cons_self
        exact before
      · rw [if_neg left]
        have inRight : kid ∈ row.kids.drop (i + 1) := by
          apply List.mem_of_getElem? (i := j - (i + 1))
          rw [List.getElem?_drop, Nat.add_sub_cancel' (by omega)]
          exact hasKid
        exact (List.pairwise_cons.mp last).1 _ (mem_weave (by rw [List.length_map, size'])
          (List.mem_map_of_mem inRight) member)
    · obtain ⟨kids, kids', cut⟩ := List.append_of_mem member
      apply ih kid (each kid member).2
      obtain ⟨keys, keys', cutKeys, length⟩ :
          ∃ keys keys', row.keys = keys ++ keys' ∧ keys.length = kids.length := by
        refine ⟨row.keys.take kids.length, row.keys.drop kids.length,
          (List.take_append_drop _ _).symm, List.length_take_of_le ?_⟩
        rw [cut, List.length_append, List.length_cons] at whole
        omega
      have items := @Row.items_between h keys keys' kids kids' ⟨[], [kid]⟩ length.symm rfl
      have same : (⟨[], [kid]⟩ : Row (Tree h)).between keys kids keys' kids' = row := by
        obtain ⟨rowKeys, rowKids⟩ := row
        simp only at cut cutKeys
        simp [Row.between, cut, cutKeys]
      rw [same, Row.items_one] at items
      rw [items] at inOrder
      exact (inOrder_append.mp (inOrder_append.mp inOrder).1).2.1

/-- A B+tree on the pages of a store: all leaves at one depth (`h`), every node but the root at
least half full, separators that bound the trees on both sides of them, the leaves in that order in
the sibling chain, and no page in use but the tree's own. -/
structure Valid (unique : Bool) (s : Store) (t : Tree h) : Prop where
  stored : t.Stored s.nodes
  root : s.root = t.id
  sound : t.Sound
  branches : 0 < h → 0 < t.count
  separates : t.Separates unique
  linked : Linked t.leaves kNullPage
  distinct : t.ids.Nodup
  pages : ∀ id, id ∈ s.used ↔ id ∈ t.ids

theorem Holds.valid {unique : Bool} {s : Store} {t : Tree h} (holds : Holds unique s t) :
    Valid unique s t where
  stored := holds.standing.stored t List.mem_cons_self
  root := holds.root
  sound := holds.sound
  branches := holds.branches
  separates := t.separates holds.sound holds.inOrder
  linked := holds.linked
  distinct := by simpa using holds.standing.nodup
  pages := holds.pages

/-- The empty leaf that a constructor plants. -/
theorem Holds.plant (alloc : Allocator) (unique : Bool) (nodes : PageId → Node) (root : PageId) :
    ∃ s id, plant alloc { nodes, used := [], root } = some ((), s) ∧
      Holds unique s (Tree.ofLeaf id {}) := by
  refine ⟨_, alloc.pick 0 [], rfl, ?_⟩
  constructor
  · constructor
    · intro t member
      obtain rfl := List.mem_singleton.mp member
      exact Function.update_self _ _ _
    · exact List.nodup_singleton _
    · exact fun id member => member
  · rfl
  · exact Nat.zero_le _
  · exact fun never => absurd never (Nat.lt_irrefl 0)
  · exact List.Pairwise.nil
  · exact ⟨rfl, trivial⟩
  · exact fun id => Iff.rfl
  · intro id member
    obtain rfl := List.mem_singleton.mp member
    exact alloc.real _ _

end Labdb.BTree
