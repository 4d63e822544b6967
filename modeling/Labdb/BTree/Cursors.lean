import Labdb.BTree.Walk

/-! A cursor among the leaves of a tree: it stays among them, and it may go on once other pages of
the store have changed. -/

namespace Labdb.BTree

open Labdb.Data Labdb.Data.Item Labdb.Query Labdb.Storage

variable {h : Nat} {s s' : Store} {leaves : List LeafTree} {c c' : Cursor} {ahead : List (Key × Value)}

private theorem Linked.next_mem {last : PageId} (linked : Linked leaves last) {leaf : LeafTree}
    (member : leaf ∈ leaves) : leaf.page.next = last ∨ ∃ next ∈ leaves, leaf.page.next = next.id := by
  induction leaves with
  | nil => exact absurd member List.not_mem_nil
  | cons first rest ih =>
    rcases List.mem_cons.mp member with rfl | inRest
    · cases rest with
      | nil => exact .inl linked.1
      | cons next others =>
        exact .inr ⟨next, List.mem_cons_of_mem _ List.mem_cons_self, linked.1⟩
    · rcases ih linked.2 inRest with ends | ⟨next, isLeaf, goes⟩
      · exact .inl ends
      · exact .inr ⟨next, List.mem_cons_of_mem _ isLeaf, goes⟩

private theorem Chain.same_leaf {leaf leaf' : LeafTree} {rest rest' : List LeafTree}
    (chain : Chain s (leaf :: rest)) (chain' : Chain s (leaf' :: rest')) (same : leaf.id = leaf'.id) :
    leaf = leaf' := by
  have here := (chain.stored leaf List.mem_cons_self).1
  have there := (chain'.stored leaf' List.mem_cons_self).1
  rw [same, there] at here
  obtain ⟨id, page⟩ := leaf
  obtain ⟨id', page'⟩ := leaf'
  obtain rfl : id = id' := same
  obtain rfl : page' = page := Node.leaf.inj here
  rfl

/-- From one page on there is one chain. -/
theorem Chain.unique {leaf leaf' : LeafTree} {rest rest' : List LeafTree}
    (chain : Chain s (leaf :: rest)) (chain' : Chain s (leaf' :: rest')) (same : leaf.id = leaf'.id) :
    rest = rest' := by
  induction rest generalizing leaf leaf' rest' with
  | nil =>
    obtain rfl := chain.same_leaf chain' same
    cases rest' with
    | nil => rfl
    | cons next' rest' =>
      have ends : leaf.page.next = kNullPage := chain.linked.1
      have goes : leaf.page.next = next'.id := chain'.linked.1
      exact absurd (goes.symm.trans ends) (chain'.tail.stored next' List.mem_cons_self).2
  | cons next rest ih =>
    obtain rfl := chain.same_leaf chain' same
    have goes : leaf.page.next = next.id := chain.linked.1
    cases rest' with
    | nil =>
      have ends : leaf.page.next = kNullPage := chain'.linked.1
      exact absurd (goes.symm.trans ends) (chain.tail.stored next List.mem_cons_self).2
    | cons next' rest' =>
      have goes' : leaf.page.next = next'.id := chain'.linked.1
      have sameNext := goes.symm.trans goes'
      obtain rfl := chain.tail.same_leaf chain'.tail sameNext
      rw [ih chain.tail chain'.tail rfl]

/-- The cursor is at a leaf of the chain, or past its end. -/
def Among (leaves : List LeafTree) (c : Cursor) : Prop :=
  c.leafId = kNullPage ∨ ∃ leaf ∈ leaves, c.leafId = leaf.id ∧ c.leaf = leaf.page

private theorem settle_among {rounds : Nat} (chain : Chain s leaves) (among : Among leaves c)
    (ran : settle rounds c s = some (c', s')) : Among leaves c' := by
  induction rounds generalizing c with
  | zero => cases ran
  | succ rounds ih =>
    rw [settle] at ran
    split at ran
    · rename_i ends
      obtain ⟨rfl, -⟩ := Prod.mk.inj (Option.some.inj ran)
      exact .inl ends
    · rename_i real
      obtain ⟨leaf, member, id, page⟩ := among.resolve_left real
      split at ran
      · obtain ⟨rfl, -⟩ := Prod.mk.inj (Option.some.inj ran)
        exact .inr ⟨leaf, member, id, page⟩
      · split at ran
        · obtain ⟨rfl, -⟩ := Prod.mk.inj (Option.some.inj ran)
          exact .inl rfl
        · rename_i goesOn
          rw [page] at goesOn
          obtain ⟨next, isLeaf, goes⟩ :=
            (Linked.next_mem chain.linked member).resolve_left goesOn
          have here : s.nodes c.leaf.next = .leaf next.page := by
            rw [page, goes]
            exact (chain.stored next isLeaf).1
          simp only [bind_apply, readPage_apply, here, Option.bind_some] at ran
          exact ih (.inr ⟨next, isLeaf, by rw [page, goes], rfl⟩) ran

/-- A cursor that is ahead of some entries, at a leaf of the chain. -/
structure Walking (s : Store) (leaves : List LeafTree) (c : Cursor) (ahead : List (Key × Value)) :
    Prop where
  chain : Chain s leaves
  reads : Reads s c ahead
  among : Among leaves c

theorem Walking.next {e : Key × Value} (walking : Walking s leaves c (e :: ahead)) :
    ∃ c', c.next s = some (c', s) ∧ Walking s leaves c' ahead := by
  obtain ⟨c', moved, reads⟩ := walking.reads.next
  refine ⟨c', moved, walking.chain, reads, ?_⟩
  have settled : settle (rounds s) { c with idx := c.idx + 1 } s = some (c', s) := moved
  have among : Among leaves { c with idx := c.idx + 1 } := walking.among
  exact settle_among walking.chain among settled

/-- Another store with the same chain. -/
theorem Walking.congr (walking : Walking s leaves c ahead) (chain' : Chain s' leaves) :
    Walking s' leaves c ahead where
  chain := chain'
  among := walking.among
  reads := by
    refine ⟨walking.reads.current, fun some_ => ?_⟩
    obtain ⟨⟨leaf, rest, page, id, chain, whole⟩, inside⟩ := walking.reads.stands some_
    have real := (chain.stored leaf List.mem_cons_self).2
    obtain ⟨other, member, isId, -⟩ := walking.among.resolve_left (id ▸ real)
    obtain ⟨front, back, rfl⟩ := List.append_of_mem member
    have same : leaf.id = other.id := id.symm.trans isId
    have suffix := Chain.from_ walking.chain
    obtain rfl := chain.same_leaf suffix same
    obtain rfl := chain.unique suffix same
    exact ⟨⟨leaf, rest, page, id, Chain.from_ chain', whole⟩, inside⟩

/-- A seek walks along the leaves of the tree. -/
theorem Tenant.walking {t : Tree h} (tenant : Tenant true s t) (lo : Key) :
    ∃ c, Labdb.BTree.seek true lo s = some (c, s) ∧
      Walking s t.leaves c ((entriesOf t.items).filter fun e => lo ≤ e.1) := by
  obtain ⟨c, sought, reads⟩ := tenant.seek lo
  obtain ⟨front, leaf, back, leaves, ran, -, -⟩ :=
    descend_spec (cuts_childIndexFor lo) t tenant.deep
      (tenant.standing.stored t List.mem_cons_self) tenant.sound tenant.inOrder
  rw [← tenant.root] at ran
  refine ⟨c, sought, tenant.chain, reads, ?_⟩
  have settled : settle (rounds s)
      { leaf := leaf.page, leafId := leaf.id, idx := leaf.page.lowerBound lo } s = some (c, s) := by
    simpa [Labdb.BTree.seek, seekBy, ran] using sought
  apply settle_among tenant.chain _ settled
  exact .inr ⟨leaf, leaves ▸ List.mem_append_right _ List.mem_cons_self, rfl, rfl⟩

private theorem Tree.leaf_most (t : Tree h) (sound : t.Sound) :
    ∀ leaf ∈ t.leaves, leaf.page.entries.length ≤ kLeafMaxEntries := by
  induction h with
  | zero =>
    intro leaf member
    obtain rfl := List.mem_singleton.mp member
    exact sound
  | succ h ih =>
    intro leaf member
    obtain ⟨kid, inside, under⟩ := List.mem_flatMap.mp member
    exact ih kid (sound.2.2 kid inside).2 leaf under

theorem length_entriesIn (most : ∀ leaf ∈ leaves, leaf.page.entries.length ≤ kLeafMaxEntries) :
    (entriesIn leaves).length ≤ leaves.length * kLeafMaxEntries := by
  induction leaves with
  | nil => exact Nat.zero_le _
  | cons leaf rest ih =>
    have here := most leaf List.mem_cons_self
    have others := ih fun other member => most other (List.mem_cons_of_mem _ member)
    rw [entriesIn_cons, List.length_append, List.length_cons, Nat.add_mul]
    omega

/-- A tree has no more entries than the pages in use have room for. -/
theorem Tenant.few {unique : Bool} {t : Tree h} (tenant : Tenant unique s t) :
    (entriesOf t.items).length ≤ s.used.length * kLeafMaxEntries := by
  rw [t.entries_leaves tenant.sound]
  exact (length_entriesIn (t.leaf_most tenant.sound)).trans
    (Nat.mul_le_mul_right _ tenant.chain.short)

end Labdb.BTree
