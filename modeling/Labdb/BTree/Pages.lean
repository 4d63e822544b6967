import Labdb.BTree.Shape
import Mathlib.Data.List.Nodup

/-! Which pages an operation takes, gives back and rewrites, and how trees that stand side by
side become others: their pages, and the chain of their leaves. -/

namespace Labdb.BTree

open Labdb.Data Labdb.Query Labdb.Storage

/-- Pages `old` have become pages `new`, and every other page is as it was. -/
structure Replaced (s : Store) (old : List PageId) (s' : Store) (new : List PageId) : Prop where
  nodup : new.Nodup
  used : ∀ id, id ∈ s'.used ↔ id ∈ new ∨ id ∈ s.used ∧ id ∉ old
  fresh : ∀ id ∈ new, id ∈ old ∨ id ∉ s.used ∧ id ≠ kNullPage
  kept : ∀ id ∈ s.used, id ∉ old → s'.nodes id = s.nodes id
  root : s'.root = s.root
  reported : s'.reported = s.reported

namespace Replaced

variable {s s' s'' : Store} {old mid new left right : List PageId}

theorem refl (nodup : old.Nodup) (owned : ∀ id ∈ old, id ∈ s.used) : Replaced s old s old where
  nodup := nodup
  used id := by
    by_cases member : id ∈ old
    · exact ⟨fun _ => .inl member, fun _ => owned id member⟩
    · exact ⟨fun used => .inr ⟨used, member⟩, fun h => h.elim (absurd · member) And.left⟩
  fresh _ member := .inl member
  kept _ _ _ := rfl
  root := rfl
  reported := rfl

theorem trans (first : Replaced s old s' mid) (second : Replaced s' mid s'' new) :
    Replaced s old s'' new where
  nodup := second.nodup
  used id := by
    have := first.used id
    have := second.used id
    have := first.fresh id
    grind
  fresh id member := by
    have := first.used id
    have := first.fresh id
    have := second.fresh id member
    grind
  kept id used outside := by
    have := first.used id
    have := first.fresh id
    have := first.kept id used outside
    have := second.kept id
    grind
  root := second.root.trans first.root
  reported := second.reported.trans first.reported

/-- With pages on both sides that stay. -/
theorem between (replaced : Replaced s mid s' new) (nodup : (left ++ mid ++ right).Nodup)
    (owned : ∀ id ∈ left ++ right, id ∈ s.used) :
    Replaced s (left ++ mid ++ right) s' (left ++ new ++ right) where
  nodup := by
    simp only [List.nodup_append, List.mem_append] at nodup owned ⊢
    have := replaced.nodup
    have := replaced.fresh
    grind
  used id := by
    simp only [List.nodup_append, List.mem_append] at nodup owned ⊢
    have := replaced.used id
    grind
  fresh id member := by
    simp only [List.mem_append] at member ⊢
    have := replaced.fresh id
    grind
  kept id used outside := by
    simp only [List.mem_append] at outside
    exact replaced.kept id used fun inside => outside (.inl (.inr inside))
  root := replaced.root
  reported := replaced.reported

section Steps

variable {id : PageId} (replaced : Replaced s old s' new)

include replaced

theorem perm {new' : List PageId} (same : new.Perm new') : Replaced s old s' new' where
  nodup := same.nodup_iff.mp replaced.nodup
  used id := by rw [replaced.used id, same.mem_iff]
  fresh id member := replaced.fresh id (same.mem_iff.mpr member)
  kept := replaced.kept
  root := replaced.root
  reported := replaced.reported

theorem write (node : Node) (member : id ∈ new) : Replaced s old (s'.write id node) new where
  nodup := replaced.nodup
  used := replaced.used
  fresh := replaced.fresh
  kept other used outside := by
    have apart : other ≠ id := by
      rintro rfl
      exact (replaced.fresh other member).elim outside fun unused => unused.1 used
    exact (Function.update_of_ne apart _ _).trans (replaced.kept other used outside)
  root := replaced.root
  reported := replaced.reported

theorem allocate (alloc : Allocator) :
    Replaced s old (s'.allocate alloc) (s'.handedOut alloc :: new) := by
  have unused : s'.handedOut alloc ∉ s'.used := alloc.unused _ _
  have real : s'.handedOut alloc ≠ kNullPage := alloc.real _ _
  have within := replaced.used (s'.handedOut alloc)
  constructor
  · exact List.nodup_cons.mpr ⟨fun member => unused (within.mpr (.inl member)), replaced.nodup⟩
  · intro id
    change id ∈ s'.handedOut alloc :: s'.used ↔ _
    rw [List.mem_cons, List.mem_cons, replaced.used id, or_assoc]
  · intro id member
    rcases List.mem_cons.mp member with rfl | known
    · by_cases inOld : s'.handedOut alloc ∈ old
      · exact .inl inOld
      · exact .inr ⟨fun used => unused (within.mpr (.inr ⟨used, inOld⟩)), real⟩
    · exact replaced.fresh id known
  · exact replaced.kept
  · exact replaced.root
  · exact replaced.reported

end Steps

theorem free {id : PageId} (replaced : Replaced s old s' (id :: new)) (was : id ∈ old) :
    Replaced s old (s'.free id) new where
  nodup := (List.nodup_cons.mp replaced.nodup).2
  used other := by
    have outside := (List.nodup_cons.mp replaced.nodup).1
    change other ∈ s'.used.filter (fun other => other ≠ id) ↔ _
    rw [List.mem_filter, decide_eq_true_iff, replaced.used other, List.mem_cons]
    grind
  fresh other member := replaced.fresh other (List.mem_cons_of_mem _ member)
  kept := replaced.kept
  root := replaced.root
  reported := replaced.reported

end Replaced

variable {h h' : Nat}

/-- The leaves' links: each to the next one, and the last one to `exit`. -/
def headId : List LeafTree → PageId → PageId
  | [], exit => exit
  | leaf :: _, _ => leaf.id

def Linked : List LeafTree → PageId → Prop
  | [], _ => True
  | leaf :: rest, exit => leaf.page.next = headId rest exit ∧ Linked rest exit

private theorem headId_append (front back : List LeafTree) (exit : PageId) :
    headId (front ++ back) exit = headId front (headId back exit) := by
  cases front <;> rfl

theorem linked_append (front back : List LeafTree) (exit : PageId) :
    Linked (front ++ back) exit ↔ Linked front (headId back exit) ∧ Linked back exit := by
  induction front with
  | nil => exact ⟨fun linked => ⟨trivial, linked⟩, And.right⟩
  | cons leaf rest ih =>
    simp only [List.cons_append, Linked, headId_append, ih, and_assoc]

namespace Tree

theorem Stored.here {nodes : PageId → Node} {t : Tree h} (stored : t.Stored nodes) :
    nodes t.id = t.page := by
  cases h with
  | zero => exact stored
  | succ h => exact stored.1

theorem id_mem (t : Tree h) : t.id ∈ t.ids := by
  cases h with
  | zero => exact List.mem_singleton.mpr rfl
  | succ h => exact List.mem_cons_self

/-- Only the tree's own pages matter. -/
theorem Stored.of_same {nodes nodes' : PageId → Node} {t : Tree h} (stored : t.Stored nodes)
    (same : ∀ id ∈ t.ids, nodes' id = nodes id) : t.Stored nodes' := by
  induction h with
  | zero => exact (same _ (id_mem t)).trans stored
  | succ h ih =>
    obtain ⟨here, below⟩ := stored
    refine ⟨(same _ List.mem_cons_self).trans here, fun kid member => ?_⟩
    apply ih (below kid member)
    exact fun id inside =>
      same id (List.mem_cons_of_mem _ (List.mem_flatMap.mpr ⟨kid, member, inside⟩))

end Tree

def idsOf (trees : List (Tree h)) : List PageId := trees.flatMap Tree.ids

def leavesOf (trees : List (Tree h)) : List LeafTree := trees.flatMap Tree.leaves

section Side

variable {t : Tree h} {trees trees' : List (Tree h)} {row : Row (Tree h)} {id : PageId}

theorem mem_idsOf : id ∈ idsOf trees ↔ ∃ t ∈ trees, id ∈ t.ids := List.mem_flatMap

@[simp] theorem idsOf_append : idsOf (trees ++ trees') = idsOf trees ++ idsOf trees' :=
  List.flatMap_append

@[simp] theorem idsOf_cons : idsOf (t :: trees) = t.ids ++ idsOf trees := List.flatMap_cons

@[simp] theorem idsOf_nil : idsOf ([] : List (Tree h)) = [] := rfl

@[simp] theorem leavesOf_append : leavesOf (trees ++ trees') = leavesOf trees ++ leavesOf trees' :=
  List.flatMap_append

@[simp] theorem leavesOf_cons : leavesOf (t :: trees) = t.leaves ++ leavesOf trees :=
  List.flatMap_cons

@[simp] theorem leavesOf_nil : leavesOf ([] : List (Tree h)) = [] := rfl

@[simp] theorem Row.ids_tree : (row.tree id).ids = id :: idsOf row.kids := rfl

@[simp] theorem Row.leaves_tree : (row.tree id).leaves = leavesOf row.kids := rfl

theorem idsOf_tree : idsOf [row.tree id] = id :: idsOf row.kids := by simp

theorem leavesOf_tree : leavesOf [row.tree id] = leavesOf row.kids := by simp

end Side

/-- Trees side by side have become others, on pages of their own. -/
structure Housed (s : Store) (trees : List (Tree h)) (s' : Store) (trees' : List (Tree h')) : Prop
    where
  stored : ∀ t ∈ trees', t.Stored s'.nodes
  replaced : Replaced s (idsOf trees) s' (idsOf trees')

/-- Trees side by side have become others in their place. -/
structure Became (s : Store) (trees : List (Tree h)) (s' : Store) (trees' : List (Tree h')) : Prop
    where
  stored : ∀ t ∈ trees', t.Stored s'.nodes
  replaced : Replaced s (idsOf trees) s' (idsOf trees')
  leads : ∀ exit, headId (leavesOf trees') exit = headId (leavesOf trees) exit
  linked : ∀ exit, Linked (leavesOf trees) exit → Linked (leavesOf trees') exit

/-- The trees are there, on pages of their own. -/
structure Standing (s : Store) (trees : List (Tree h)) : Prop where
  stored : ∀ t ∈ trees, t.Stored s.nodes
  nodup : (idsOf trees).Nodup
  owned : ∀ id ∈ idsOf trees, id ∈ s.used

/-- The trees below a root that stands. -/
theorem Standing.below {s : Store} {row : Row (Tree h)} {id : PageId}
    (standing : Standing s [row.tree id]) :
    Standing s row.kids ∧ id ∈ s.used ∧ id ∉ idsOf row.kids ∧ s.nodes id = .internal row.node := by
  obtain ⟨stored, nodup, owned⟩ := standing
  have stored := stored _ (List.mem_singleton.mpr rfl)
  rw [idsOf_tree] at nodup owned
  obtain ⟨outside, apart⟩ := List.nodup_cons.mp nodup
  exact ⟨⟨stored.2, apart, fun other member => owned other (List.mem_cons_of_mem _ member)⟩,
    owned id List.mem_cons_self, outside, stored.1⟩

namespace Housed

variable {s s' : Store} {left right mid new kids : List (Tree h)} {row row' front back : Row (Tree h)}
  {id : PageId} {page page' : LeafNode}

theorem standing {trees : List (Tree h')} (housed : Housed s mid s' trees) : Standing s' trees where
  stored := housed.stored
  nodup := housed.replaced.nodup
  owned id member := (housed.replaced.used id).mpr (.inl member)

theorem perm {trees trees' : List (Tree h')} (housed : Housed s mid s' trees)
    (same : trees.Perm trees') : Housed s mid s' trees' where
  stored t member := housed.stored t (same.mem_iff.mpr member)
  replaced := housed.replaced.perm (same.flatMap_right _)

/-- With trees on both sides that stay. -/
theorem between (housed : Housed s mid s' new) (standing : Standing s (left ++ mid ++ right)) :
    Housed s (left ++ mid ++ right) s' (left ++ new ++ right) := by
  obtain ⟨stored, nodup, owned⟩ := standing
  simp only [idsOf_append] at nodup owned
  have stays : ∀ t ∈ left ++ right, t.Stored s'.nodes := by
    intro t member
    have known : t ∈ left ++ mid ++ right := by
      simp only [List.mem_append] at member ⊢
      tauto
    have inside : ∀ id ∈ t.ids, id ∈ idsOf left ∨ id ∈ idsOf right := fun id under =>
      (List.mem_append.mp member).imp (fun at_ => mem_idsOf.mpr ⟨t, at_, under⟩)
        fun at_ => mem_idsOf.mpr ⟨t, at_, under⟩
    apply (stored t known).of_same
    intro id under
    simp only [List.nodup_append, List.mem_append] at nodup owned
    have := housed.replaced.kept id
    have := inside id under
    grind
  constructor
  · intro t member
    simp only [List.mem_append] at member stays
    rcases member with (inLeft | new_) | inRight
    · exact stays t (.inl inLeft)
    · exact housed.stored t new_
    · exact stays t (.inr inRight)
  · simp only [idsOf_append]
    apply housed.replaced.between nodup
    simp only [List.mem_append] at owned ⊢
    exact fun id member => owned id (member.elim (fun h => .inl (.inl h)) .inr)

/-- The root's page with those below. -/
theorem rooted (housed : Housed s row.kids s' kids) (standing : Standing s [row.tree id]) :
    Replaced s (idsOf [row.tree id]) s' (id :: idsOf kids) := by
  obtain ⟨below, used, outside, here⟩ := standing.below
  have nodup := standing.nodup
  rw [idsOf_tree] at nodup ⊢
  have pages := @Replaced.between _ _ _ _ [id] [] housed.replaced
  simp only [List.append_nil, List.singleton_append, List.mem_singleton] at pages
  exact pages nodup fun other same => same ▸ used

/-- The trees below a root have become others, and the root is written. -/
theorem inner (housed : Housed s row.kids s' row'.kids) (standing : Standing s [row.tree id]) :
    Housed s [row.tree id] (s'.write id (.internal row'.node)) [row'.tree id] := by
  have replaced := housed.rooted standing
  have apart := (List.nodup_cons.mp replaced.nodup).1
  constructor
  · intro t member
    obtain rfl := List.mem_singleton.mp member
    refine ⟨Function.update_self _ _ _, fun kid inside => ?_⟩
    apply (housed.stored kid inside).of_same
    intro other under
    apply Function.update_of_ne
    rintro rfl
    exact apart (mem_idsOf.mpr ⟨kid, inside, under⟩)
  · rw [idsOf, idsOf_tree]
    exact replaced.write _ List.mem_cons_self

/-- A root that names the same trees is there already. -/
theorem written (housed : Housed s row.kids s' kids) (standing : Standing s [row.tree id])
    (same : row'.node = row.node) : s'.write id (.internal row'.node) = s' := by
  obtain ⟨below, used, outside, here⟩ := standing.below
  rw [same, ← here, ← housed.replaced.kept id used outside]
  exact congrArg (fun nodes => { s' with nodes }) (Function.update_eq_self _ _)

/-- The root is cut in two, and the part on the right goes to a new page. -/
theorem split (alloc : Allocator) (housed : Housed s row.kids s' (front.kids ++ back.kids))
    (standing : Standing s [row.tree id]) :
    Housed s [row.tree id]
      (((s'.allocate alloc).write id (.internal front.node)).write (s'.handedOut alloc)
        (.internal back.node))
      [front.tree id, back.tree (s'.handedOut alloc)] := by
  have replaced := (housed.rooted standing).allocate alloc
  rw [idsOf_append] at replaced
  obtain ⟨newApart, apart⟩ := List.nodup_cons.mp replaced.nodup
  have different : id ≠ s'.handedOut alloc := fun same => newApart (same ▸ List.mem_cons_self)
  have below : ∀ kid ∈ front.kids ++ back.kids, kid.Stored
      (((s'.allocate alloc).write id (.internal front.node)).write (s'.handedOut alloc)
        (.internal back.node)).nodes := by
    intro kid inside
    apply (housed.stored kid inside).of_same
    intro other under
    have known : other ∈ idsOf front.kids ++ idsOf back.kids :=
      idsOf_append ▸ mem_idsOf.mpr ⟨kid, inside, under⟩
    have fromNew : other ≠ s'.handedOut alloc := fun same =>
      newApart (same ▸ List.mem_cons_of_mem _ known)
    have fromRoot : other ≠ id := fun same => (List.nodup_cons.mp apart).1 (same ▸ known)
    exact (Function.update_of_ne fromNew _ _).trans (Function.update_of_ne fromRoot _ _)
  constructor
  · intro t member
    rcases List.mem_pair.mp member with rfl | rfl
    · refine ⟨?_, fun kid inside => below kid (List.mem_append_left _ inside)⟩
      exact (Function.update_of_ne different _ _).trans (Function.update_self _ _ _)
    · exact ⟨Function.update_self _ _ _, fun kid inside => below kid (List.mem_append_right _ inside)⟩
  · rw [@idsOf_cons _ (front.tree id), @idsOf_tree _ back, Row.ids_tree]
    apply Replaced.write
    · apply Replaced.write
      · exact replaced.perm (@List.perm_middle _ _ (id :: idsOf front.kids) _).symm
      · exact List.mem_cons_self
    · exact List.mem_append_right _ List.mem_cons_self

/-- A new root over trees that stand side by side. -/
theorem rooting {trees : List (Tree h')} (alloc : Allocator) (housed : Housed s trees s' row.kids) :
    Housed s trees ((s'.allocate alloc).write (s'.handedOut alloc) (.internal row.node))
      [row.tree (s'.handedOut alloc)] := by
  have replaced := housed.replaced.allocate alloc
  have apart := (List.nodup_cons.mp replaced.nodup).1
  constructor
  · intro t member
    obtain rfl := List.mem_singleton.mp member
    refine ⟨Function.update_self _ _ _, fun kid inside => ?_⟩
    apply (housed.stored kid inside).of_same
    intro other under
    apply Function.update_of_ne
    rintro rfl
    exact apart (mem_idsOf.mpr ⟨kid, inside, under⟩)
  · rw [idsOf_tree]
    exact replaced.write _ List.mem_cons_self

/-- A leaf is written. -/
theorem leaf (standing : Standing s [Tree.ofLeaf id page]) (page' : LeafNode) :
    Housed s [Tree.ofLeaf id page] (s.write id (.leaf page')) [Tree.ofLeaf id page'] := by
  have replaced := Replaced.refl standing.nodup standing.owned
  constructor
  · intro t member
    obtain rfl := List.mem_singleton.mp member
    exact Function.update_self _ _ _
  · exact replaced.write _ (List.mem_singleton.mpr rfl)

/-- A leaf is cut in two, and the part on the right goes to a new page. -/
theorem leaves (alloc : Allocator) (standing : Standing s [Tree.ofLeaf id page])
    (front back : LeafNode) :
    Housed s [Tree.ofLeaf id page]
      (((s.allocate alloc).write id (.leaf front)).write (s.handedOut alloc) (.leaf back))
      [Tree.ofLeaf id front, Tree.ofLeaf (s.handedOut alloc) back] := by
  have replaced : Replaced s [id] (s.allocate alloc) [s.handedOut alloc, id] :=
    (Replaced.refl standing.nodup standing.owned).allocate alloc
  have different : id ≠ s.handedOut alloc := fun equal =>
    (List.nodup_cons.mp replaced.nodup).1 (List.mem_singleton.mpr equal.symm)
  constructor
  · intro t member
    rcases List.mem_pair.mp member with rfl | rfl
    · exact (Function.update_of_ne different _ _).trans (Function.update_self _ _ _)
    · exact Function.update_self _ _ _
  · change Replaced s [id] _ [id, s.handedOut alloc]
    apply Replaced.write
    · apply Replaced.write
      · exact replaced.perm (List.Perm.swap _ _ _)
      · exact List.mem_cons_self
    · exact List.mem_cons_of_mem _ List.mem_cons_self

end Housed

namespace Became

variable {s s' s'' : Store} {left right mid : List (Tree h)} {trees : List (Tree h')}

theorem housed (became : Became s mid s' trees) : Housed s mid s' trees :=
  ⟨became.stored, became.replaced⟩

theorem refl (standing : Standing s mid) : Became s mid s mid where
  stored := standing.stored
  replaced := .refl standing.nodup standing.owned
  leads _ := rfl
  linked _ linked := linked

theorem trans {h'' : Nat} {mid : List (Tree h')} {trees : List (Tree h)} {new : List (Tree h'')}
    (first : Became s trees s' mid) (second : Became s' mid s'' new) : Became s trees s'' new where
  stored := second.stored
  replaced := first.replaced.trans second.replaced
  leads exit := (second.leads exit).trans (first.leads exit)
  linked exit linked := second.linked exit (first.linked exit linked)

theorem standing (became : Became s mid s' trees) : Standing s' trees :=
  became.housed.standing

/-- With trees on both sides that stay. -/
theorem between {new : List (Tree h)} (became : Became s mid s' new)
    (standing : Standing s (left ++ mid ++ right)) :
    Became s (left ++ mid ++ right) s' (left ++ new ++ right) where
  stored := (became.housed.between standing).stored
  replaced := (became.housed.between standing).replaced
  leads exit := by simp only [leavesOf_append, headId_append, became.leads]
  linked exit linked := by
    simp only [leavesOf_append, linked_append, became.leads] at linked ⊢
    exact ⟨⟨linked.1.1, became.linked _ linked.1.2⟩, linked.2⟩

end Became

section Root

variable {s s' : Store} {row row' left right : Row (Tree h)} {id : PageId} {page page' : LeafNode}

/-- The trees below a root have become others, and the root is written. -/
theorem Became.inner (became : Became s row.kids s' row'.kids)
    (standing : Standing s [row.tree id]) :
    Became s [row.tree id] (s'.write id (.internal row'.node)) [row'.tree id] where
  stored := (became.housed.inner standing).stored
  replaced := (became.housed.inner standing).replaced
  leads exit := by rw [leavesOf_tree, leavesOf_tree, became.leads]
  linked exit linked := by
    rw [leavesOf_tree] at linked ⊢
    exact became.linked exit linked

/-- The root need not be written while it names the same trees. -/
theorem Became.under (became : Became s row.kids s' row'.kids)
    (standing : Standing s [row.tree id]) (same : row'.node = row.node) :
    Became s [row.tree id] s' [row'.tree id] := by
  have inner := became.inner standing
  rwa [became.housed.written standing same] at inner

/-- The root is cut in two, and the part on the right goes to a new page. -/
theorem Became.split (alloc : Allocator) (became : Became s row.kids s' (left.kids ++ right.kids))
    (standing : Standing s [row.tree id]) :
    Became s [row.tree id]
      (((s'.allocate alloc).write id (.internal left.node)).write (s'.handedOut alloc)
        (.internal right.node))
      [left.tree id, right.tree (s'.handedOut alloc)] where
  stored := (became.housed.split alloc standing).stored
  replaced := (became.housed.split alloc standing).replaced
  leads exit := by
    rw [leavesOf_tree, ← became.leads, leavesOf_append, leavesOf_cons, leavesOf_tree,
      Row.leaves_tree]
  linked exit linked := by
    rw [leavesOf_tree] at linked
    have below := became.linked exit linked
    rw [leavesOf_append] at below
    rw [leavesOf_cons, leavesOf_tree]
    exact below

/-- A leaf is written. -/
theorem Became.leaf (standing : Standing s [Tree.ofLeaf id page]) (same : page'.next = page.next) :
    Became s [Tree.ofLeaf id page] (s.write id (.leaf page')) [Tree.ofLeaf id page'] where
  stored := (Housed.leaf standing page').stored
  replaced := (Housed.leaf standing page').replaced
  leads _ := rfl
  linked _ linked := ⟨same.trans linked.1, trivial⟩

/-- A leaf is cut in two, and the part on the right goes to a new page. -/
theorem Became.leaves (alloc : Allocator) (standing : Standing s [Tree.ofLeaf id page])
    {front back : LeafNode} (links : front.next = s.handedOut alloc) (same : back.next = page.next) :
    Became s [Tree.ofLeaf id page]
      (((s.allocate alloc).write id (.leaf front)).write (s.handedOut alloc) (.leaf back))
      [Tree.ofLeaf id front, Tree.ofLeaf (s.handedOut alloc) back] where
  stored := (Housed.leaves alloc standing front back).stored
  replaced := (Housed.leaves alloc standing front back).replaced
  leads _ := rfl
  linked _ linked := ⟨links, same.trans linked.1, trivial⟩

end Root

end Labdb.BTree
