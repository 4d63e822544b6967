import Labdb.BTree.Insert

/-! What holds of a tree between two calls, and what `insert` and `insert_new` make of it. -/

namespace Labdb.BTree

open Labdb.Data Labdb.Data.Item Labdb.Query Labdb.Storage

variable {alloc : Allocator} {unique overwrite : Bool} {key : Key} {value : Value} {h : Nat}

/-- The root is over a tree whose leaves are all at one depth, no node of which is too full or,
below the root, too empty; it is in order, its leaves are a chain in that order, and the pages in
use are the tree's. -/
structure Holds (unique : Bool) (s : Store) (t : Tree h) : Prop where
  standing : Standing s [t]
  root : s.root = t.id
  sound : t.Sound
  branches : 0 < h → 0 < t.count
  inOrder : InOrder unique t.items
  linked : Linked t.leaves kNullPage
  pages : ∀ id, id ∈ s.used ↔ id ∈ t.ids
  real : ∀ id ∈ s.used, id ≠ kNullPage

/-- A tree that holds on a store where other pages may be in use too. -/
structure Tenant (unique : Bool) (s : Store) (t : Tree h) : Prop where
  standing : Standing s [t]
  root : s.root = t.id
  sound : t.Sound
  branches : 0 < h → 0 < t.count
  inOrder : InOrder unique t.items
  linked : Linked t.leaves kNullPage
  real : ∀ id ∈ t.ids, id ≠ kNullPage

theorem Holds.tenant {s : Store} {t : Tree h} (holds : Holds unique s t) : Tenant unique s t where
  standing := holds.standing
  root := holds.root
  sound := holds.sound
  branches := holds.branches
  inOrder := holds.inOrder
  linked := holds.linked
  real id member := holds.real id ((holds.pages id).mpr member)

theorem Tenant.holds {s : Store} {t : Tree h} (tenant : Tenant unique s t)
    (pages : ∀ id, id ∈ s.used ↔ id ∈ t.ids) : Holds unique s t where
  standing := tenant.standing
  root := tenant.root
  sound := tenant.sound
  branches := tenant.branches
  inOrder := tenant.inOrder
  linked := tenant.linked
  pages := pages
  real id member := tenant.real id ((pages id).mp member)

/-- No node holds more than there is room for, and an internal node has one child more than
separators. -/
def Tree.Fits : {h : Nat} → Tree h → Prop
  | 0, t => (LeafTree.page t).entries.length ≤ kLeafMaxEntries
  | _ + 1, (t : InnerTree (Tree _)) =>
    t.keys.length ≤ kInternalMaxKeys ∧ t.kids.length = t.keys.length + 1 ∧
      ∀ kid ∈ t.kids, kid.Fits

theorem Tree.Fits.height_lt {t : Tree h} (fits : t.Fits) : h < t.ids.length := by
  induction h with
  | zero => exact Nat.zero_lt_one
  | succ h ih =>
    obtain ⟨row, id⟩ : InnerTree (Tree h) := t
    obtain ⟨_, whole, each⟩ := fits
    obtain ⟨first, rest, starts⟩ := List.exists_cons_of_length_pos
      (whole ▸ Nat.succ_pos _ : 0 < row.kids.length)
    have deep := ih (each first (starts ▸ List.mem_cons_self))
    change h + 1 < (id :: idsOf row.kids).length
    rw [List.length_cons, starts, idsOf_cons, List.length_append]
    omega

theorem Tree.Sound.fitting {t : Tree h} (sound : t.Sound) : t.Fits := by
  induction h with
  | zero => exact sound
  | succ h ih =>
    obtain ⟨row, id⟩ : InnerTree (Tree h) := t
    obtain ⟨most, whole, each⟩ := sound
    exact ⟨most, whole, fun kid member => ih (each kid member).2⟩

@[simp] theorem idsOf_one (t : Tree h) : idsOf [t] = t.ids := by
  rw [idsOf_cons, idsOf_nil, List.append_nil]

theorem Tenant.size {s : Store} {t : Tree h} (tenant : Tenant unique s t) :
    t.ids.length ≤ s.used.length := by
  obtain ⟨-, nodup, owned⟩ := tenant.standing
  rw [idsOf_one] at nodup owned
  exact nodup.length_le_of_subset owned

/-- A descent has rounds enough. -/
theorem Tenant.deep {s : Store} {t : Tree h} (tenant : Tenant unique s t) : h < rounds s := by
  have within := tenant.size
  have deep := tenant.sound.fitting.height_lt
  rw [rounds]
  omega

theorem Holds.deep {s : Store} {t : Tree h} (holds : Holds unique s t) : h < rounds s :=
  holds.tenant.deep

section Root

variable {s s' : Store} {trees : List (Tree h)} {row : Row (Tree h)}

/-- A new root over trees that stand side by side. -/
theorem Became.rooting (alloc : Allocator) (became : Became s trees s' row.kids) :
    Became s trees ((s'.allocate alloc).write (s'.handedOut alloc) (.internal row.node))
      [row.tree (s'.handedOut alloc)] where
  stored := (became.housed.rooting alloc).stored
  replaced := (became.housed.rooting alloc).replaced
  leads exit := by rw [leavesOf_tree, became.leads]
  linked exit linked := by
    rw [leavesOf_tree]
    exact became.linked exit linked

end Root

/-- A tree that took the place of one that held. -/
theorem Tenant.of_became {h' : Nat} {s s' s'' : Store} {t : Tree h} {t' : Tree h'}
    (tenant : Tenant unique s t) (became : Became s [t] s' [t']) (nodes : s''.nodes = s'.nodes)
    (used : s''.used = s'.used) (moved : s''.root = t'.id) (sound : t'.Sound)
    (branches : 0 < h' → 0 < t'.count) (inOrder : InOrder unique t'.items) :
    Tenant unique s'' t' where
  standing := by
    obtain ⟨stored, nodup, owned⟩ := became.standing
    rw [← nodes] at stored
    rw [← used] at owned
    exact ⟨stored, nodup, owned⟩
  root := moved
  sound := sound
  branches := branches
  inOrder := inOrder
  linked := by
    have linked := became.linked kNullPage (by simpa using tenant.linked)
    simpa using linked
  real id member := by
    have fresh := became.replaced.fresh id
    rw [idsOf_one, idsOf_one] at fresh
    exact (fresh member).elim (tenant.real id) And.right

theorem Housed.pages {h' : Nat} {s s' : Store} {t : Tree h} {t' : Tree h'}
    (housed : Housed s [t] s' [t']) (pages : ∀ id, id ∈ s.used ↔ id ∈ t.ids) :
    ∀ id, id ∈ s'.used ↔ id ∈ t'.ids := by
  intro id
  have after := housed.replaced.used id
  have before := pages id
  rw [idsOf_one, idsOf_one] at after
  tauto

theorem Holds.of_became {h' : Nat} {s s' s'' : Store} {t : Tree h} {t' : Tree h'}
    (holds : Holds unique s t) (became : Became s [t] s' [t']) (nodes : s''.nodes = s'.nodes)
    (used : s''.used = s'.used) (moved : s''.root = t'.id) (sound : t'.Sound)
    (branches : 0 < h' → 0 < t'.count) (inOrder : InOrder unique t'.items) :
    Holds unique s'' t' := by
  apply (holds.tenant.of_became became nodes used moved sound branches inOrder).holds
  rw [used]
  exact became.housed.pages holds.pages

/-- The store as if its root had not moved and nothing had been reported since. -/
def Store.unmoved (s' s : Store) : Store := { s' with root := s.root, reported := s.reported }

/-- A tree of a store after an insert: its pages are the others', and a root that moved was
reported. -/
structure Regrown (s : Store) (t : Tree h) (s' : Store) {h' : Nat} (t' : Tree h') : Prop where
  housed : Housed s [t] (s'.unmoved s) [t']
  reported : s'.root = s.root ∧ s'.reported = s.reported ∨
    s'.reported = s.reported ++ [s'.root]

/-- The root stayed where it was. -/
theorem Regrown.stayed {s s' : Store} {t t' : Tree h} (housed : Housed s [t] s' [t']) :
    Regrown s t s' t' := by
  have root := housed.replaced.root
  have reported := housed.replaced.reported
  have same : s'.unmoved s = s' := by
    rw [Store.unmoved, ← root, ← reported]
  exact ⟨same.symm ▸ housed, .inl ⟨root, reported⟩⟩

/-- A new root was put over what the old one has become. -/
theorem Regrown.topped {s s' : Store} {t : Tree h} {row : Row (Tree h)} (alloc : Allocator)
    (housed : Housed s [t] s' row.kids) :
    Regrown s t (((s'.allocate alloc).write (s'.handedOut alloc) (.internal row.node)).moveRoot
      (s'.handedOut alloc)) (row.tree (s'.handedOut alloc)) := by
  have root := housed.replaced.root
  have reported := housed.replaced.reported
  have same : (((s'.allocate alloc).write (s'.handedOut alloc) (.internal row.node)).moveRoot
      (s'.handedOut alloc)).unmoved s =
        (s'.allocate alloc).write (s'.handedOut alloc) (.internal row.node) := by
    rw [Store.unmoved, ← root, ← reported]
    rfl
  exact ⟨same.symm ▸ housed.rooting alloc, .inr (congrArg (· ++ _) reported)⟩

theorem insertWith_among {s : Store} {t : Tree h} (tenant : Tenant unique s t)
    (free : unique = true ∨ tieFree s.nodes key (rounds s) s.root = true) :
    ∃ inserted s' h', ∃ t' : Tree h',
      insertWith alloc unique key value overwrite s = some (inserted, s') ∧
      Tenant unique s' t' ∧ Regrown s t s' t' ∧
      Entered unique overwrite key value (entriesOf t.items) (entriesOf t'.items) inserted := by
  rw [tenant.root] at free
  obtain ⟨split, inserted, s', row, ran, grown⟩ :=
    @insertRec_spec alloc unique overwrite key value h (rounds s) s t tenant.deep tenant.standing
      tenant.sound tenant.inOrder free
  rw [← tenant.root] at ran
  have ordered : InOrder unique row.items := by
    have whole := grown.keeps [] [] (by simpa using tenant.inOrder)
      (fun x never => absurd never List.not_mem_nil) (fun y never => absurd never List.not_mem_nil)
    simpa using whole
  have entered := grown.entered
  have pieces := grown.pieces
  cases pieces with
  | one t' sameId =>
    rw [Row.items_one] at ordered entered
    refine ⟨inserted, s', h, t', by simp [insertWith, ran], ?_, .stayed grown.became.housed,
      entered⟩
    apply tenant.of_became grown.became rfl rfl
    · rw [grown.became.replaced.root, tenant.root, sameId]
    · exact grown.sound t' List.mem_cons_self
    · exact fun above => (tenant.branches above).trans_le (grown.enough rfl t' List.mem_cons_self)
    · exact ordered
  | two l r sep sameId =>
    have rooting := @Became.rooting h s s' [t] ⟨[sep], [l, r]⟩ alloc grown.became
    have each : ∀ kid ∈ [l, r], minCount h ≤ kid.count ∧ kid.Sound := fun kid member =>
      ⟨grown.halves (Option.some_ne_none _) kid member, grown.sound kid member⟩
    have moved : insertWith alloc unique key value overwrite s =
        some (inserted, ((s'.allocate alloc).write (s'.handedOut alloc)
          (.internal (⟨[sep], [l, r]⟩ : Row (Tree h)).node)).moveRoot (s'.handedOut alloc)) := by
      have rootId : l.id = s.root := sameId.trans tenant.root.symm
      simp [insertWith, ran, Row.node, rootId]
    refine ⟨inserted, _, h + 1, (⟨[sep], [l, r]⟩ : Row (Tree h)).tree (s'.handedOut alloc), moved,
      ?_, .topped alloc grown.became.housed, entered⟩
    apply tenant.of_became rooting
    · rfl
    · rfl
    · rfl
    · exact ⟨(by decide : 1 ≤ kInternalMaxKeys), rfl, each⟩
    · exact fun _ => Nat.zero_lt_one
    · exact ordered

theorem insertWith_spec {s : Store} {t : Tree h} (holds : Holds unique s t)
    (free : unique = true ∨ tieFree s.nodes key (rounds s) s.root = true) :
    ∃ inserted s' h', ∃ t' : Tree h',
      insertWith alloc unique key value overwrite s = some (inserted, s') ∧ Holds unique s' t' ∧
      Entered unique overwrite key value (entriesOf t.items) (entriesOf t'.items) inserted := by
  obtain ⟨inserted, s', h', t', ran, tenant, among, entered⟩ :=
    @insertWith_among alloc unique overwrite key value h s t holds.tenant free
  exact ⟨inserted, s', h', t', ran, tenant.holds (among.housed.pages holds.pages), entered⟩

end Labdb.BTree
