import Labdb.BTree.Cursors
import Labdb.BTree.Duplicates
import Labdb.BTree.LeafChain

/-! A tree with duplicate keys and not too many entries: no node of it is full that could take in a
separator equal to the next one, so it keeps every entry in order. -/

namespace Labdb.BTree

open Labdb.Data Labdb.Data.Item Labdb.Query Labdb.Storage

variable {h : Nat}

/-- As many entries as there are, at the least, below a full internal node. -/
def kTieFreeEntries : Nat := (kInternalMaxKeys + 1) * kLeafMinEntries

section Few

/-- What lies below trees that are not roots. -/
theorem entries_of_kids {kids : List (Tree h)}
    (each : ∀ kid ∈ kids, kLeafMinEntries ≤ (entriesOf kid.items).length) :
    kids.length * kLeafMinEntries ≤ (kids.flatMap fun kid => entriesOf kid.items).length := by
  induction kids with
  | nil => simp
  | cons kid rest ih =>
    have first := each kid List.mem_cons_self
    have others := ih fun other member => each other (List.mem_cons_of_mem _ member)
    rw [List.flatMap_cons, List.length_append, List.length_cons, Nat.succ_mul]
    omega

private theorem Tree.entries_kids (row : Row (Tree h)) (id : PageId)
    (whole : row.kids.length = row.keys.length + 1) : entriesOf (row.tree id).items =
      row.kids.flatMap fun kid => entriesOf kid.items := by
  change entriesOf (weave row.keys (row.kids.map Tree.items)) = _
  rw [entriesOf_weave (by rw [List.length_map]; exact whole), List.flatMap_map]

/-- A tree that is not a root has no fewer entries than a leaf may have. -/
theorem Tree.entries_least (t : Tree h) (sound : t.Sound) (enough : minCount h ≤ t.count) :
    kLeafMinEntries ≤ (entriesOf t.items).length := by
  induction h with
  | zero =>
    obtain ⟨id, page⟩ : LeafTree := t
    change kLeafMinEntries ≤ (entriesOf (block page.entries)).length
    rw [entriesOf_block]
    exact enough
  | succ h ih =>
    obtain ⟨row, id⟩ : InnerTree (Tree h) := t
    obtain ⟨_, whole, each⟩ := sound
    change row.kids.length = row.keys.length + 1 at whole
    change ∀ kid ∈ row.kids, minCount h ≤ kid.count ∧ kid.Sound at each
    have least := entries_of_kids fun kid member =>
      ih kid (each kid member).2 (each kid member).1
    change kLeafMinEntries ≤ (entriesOf (row.tree id).items).length
    rw [Tree.entries_kids row id whole]
    rw [whole, Nat.succ_mul] at least
    omega

variable {nodes : PageId → Node}

/-- Below a full node there are too many entries. Induction on the height. -/
theorem tieFree_of_few {t : Tree h} (stored : t.Stored nodes) (sound : t.Sound)
    (few : (entriesOf t.items).length < kTieFreeEntries) (key : Key) (rounds : Nat) :
    tieFree nodes key rounds t.id = true := by
  induction h generalizing rounds with
  | zero =>
    obtain ⟨id, page⟩ : LeafTree := t
    have here : nodes id = .leaf page := stored
    cases rounds with
    | zero => rfl
    | succ rounds =>
      change tieFree nodes key (rounds + 1) id = true
      rw [tieFree, here]
  | succ h ih =>
    obtain ⟨row, id⟩ : InnerTree (Tree h) := t
    obtain ⟨_, whole, each⟩ := sound
    change row.kids.length = row.keys.length + 1 at whole
    change ∀ kid ∈ row.kids, minCount h ≤ kid.count ∧ kid.Sound at each
    obtain ⟨here, below⟩ := stored
    change nodes id = .internal row.node at here
    change ∀ kid ∈ row.kids, kid.Stored nodes at below
    change (entriesOf (row.tree id).items).length < kTieFreeEntries at few
    rw [Tree.entries_kids row id whole] at few
    cases rounds with
    | zero => rfl
    | succ rounds =>
      have least := entries_of_kids fun kid member =>
        (kid.entries_least (each kid member).2 (each kid member).1)
      have notFull : row.node.isFull = false := by
        apply decide_eq_false
        intro full
        change kInternalMaxKeys ≤ row.keys.length at full
        have more : kTieFreeEntries ≤ row.kids.length * kLeafMinEntries :=
          Nat.mul_le_mul_right _ (by omega)
        omega
      have inside : row.node.childIndexFor key < row.kids.length := by
        have most : row.node.childIndexFor key ≤ row.keys.length :=
          searchBetween_le (Nat.zero_le _)
        omega
      have member := List.getElem_mem inside
      have child : row.node.childAt (row.node.childIndexFor key) =
          row.kids[row.node.childIndexFor key].id := by
        change (row.kids.map Tree.id).getD (row.node.childIndexFor key) kNullPage = _
        rw [List.getD_eq_getElem?_getD, List.getElem?_map, List.getElem?_eq_getElem inside]
        rfl
      have part : (entriesOf row.kids[row.node.childIndexFor key].items).length ≤
          (row.kids.flatMap fun kid => entriesOf kid.items).length := by
        rw [List.flatMap_def]
        exact (List.sublist_flatten_of_mem
          (List.mem_map_of_mem (f := fun kid => entriesOf kid.items) member)).length_le
      change tieFree nodes key (rounds + 1) id = true
      rw [tieFree, here]
      dsimp only
      rw [notFull, Bool.false_and, Bool.false_and, Bool.false_and, Bool.not_false, Bool.and_true,
        child]
      exact ih (below _ member) (each _ member).2 (Nat.lt_of_le_of_lt part few) rounds

end Few

variable {s : Store} {t : Tree h} {alloc : Allocator}

theorem Tenant.tieFree (tenant : Tenant false s t)
    (few : (entriesOf t.items).length < kTieFreeEntries) (key : Key) :
    BTree.tieFree s.nodes key (rounds s) s.root = true := by
  rw [tenant.root]
  exact tieFree_of_few (tenant.standing.stored t List.mem_cons_self) tenant.sound few key _

private theorem Tree.first_leaf (t : Tree h) (fits : t.Fits) :
    ∃ leaf rest, t.leaves = leaf :: rest ∧ t.firstId = some leaf.id := by
  induction h with
  | zero => exact ⟨t, [], rfl, rfl⟩
  | succ h ih =>
    obtain ⟨row, id⟩ : InnerTree (Tree h) := t
    obtain ⟨-, whole, each⟩ := fits
    obtain ⟨first, others, starts⟩ := List.exists_cons_of_length_pos
      (whole ▸ Nat.succ_pos _ : 0 < row.kids.length)
    obtain ⟨leaf, rest, leaves, isFirst⟩ := ih first (each first (starts ▸ List.mem_cons_self))
    refine ⟨leaf, rest ++ leavesOf others, ?_, ?_⟩
    · change leavesOf row.kids = _
      rw [starts, leavesOf_cons, leaves, List.cons_append]
    · change row.kids.head?.bind Tree.firstId = _
      rw [starts, List.head?_cons, Option.bind_some, isFirst]

/-- A tree whose keys are in order has its chain of leaves in their order too. -/
theorem Tenant.chained {unique : Bool} (tenant : Tenant unique s t) : Chained s t t.leaves where
  standing := tenant.standing
  root := tenant.root
  fits := tenant.sound.fitting
  linked := tenant.linked
  leaves := .refl _
  starts := by
    obtain ⟨leaf, rest, leaves, isFirst⟩ := t.first_leaf tenant.sound.fitting
    rw [leaves, isFirst]
    rfl
  real := tenant.real

/-- Where keys may occur again every insert adds its entry. -/
theorem Entered.duplicate {overwrite inserted : Bool} {key : Key} {value : Value}
    {old new : List (Key × Value)} (entered : Entered false overwrite key value old new inserted) :
    inserted = true ∧ new.Perm ((key, value) :: old) := by
  cases entered with
  | added front back above => exact ⟨rfl, List.perm_middle⟩
  | overwritten front back was unique asked => cases unique
  | kept entries was unique asked member => cases unique

theorem Arranged.perm {inserted sorted : List (Key × Value)} (arranged : Arranged inserted sorted) :
    sorted.Perm inserted := by
  rw [List.perm_iff_count]
  intro e
  have counted : ∀ entries : List (Key × Value),
      (entries.filter fun other => other.1 = e.1).count e = entries.count e := fun entries =>
    List.count_filter (decide_eq_true rfl)
  rw [← counted sorted, arranged.same, counted]

/-- As long as there are not too many entries, no insert asks for a tie. -/
theorem tieFreeRun_of_few (entries : List (Key × Value)) (holds : Holds false s t)
    {inserted : List (Key × Value)} (arranged : Arranged inserted (entriesOf t.items))
    (few : inserted.length + entries.length ≤ kTieFreeEntries) :
    tieFreeRun alloc entries s = true := by
  induction entries generalizing s h inserted with
  | nil => rfl
  | cons e rest ih =>
    rw [List.length_cons] at few
    have here : BTree.tieFree s.nodes e.1 (rounds s) s.root = true := by
      apply holds.tenant.tieFree
      rw [arranged.perm.length_eq]
      omega
    obtain ⟨said, s₁, h₁, t₁, ran, holds₁, entered⟩ :=
      @insertWith_spec alloc false true e.1 e.2 h s t holds (.inr here)
    obtain ⟨-, arranged₁⟩ := arranged.insert entered holds₁.inOrder.entries
    have inserted_ : BTree.insert alloc false e.1 e.2 s = some (said, s₁) := ran
    rw [tieFreeRun, inserted_, here, Bool.true_and]
    apply ih holds₁ arranged₁
    rw [List.length_append, List.length_singleton]
    omega

/-- A tree planted over any pages keeps all that is inserted, as long as there are not too many
entries for a tie. -/
theorem few_duplicates_keep_order (alloc : Allocator) (nodes : PageId → Node) (root : PageId)
    (entries : List (Key × Value)) (few : entries.length ≤ kTieFreeEntries) :
    ∃ s₀ s, plant alloc { nodes, used := [], root } = some ((), s₀) ∧
      insertAll alloc entries s₀ = some (List.replicate entries.length true, s) ∧
      Keeping s entries := by
  obtain ⟨s₀, id, planted, holds₀⟩ := Holds.plant alloc false nodes root
  have free : tieFreeRun alloc entries s₀ = true := by
    apply tieFreeRun_of_few entries holds₀ Arranged.nil
    rw [List.length_nil, Nat.zero_add]
    exact few
  obtain ⟨s, h, t, ran, holds, arranged⟩ :=
    @insertAll_spec 0 alloc s₀ _ entries holds₀ [] Arranged.nil free
  exact ⟨s₀, s, planted, ran, holds.keeping arranged⟩

theorem few_duplicates_keep_order_three :
    ∃ s₀ s, plant .above { nodes := fun _ => .leaf {}, used := [], root := 0 } = some ((), s₀) ∧
      insertAll .above [(5, 0), (2, 1), (5, 2)] s₀ = some ([true, true, true], s) ∧
      Keeping s [(5, 0), (2, 1), (5, 2)] :=
  few_duplicates_keep_order .above (fun _ => .leaf {}) 0 [(5, 0), (2, 1), (5, 2)] (by decide)

end Labdb.BTree
