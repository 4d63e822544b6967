import Labdb.BTree.Ties
import Labdb.BTree.Valid

/-! A tree with duplicate keys: entries with equal keys keep the order in which they were inserted,
as long as no full node takes in a separator that is equal to the next one. -/

namespace Labdb.BTree

open Labdb.Data Labdb.Data.Item Labdb.Query Labdb.Storage

variable {h : Nat}

/-- The entries in ascending order of their keys, and those of each key as they were inserted. -/
structure Arranged (inserted sorted : List (Key × Value)) : Prop where
  ascending : sorted.Pairwise fun a b => a.1 ≤ b.1
  same : ∀ k, (sorted.filter fun e => e.1 = k) = inserted.filter fun e => e.1 = k

theorem Arranged.nil : Arranged [] [] where
  ascending := List.Pairwise.nil
  same _ := rfl

section Arranged

variable {inserted old new : List (Key × Value)} {key : Key} {value : Value} {said overwrite : Bool}

/-- An entry goes behind those with its key. -/
theorem Arranged.insert (arranged : Arranged inserted old)
    (entered : Entered false overwrite key value old new said)
    (ascending : new.Pairwise fun a b => a.1 ≤ b.1) :
    said = true ∧ Arranged (inserted ++ [(key, value)]) new := by
  cases entered with
  | overwritten front back was known asked => cases known
  | kept entries was known asked member => cases known
  | added front back above =>
    refine ⟨rfl, ascending, fun k => ?_⟩
    have before := arranged.same k
    rw [List.filter_append] at before
    by_cases equal : key = k
    · have none : back.filter (fun e => decide (e.1 = k)) = [] := by
        apply List.filter_eq_nil_iff.mpr
        intro e member
        have less := above e member
        simpa using fun same : e.1 = k => Std.lt_irrefl (equal ▸ same ▸ less)
      rw [none, List.append_nil] at before
      rw [List.filter_append, List.filter_append, List.filter_cons, if_pos (decide_eq_true equal),
        List.filter_cons, if_pos (decide_eq_true equal), none, before]
      rfl
    · rw [List.filter_append, List.filter_append, List.filter_cons,
        if_neg (by simpa using equal), List.filter_cons, if_neg (by simpa using equal), before]
      simp

theorem Arranged.mem_iff {sorted : List (Key × Value)} (arranged : Arranged inserted sorted)
    (e : Key × Value) : e ∈ sorted ↔ e ∈ inserted := by
  have same := arranged.same e.1
  have sortedAt : e ∈ sorted ↔ e ∈ sorted.filter fun other => other.1 = e.1 := by simp
  have insertedAt : e ∈ inserted ↔ e ∈ inserted.filter fun other => other.1 = e.1 := by simp
  rw [sortedAt, insertedAt, same]

/-- The last entry is the last to come of those with the largest key. -/
theorem Arranged.getLast {sorted : List (Key × Value)} (arranged : Arranged inserted sorted)
    {k : Key} {e : Key × Value} (largest : ∀ other ∈ inserted, other.1 ≤ k)
    (ends : (inserted.filter fun other => other.1 = k).getLast? = some e) :
    sorted.getLast? = some e := by
  rw [← arranged.same] at ends
  have member := List.mem_filter.mp (List.mem_of_getLast? ends)
  obtain ⟨front, final, whole, -⟩ := exists_last (List.length_pos_of_mem member.1)
  have key : final.1 = k := by
    apply Std.le_antisymm
    · apply largest
      rw [← arranged.mem_iff, whole]
      exact List.mem_append_right _ List.mem_cons_self
    · rw [← of_decide_eq_true member.2]
      have within := member.1
      have ascending := arranged.ascending
      rw [whole] at within ascending
      rcases List.mem_append.mp within with earlier | last_
      · exact (List.pairwise_append.mp ascending).2.2 e earlier final List.mem_cons_self
      · rw [List.mem_singleton.mp last_]
        exact Std.le_refl _
  rw [whole, List.filter_append, List.filter_cons, if_pos (decide_eq_true key), List.filter_nil,
    List.getLast?_concat] at ends
  rw [whole, List.getLast?_concat, ends]

end Arranged

section Runs

variable {alloc : Allocator} {s : Store} {t : Tree h}

/-- No step of the calls asks a full node to take in a separator equal to the next one. -/
def tieFreeRun (alloc : Allocator) : List (Key × Value) → Store → Bool
  | [], _ => true
  | e :: rest, s =>
    tieFree s.nodes e.1 (rounds s) s.root &&
      match BTree.insert alloc false e.1 e.2 s with
      | none => true
      | some (_, s') => tieFreeRun alloc rest s'

theorem tieFreeRun_cons {e : Key × Value} {rest : List (Key × Value)} {said : Bool} {s' : Store}
    (free : tieFreeRun alloc (e :: rest) s = true)
    (ran : BTree.insert alloc false e.1 e.2 s = some (said, s')) :
    tieFree s.nodes e.1 (rounds s) s.root = true ∧ tieFreeRun alloc rest s' = true := by
  rw [tieFreeRun, ran, Bool.and_eq_true] at free
  exact free

theorem insertAll_spec (entries : List (Key × Value)) (holds : Holds false s t)
    {inserted : List (Key × Value)} (arranged : Arranged inserted (entriesOf t.items))
    (free : tieFreeRun alloc entries s = true) :
    ∃ s' h', ∃ t' : Tree h',
      insertAll alloc entries s = some (List.replicate entries.length true, s') ∧
      Holds false s' t' ∧ Arranged (inserted ++ entries) (entriesOf t'.items) := by
  induction entries generalizing s h inserted with
  | nil => exact ⟨s, h, t, rfl, holds, by rwa [List.append_nil]⟩
  | cons e rest ih =>
    have freeHere : tieFree s.nodes e.1 (rounds s) s.root = true := by
      rw [tieFreeRun, Bool.and_eq_true] at free
      exact free.1
    obtain ⟨said, s₁, h₁, t₁, ran, holds₁, entered⟩ :=
      @insertWith_spec alloc false true e.1 e.2 h s t holds (.inr freeHere)
    obtain ⟨rfl, arranged₁⟩ := arranged.insert entered holds₁.inOrder.entries
    obtain ⟨s', h', t', ran', holds', arranged'⟩ := ih holds₁ arranged₁ (tieFreeRun_cons free ran).2
    refine ⟨s', h', t', ?_, holds', by simpa using arranged'⟩
    have first : BTree.insert alloc false e.1 e.2 s = some (true, s₁) := ran
    have others : rest.mapM (fun e => BTree.insert alloc false e.1 e.2) s₁ =
        some (List.replicate rest.length true, s') := ran'
    simp [insertAll, List.mapM_cons, first, others, List.replicate_succ]

/-- A store in which a tree with duplicate keys keeps the inserted entries: it is a B+tree, a walk
from any key meets the arranged entries that are not below the key, and the last one is found. -/
def Keeping (s : Store) (inserted : List (Key × Value)) : Prop :=
  ∃ sorted, Arranged inserted sorted ∧
    (∃ h, ∃ t : Tree h, Valid false s t) ∧
    (∀ lo, ∃ c, seek false lo s = some (c, s) ∧
      ∀ count, walk count c s = some ((sorted.filter fun e => lo ≤ e.1).take count, s)) ∧
    ∃ c, last s = some (c, s) ∧ c.current = sorted.getLast?

theorem Holds.keeping (holds : Holds false s t) {inserted : List (Key × Value)}
    (arranged : Arranged inserted (entriesOf t.items)) : Keeping s inserted := by
  refine ⟨_, arranged, ⟨h, t, holds.valid⟩, fun lo => ?_, ?_⟩
  · obtain ⟨c, sought, reads⟩ := seek_spec holds lo
    exact ⟨c, sought, reads.walk⟩
  · obtain ⟨c, found, reads⟩ := last_spec holds
    refine ⟨c, found, ?_⟩
    rw [reads.current]
    cases (entriesOf t.items).getLast? <;> rfl

end Runs

/-- The page above all in use. -/
def Allocator.above : Allocator where
  pick _ used := used.foldr max 0 + 1
  unused _ used member := by
    have largest : ∀ rest : List PageId, ∀ id ∈ rest, id ≤ rest.foldr max 0 := by
      intro rest id inside
      induction rest with
      | nil => exact absurd inside List.not_mem_nil
      | cons first rest ih =>
        rw [List.foldr_cons]
        rcases List.mem_cons.mp inside with rfl | later
        · exact Nat.le_max_left _ _
        · exact (ih later).trans (Nat.le_max_right _ _)
    exact Nat.not_succ_le_self _ (largest used _ member)
  real _ used := Nat.succ_ne_zero _


/-- A tree planted over any pages keeps all that is inserted, as long as no step is asked for a
tie. -/
theorem duplicates_keep_order (alloc : Allocator) (nodes : PageId → Node) (root : PageId)
    (entries : List (Key × Value)) (s₀ : Store)
    (planted : plant alloc { nodes, used := [], root } = some ((), s₀))
    (free : tieFreeRun alloc entries s₀ = true) :
    ∃ s, insertAll alloc entries s₀ = some (List.replicate entries.length true, s) ∧
      Keeping s entries := by
  obtain ⟨s, id, planted', holds₀⟩ := Holds.plant alloc false nodes root
  obtain rfl : s = s₀ := (Prod.mk.inj (Option.some.inj (planted'.symm.trans planted))).2
  obtain ⟨s, h, t, ran, holds, arranged⟩ :=
    @insertAll_spec 0 alloc s _ entries holds₀ [] Arranged.nil free
  exact ⟨s, ran, holds.keeping arranged⟩

theorem duplicates_keep_order_two :
    ∃ s₀ s, plant .above { nodes := fun _ => .leaf {}, used := [], root := 0 } = some ((), s₀) ∧
      insertAll .above [(5, 0), (5, 1)] s₀ = some ([true, true], s) ∧
      Keeping s [(5, 0), (5, 1)] := by
  obtain ⟨s, ran, keeping⟩ := duplicates_keep_order .above (fun _ => .leaf {}) 0
    [(5, 0), (5, 1)] _ rfl (by decide)
  exact ⟨_, s, rfl, ran, keeping⟩

/-- As many equal keys as fill the root, and then as many smaller ones as split its first leaf: the
last entry found is not the last in order. -/
theorem duplicates_out_of_order :
    ∃ s₀ s, plant .above { nodes := fun _ => .leaf {}, used := [], root := 0 } = some ((), s₀) ∧
      insertAll .above (equals 5 0 43181 ++ equals 1 0 128) s₀ =
        some (List.replicate 43309 true, s) ∧
      (∃ c, last s = some (c, s) ∧ c.current = some (5, 126)) ∧
      ¬ Keeping s (equals 5 0 43181 ++ equals 1 0 128) := by
  obtain ⟨s₀, id, planted, holds⟩ := Holds.plant .above false (fun _ => .leaf {}) 0
  have less : (1 : Key) < 5 := by decide
  obtain ⟨s, inserted, c, found, current⟩ :=
    @ties_misplaced .above s₀ 1 5 id ⟨holds.standing, holds.root⟩ less
  have length : (equals 5 0 43181 ++ equals 1 0 128).length = 43309 := by
    rw [List.length_append, length_equals, length_equals]
  refine ⟨s₀, s, planted, length ▸ inserted, ⟨c, found, current⟩, ?_⟩
  rintro ⟨sorted, arranged, -, -, c', found', current'⟩
  have same : c' = c := (Prod.mk.inj (Option.some.inj (found'.symm.trans found))).1
  have largest : ∀ other ∈ equals 5 0 43181 ++ equals 1 0 128, other.1 ≤ 5 := by
    intro other member
    rcases List.mem_append.mp member with five | one
    · exact key_of_mem_equals five ▸ Std.le_refl _
    · exact key_of_mem_equals one ▸ Std.le_of_lt less
  have fives : (equals 5 0 43181 ++ equals 1 0 128).filter (fun other => other.1 = 5) =
      equals 5 0 43181 := by
    rw [List.filter_append, List.filter_eq_self.mpr, List.filter_eq_nil_iff.mpr, List.append_nil]
    · intro e member
      rw [key_of_mem_equals member]
      decide
    · intro e member
      rw [key_of_mem_equals member]
      decide
  have ends := arranged.getLast largest (fives ▸ getLast_equals 5 0 43180)
  rw [ends, same, current] at current'
  have values : (126 : Value) = UInt64.ofNat (0 + 43180) :=
    (Prod.mk.inj (Option.some.inj current')).2
  exact absurd values (by decide)

end Labdb.BTree
