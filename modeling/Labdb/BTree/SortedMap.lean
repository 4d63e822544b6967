import Labdb.BTree.Erase
import Labdb.BTree.Valid

/-! A unique tree over its whole life: whatever the calls, it is the map that they describe, and it
is a B+tree after each of them. -/

namespace Labdb.BTree

open Labdb.Data Labdb.Data.Item Labdb.Query Labdb.Storage

variable {h : Nat}

/-- What a tree stands for. -/
abbrev Contents := Key → Option Value

inductive Call where
  | insert (key : Key) (value : Value)
  | insertNew (key : Key) (value : Value)
  | erase (key : Key)
  deriving DecidableEq, Repr

namespace Call

def run (alloc : Allocator) : Call → TreeM Bool
  | insert key value => BTree.insert alloc true key value
  | insertNew key value => BTree.insertNew alloc true key value
  | erase key => BTree.erase true key

/-- The same call on the map: what it says, and the map after it. -/
def apply (m : Contents) : Call → Bool × Contents
  | insert key value => ((m key).isNone, Function.update m key (some value))
  | insertNew key value =>
    ((m key).isNone, if (m key).isNone then Function.update m key (some value) else m)
  | erase key => ((m key).isSome, Function.update m key none)

def applyAll (m : Contents) : List Call → List Bool × Contents
  | [] => ([], m)
  | call :: rest =>
    let (said, m) := call.apply m
    let (others, m) := applyAll m rest
    (said :: others, m)

/-- What the calls on an empty map say, and what it holds after them. -/
def saidBy (calls : List Call) : List Bool := (applyAll (fun _ => none) calls).1

def contentsAfter (calls : List Call) : Contents := (applyAll (fun _ => none) calls).2

end Call

/-- The entries are the map's. -/
def Maps (entries : List (Key × Value)) (m : Contents) : Prop :=
  ∀ k v, (k, v) ∈ entries ↔ m k = some v

section Maps

variable {m : Contents} {key : Key} {value was : Value} {front back old new : List (Key × Value)}
  {overwrite inserted : Bool}

theorem Maps.absent (maps : Maps old m) (absent : ∀ e ∈ old, e.1 ≠ key) : m key = none := by
  cases here : m key with
  | none => rfl
  | some v => exact absurd rfl (absent (key, v) ((maps key v).mpr here))

/-- The keys around one of them in strict order are others. -/
theorem apart_of_strict (strict : (front ++ (key, value) :: back).Pairwise fun a b => a.1 < b.1) :
    ∀ e ∈ front ++ back, e.1 ≠ key := by
  obtain ⟨-, after, across⟩ := List.pairwise_append.mp strict
  intro e member same
  rcases List.mem_append.mp member with inFront | inBack
  · exact absurd (same ▸ across e inFront _ List.mem_cons_self) Std.lt_irrefl
  · exact absurd (same ▸ (List.pairwise_cons.mp after).1 e inBack) Std.lt_irrefl

theorem Maps.put (maps : Maps old m) (others : ∀ e ∈ front ++ back, e.1 ≠ key)
    (same : ∀ e, e.1 ≠ key → (e ∈ old ↔ e ∈ front ++ back)) :
    Maps (front ++ (key, value) :: back) (Function.update m key (some value)) := by
  intro k v
  by_cases here : k = key
  · subst here
    rw [Function.update_self]
    constructor
    · intro member
      rcases List.mem_append.mp member with inFront | inRest
      · exact absurd rfl (others _ (List.mem_append_left _ inFront))
      · rcases List.mem_cons.mp inRest with equal | inBack
        · exact congrArg some (Prod.mk.inj equal).2.symm
        · exact absurd rfl (others _ (List.mem_append_right _ inBack))
    · intro equal
      obtain rfl := Option.some.inj equal
      exact List.mem_append_right _ List.mem_cons_self
  · rw [Function.update_of_ne here, ← maps k v, same (k, v) here, List.mem_append, List.mem_append,
      List.mem_cons]
    constructor
    · rintro (inFront | equal | inBack)
      · exact .inl inFront
      · exact absurd (Prod.mk.inj equal).1 here
      · exact .inr inBack
    · exact fun member => member.imp_right .inr

private theorem Maps.remove (maps : Maps (front ++ (key, was) :: back) m)
    (others : ∀ e ∈ front ++ back, e.1 ≠ key) :
    Maps (front ++ back) (Function.update m key none) := by
  intro k v
  by_cases here : k = key
  · subst here
    rw [Function.update_self]
    exact ⟨fun member => absurd rfl (others _ member), fun never => absurd never (by simp)⟩
  · rw [Function.update_of_ne here, ← maps k v, List.mem_append, List.mem_append, List.mem_cons]
    constructor
    · exact fun member => member.imp_right .inr
    · rintro (inFront | equal | inBack)
      · exact .inl inFront
      · exact absurd (Prod.mk.inj equal).1 here
      · exact .inr inBack

/-- What an insert into a unique tree does to the map. -/
theorem Entered.maps (entered : Entered true overwrite key value old new inserted)
    (maps : Maps old m) (strict : new.Pairwise fun a b => a.1 < b.1) :
    inserted = (m key).isNone ∧
      Maps new (if overwrite = true ∨ (m key).isNone then Function.update m key (some value) else m) := by
  cases entered with
  | added front back above =>
    have others := apart_of_strict strict
    have none := maps.absent others
    rw [none]
    refine ⟨rfl, ?_⟩
    rw [if_pos (.inr rfl)]
    exact maps.put others fun e _ => Iff.rfl
  | overwritten front back was known asked =>
    have here : m key = some was := (maps key was).mp (List.mem_append_right _ List.mem_cons_self)
    rw [here]
    refine ⟨rfl, ?_⟩
    rw [if_pos (.inl asked)]
    apply maps.put (apart_of_strict strict)
    intro e different
    simp only [List.mem_append, List.mem_cons]
    constructor
    · rintro (inFront | equal | inBack)
      · exact .inl inFront
      · exact absurd (congrArg Prod.fst equal) different
      · exact .inr inBack
    · exact fun member => member.imp_right .inr
  | kept entries was known asked member =>
    have here : m key = some was := (maps key was).mp member
    rw [here]
    refine ⟨rfl, ?_⟩
    rw [if_neg (by simp [asked])]
    exact maps

end Maps

section Runs

variable {alloc : Allocator} {s : Store} {t : Tree h} {m : Contents}

private theorem strict_of_holds (holds : Holds true s t) :
    (entriesOf t.items).Pairwise fun a b => a.1 < b.1 := holds.inOrder.entries

/-- One call on a tree that holds. -/
theorem Call.step (call : Call) (holds : Holds true s t) (maps : Maps (entriesOf t.items) m) :
    ∃ s' h', ∃ t' : Tree h', call.run alloc s = some ((call.apply m).1, s') ∧ Holds true s' t' ∧
      Maps (entriesOf t'.items) (call.apply m).2 := by
  cases call with
  | insert key value =>
    obtain ⟨inserted, s', h', t', ran, holds', entered⟩ :=
      @insertWith_spec alloc true true key value h s t holds (.inl rfl)
    obtain ⟨said, maps'⟩ := entered.maps maps (strict_of_holds holds')
    rw [if_pos (.inl rfl)] at maps'
    subst said
    exact ⟨s', h', t', ran, holds', maps'⟩
  | insertNew key value =>
    obtain ⟨inserted, s', h', t', ran, holds', entered⟩ :=
      @insertWith_spec alloc true false key value h s t holds (.inl rfl)
    obtain ⟨said, maps'⟩ := entered.maps maps (strict_of_holds holds')
    simp only [Bool.false_eq_true, false_or] at maps'
    subst said
    exact ⟨s', h', t', ran, holds', maps'⟩
  | erase key =>
    rcases erase_spec holds key with
      ⟨ran, absent⟩ | ⟨s', h', t', ran, holds', front, was, back, old, new⟩
    · have none := maps.absent absent
      refine ⟨s, h, t, ?_, holds, ?_⟩
      · change BTree.erase true key s = some ((m key).isSome, s)
        rw [none]
        exact ran
      · change Maps _ (Function.update m key .none)
        rw [← none, Function.update_eq_self]
        exact maps
    · have strict := strict_of_holds holds
      rw [old] at maps strict
      have here := (maps key was).mp (List.mem_append_right _ List.mem_cons_self)
      refine ⟨s', h', t', ?_, holds', ?_⟩
      · change BTree.erase true key s = some ((m key).isSome, s')
        rw [here]
        exact ran
      · rw [new]
        exact maps.remove (apart_of_strict strict)

/-- Whatever the calls. -/
theorem Call.steps (calls : List Call) (holds : Holds true s t)
    (maps : Maps (entriesOf t.items) m) :
    ∃ s' h', ∃ t' : Tree h', calls.mapM (Call.run alloc) s = some ((applyAll m calls).1, s') ∧
      Holds true s' t' ∧ Maps (entriesOf t'.items) (applyAll m calls).2 := by
  induction calls generalizing s h m with
  | nil => exact ⟨s, h, t, rfl, holds, maps⟩
  | cons call rest ih =>
    obtain ⟨s', h', t', ran, holds', maps'⟩ := @Call.step h alloc s t m call holds maps
    obtain ⟨s'', h'', t'', ran', holds'', maps''⟩ := ih holds' maps'
    refine ⟨s'', h'', t'', ?_, holds'', maps''⟩
    simp [List.mapM_cons, ran, ran', applyAll]

end Runs

/-- The last of entries in strict order has the largest key. -/
theorem getLast_iff {entries : List (Key × Value)} (strict : entries.Pairwise fun a b => a.1 < b.1)
    (k : Key) (v : Value) :
    entries.getLast? = some (k, v) ↔ (k, v) ∈ entries ∧ ∀ e ∈ entries, e.1 ≤ k := by
  rcases Nat.eq_zero_or_pos entries.length with none | some_
  · obtain rfl := List.eq_nil_of_length_eq_zero none
    simp
  · obtain ⟨front, e, rfl, -⟩ := exists_last some_
    obtain ⟨-, -, across⟩ := List.pairwise_append.mp strict
    rw [List.getLast?_concat, Option.some_inj]
    constructor
    · rintro rfl
      refine ⟨List.mem_append_right _ List.mem_cons_self, fun other member => ?_⟩
      rcases List.mem_append.mp member with inFront | isLast
      · exact Std.le_of_lt (across other inFront _ List.mem_cons_self)
      · obtain rfl := List.mem_singleton.mp isLast
        exact Std.le_refl _
    · rintro ⟨member, largest⟩
      rcases List.mem_append.mp member with inFront | isLast
      · have less := across _ inFront e List.mem_cons_self
        exact absurd (largest e (List.mem_append_right _ List.mem_cons_self)) (Std.not_le.mpr less)
      · exact (List.mem_singleton.mp isLast).symm

/-- A tree planted over any pages, by a store that hands out any pages not in use, after any calls:
each has said what the map says, and the searches, the walks from any key and the last entry are
the map's; and the pages in use are a B+tree. -/
theorem unique_tree_is_map (alloc : Allocator) (nodes : PageId → Node) (root : PageId)
    (calls : List Call) :
    ∃ s, (do plant alloc; calls.mapM (Call.run alloc)) { nodes, used := [], root } =
        some (Call.saidBy calls, s) ∧
      (∀ k, search true k s = some (Call.contentsAfter calls k, s)) ∧
      (∀ lo, ∃ c, ∃ entries : List (Key × Value), seek true lo s = some (c, s) ∧
        (∀ count, walk count c s = some (entries.take count, s)) ∧
        (entries.Pairwise fun a b => a.1 < b.1) ∧
        ∀ k v, (k, v) ∈ entries ↔ Call.contentsAfter calls k = some v ∧ lo ≤ k) ∧
      (∃ c, last s = some (c, s) ∧ ∀ k v, c.current = some (k, v) ↔
        Call.contentsAfter calls k = some v ∧
          ∀ k' v', Call.contentsAfter calls k' = some v' → k' ≤ k) ∧
      ∃ h, ∃ t : Tree h, Valid true s t := by
  obtain ⟨s₀, id, planted, holds₀⟩ := Holds.plant alloc true nodes root
  have maps₀ : Maps (entriesOf (Tree.ofLeaf id {}).items) fun _ => none := fun k v =>
    ⟨fun never => absurd never List.not_mem_nil, fun never => nomatch never⟩
  obtain ⟨s, h, t, ran, holds, maps⟩ := @Call.steps 0 alloc s₀ _ _ calls holds₀ maps₀
  have strict := strict_of_holds holds
  refine ⟨s, ?_, fun k => ?_, fun lo => ?_, ?_, h, t, holds.valid⟩
  · simp [planted, ran, Call.saidBy]
  · obtain ⟨found, searched, same⟩ := search_spec holds k
    have equal : found = Call.contentsAfter calls k :=
      Option.ext fun v => (same v).trans (maps k v)
    rw [searched, equal]
  · obtain ⟨c, sought, reads⟩ := seek_spec holds lo
    refine ⟨c, _, sought, reads.walk, strict.filter _, fun k v => ?_⟩
    rw [List.mem_filter, maps k v, decide_eq_true_iff]
    rfl
  · obtain ⟨c, found, reads⟩ := last_spec holds
    refine ⟨c, found, fun k v => ?_⟩
    have current : c.current = (entriesOf t.items).getLast? := by
      rw [reads.current]
      cases (entriesOf t.items).getLast? <;> rfl
    rw [current, getLast_iff strict, maps k v]
    apply and_congr_right
    intro _
    constructor
    · exact fun largest k' v' here => largest (k', v') ((maps k' v').mpr here)
    · exact fun largest e member => largest e.1 e.2 ((maps e.1 e.2).mp member)

end Labdb.BTree
