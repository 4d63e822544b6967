import Labdb.Data.Lists
import Mathlib.Data.Nat.Find

/-! Open addressing with linear probing: a slot holds the number of an entry and one more,
or 0 where it is empty. -/

namespace Labdb.Data.Probing

/-- The position `step` places after `start`, around the table. -/
def walk (size start step : Nat) : Nat := (start + step) % size

/-- The first position, of at most `rounds`, at which the walk stops. -/
def probe (next : Nat → Nat) (stop : Nat → Bool) : Nat → Nat → Option Nat
  | 0, _ => none
  | rounds + 1, i => if stop i then some i else probe next stop rounds (next i)

/-- The next position, the first one after the last. -/
def around (size i : Nat) : Nat := (i + 1) % size

/-- What a position holds. -/
def slotAt (slots : List Nat) (i : Nat) : Nat := slots.getD i 0

/-- A walk ends at an empty slot, and at that of an entry that is looked for. -/
def stops (slots : List Nat) (hit : Nat → Bool) (i : Nat) : Bool :=
  slotAt slots i = 0 || hit (slotAt slots i - 1)

/-- The entries below `n` have their slots, each reached from its home before an empty slot is. -/
structure Filed (home : Nat → Nat) (n : Nat) (slots : List Nat) : Prop where
  known : ∀ slot ∈ slots, slot ≤ n
  reach : ∀ g < n, ∃ d < slots.length, slotAt slots (walk slots.length (home g) d) = g + 1 ∧
    ∀ d' < d, slotAt slots (walk slots.length (home g) d') ≠ 0

section Walks

variable {size start : Nat} {stop : Nat → Bool}

private theorem walk_lt (positive : 0 < size) (start step : Nat) : walk size start step < size :=
  Nat.mod_lt _ positive

private theorem around_walk (size start step : Nat) :
    around size (walk size start step) = walk size start (step + 1) := by
  rw [around, walk, walk, Nat.mod_add_mod, Nat.add_assoc]

/-- Every position lies on every walk. -/
theorem exists_walk (start : Nat) {i : Nat} (inside : i < size) :
    ∃ d < size, walk size start d = i := by
  have positive : 0 < size := Nat.zero_lt_of_lt inside
  refine ⟨(i + (size - start % size)) % size, Nat.mod_lt _ positive, ?_⟩
  have below := Nat.mod_lt start positive
  rw [walk, Nat.add_mod_mod, ← Nat.mod_add_mod]
  have split : start % size + (i + (size - start % size)) = i + size := by omega
  rw [split, Nat.add_mod_right, Nat.mod_eq_of_lt inside]

private theorem probe_walk (rounds : Nat) {d : Nat} (first : d < rounds)
    (found : stop (walk size start d) = true)
    (before : ∀ d' < d, stop (walk size start d') = false) :
    probe (around size) stop rounds (walk size start 0) = some (walk size start d) := by
  have general : ∀ left from_, from_ + left = d → ∀ rounds, left < rounds →
      probe (around size) stop rounds (walk size start from_) = some (walk size start d) := by
    intro left
    induction left with
    | zero =>
      intro from_ here rounds some_
      obtain ⟨rest, rfl⟩ := Nat.exists_eq_succ_of_ne_zero (Nat.ne_of_gt some_)
      rw [Nat.add_zero] at here
      rw [here, probe, if_pos found]
    | succ left ih =>
      intro from_ ahead rounds enough
      obtain ⟨rest, rfl⟩ := Nat.exists_eq_succ_of_ne_zero (Nat.ne_of_gt (Nat.zero_lt_of_lt enough))
      have passes := before from_ (by omega)
      rw [probe, passes, if_neg Bool.false_ne_true, around_walk]
      exact ih (from_ + 1) (by omega) rest (by omega)
  exact general d 0 (Nat.zero_add d) rounds first

/-- A walk that passes a stop within its rounds ends at the first one. -/
theorem probe_spec {rounds d : Nat} (inside : d < rounds)
    (found : stop (walk size start d) = true) :
    ∃ d' ≤ d, probe (around size) stop rounds (walk size start 0) = some (walk size start d') ∧
      stop (walk size start d') = true ∧
      ∀ earlier < d', stop (walk size start earlier) = false := by
  have exists_ : ∃ d, stop (walk size start d) = true := ⟨d, found⟩
  refine ⟨Nat.find exists_, Nat.find_le found, ?_, Nat.find_spec exists_, fun earlier before => ?_⟩
  · refine probe_walk rounds (Nat.lt_of_le_of_lt (Nat.find_le found) inside)
      (Nat.find_spec exists_) fun earlier before => ?_
    exact Bool.eq_false_iff.mpr (Nat.find_min exists_ before)
  · exact Bool.eq_false_iff.mpr (Nat.find_min exists_ before)

end Walks

section Tables

variable {home : Nat → Nat} {n : Nat} {slots : List Nat} {hit : Nat → Bool}

/-- How many slots are taken. -/
def taken (slots : List Nat) : Nat := slots.countP (· ≠ 0)

private theorem exists_empty (room : taken slots < slots.length) :
    ∃ i < slots.length, slotAt slots i = 0 := by
  by_contra full
  have all : ∀ slot ∈ slots, decide (slot ≠ 0) = true := by
    intro slot member
    obtain ⟨i, inside, rfl⟩ := List.mem_iff_getElem.mp member
    refine decide_eq_true fun zero => full ⟨i, inside, ?_⟩
    rw [slotAt, List.getD_eq_getElem?_getD, List.getElem?_eq_getElem inside]
    exact zero
  exact Nat.ne_of_lt room (List.countP_eq_length.mpr all)

/-- A table with an empty slot lets no walk go on for ever. -/
theorem probe_ends (room : taken slots < slots.length) (hit : Nat → Bool) (start : Nat) :
    ∃ d < slots.length,
      probe (around slots.length) (stops slots hit) slots.length (walk slots.length start 0) =
        some (walk slots.length start d) ∧
      stops slots hit (walk slots.length start d) = true ∧
      ∀ d' < d, stops slots hit (walk slots.length start d') = false := by
  obtain ⟨i, inside, empty⟩ := exists_empty room
  obtain ⟨d, within, rfl⟩ := exists_walk start inside
  have found : stops slots hit (walk slots.length start d) = true := by
    rw [stops, empty]
    rfl
  obtain ⟨d', le, answer, stopped, before⟩ := probe_spec within found
  exact ⟨d', Nat.lt_of_le_of_lt le within, answer, stopped, before⟩

private theorem slot_ne_zero {i : Nat} (passed : stops slots hit i = false) : slotAt slots i ≠ 0 :=
  of_decide_eq_false (Bool.or_eq_false_iff.mp passed).1

private theorem Filed.slot_le (filed : Filed home n slots) (i : Nat) : slotAt slots i ≤ n := by
  rw [slotAt, List.getD_eq_getElem?_getD]
  cases here : slots[i]? with
  | none => exact Nat.zero_le n
  | some slot => exact filed.known slot (List.mem_of_getElem? here)

/-- Where an entry with this home is looked for, one that is looked for is found. -/
theorem Filed.finds (filed : Filed home n slots) {g : Nat} (known : g < n) (isHit : hit g = true) :
    ∃ i, ∃ g' < n, probe (around slots.length) (stops slots hit) slots.length
        (walk slots.length (home g) 0) = some i ∧
      slotAt slots i = g' + 1 ∧ hit g' = true := by
  obtain ⟨d, within, here, ahead⟩ := filed.reach g known
  have found : stops slots hit (walk slots.length (home g) d) = true := by
    rw [stops, here, Nat.add_sub_cancel, isHit, Bool.or_true]
  obtain ⟨d', le, answer, stopped, -⟩ := probe_spec within found
  have some_ : slotAt slots (walk slots.length (home g) d') ≠ 0 := by
    rcases Nat.lt_or_eq_of_le le with earlier | rfl
    · exact ahead d' earlier
    · rw [here]
      exact Nat.succ_ne_zero g
  have bound := filed.slot_le (walk slots.length (home g) d')
  refine ⟨_, _, ?_, answer, (Nat.succ_pred_eq_of_ne_zero some_).symm, ?_⟩
  · exact Nat.lt_of_lt_of_le (Nat.pred_lt some_) bound
  · rcases Bool.or_eq_true_iff.mp stopped with empty | hits
    · exact absurd (of_decide_eq_true empty) some_
    · exact hits

/-- Where none is looked for, the walk ends at an empty slot. -/
theorem Filed.misses (filed : Filed home n slots) (room : taken slots < slots.length) (start : Nat)
    (none_ : ∀ g < n, hit g = false) :
    ∃ d < slots.length,
      probe (around slots.length) (stops slots hit) slots.length (walk slots.length start 0) =
        some (walk slots.length start d) ∧
      slotAt slots (walk slots.length start d) = 0 ∧
      ∀ d' < d, slotAt slots (walk slots.length start d') ≠ 0 := by
  obtain ⟨d, within, answer, stopped, before⟩ := probe_ends room hit start
  refine ⟨d, within, answer, ?_, fun d' earlier => slot_ne_zero (before d' earlier)⟩
  rcases Bool.or_eq_true_iff.mp stopped with empty | hits
  · exact of_decide_eq_true empty
  · by_contra some_
    have bound := filed.slot_le (walk slots.length start d)
    rw [none_ _ (by omega)] at hits
    cases hits

/-- A new entry goes into the empty slot that its walk ended at. -/
theorem Filed.put (filed : Filed home n slots) {d : Nat} (within : d < slots.length)
    (empty : slotAt slots (walk slots.length (home n) d) = 0)
    (ahead : ∀ d' < d, slotAt slots (walk slots.length (home n) d') ≠ 0) :
    Filed home (n + 1) (slots.set (walk slots.length (home n) d) (n + 1)) := by
  have inside := walk_lt (Nat.zero_lt_of_lt within) (home n) d
  have stays : ∀ j, slotAt slots j ≠ 0 →
      slotAt (slots.set (walk slots.length (home n) d) (n + 1)) j ≠ 0 := by
    intro j some_
    rw [slotAt, getD_set]
    split
    · exact Nat.succ_ne_zero n
    · exact some_
  refine ⟨fun slot member => ?_, fun g known => ?_⟩
  · rcases List.mem_or_eq_of_mem_set member with old | rfl
    · exact Nat.le_succ_of_le (filed.known slot old)
    · exact Nat.le_refl _
  · rw [List.length_set]
    rcases Nat.lt_or_eq_of_le (Nat.le_of_lt_succ known) with older | rfl
    · obtain ⟨d', within', here, before⟩ := filed.reach g older
      refine ⟨d', within', ?_, fun e earlier => stays _ (before e earlier)⟩
      rw [slotAt, getD_set, if_neg]
      · exact here
      rintro ⟨same, -⟩
      rw [← same, empty] at here
      exact Nat.succ_ne_zero g here.symm
    · refine ⟨d, within, ?_, fun e earlier => stays _ (ahead e earlier)⟩
      rw [slotAt, getD_set, if_pos ⟨rfl, inside⟩]

theorem taken_set (slots : List Nat) (i slot : Nat) :
    taken (slots.set i slot) ≤ taken slots + 1 := by
  rcases Nat.lt_or_ge i slots.length with inside | outside
  · rw [taken, List.countP_set inside]
    refine Nat.add_le_add (Nat.sub_le _ _) ?_
    split
    · exact Nat.le_refl 1
    · exact Nat.zero_le 1
  · rw [List.set_eq_of_length_le outside]
    exact Nat.le_succ _

theorem taken_replicate (size : Nat) : taken (List.replicate size 0) = 0 := by
  rw [taken, List.countP_eq_zero]
  intro slot member
  rw [List.eq_of_mem_replicate member]
  exact Bool.false_ne_true

theorem filed_replicate (home : Nat → Nat) (size : Nat) : Filed home 0 (List.replicate size 0) := by
  refine ⟨fun slot member => ?_, fun g none_ => absurd none_ (Nat.not_lt_zero g)⟩
  rw [List.eq_of_mem_replicate member]

/-- What is filed depends on the homes of its own entries alone. -/
theorem Filed.congr {home' : Nat → Nat} (filed : Filed home n slots)
    (same : ∀ g < n, home' g = home g) : Filed home' n slots := by
  refine ⟨filed.known, fun g known => ?_⟩
  rw [same g known]
  exact filed.reach g known

end Tables

end Labdb.Data.Probing
