import Mathlib.Data.List.TakeDrop

/-! The clock, or second-chance, rule for choosing a victim in a ring: pass what is
busy, cool what was used recently, take the first entry that is neither. -/

namespace Labdb.Program.Clock

variable {α : Type} (busy recent : α → Bool) (cool : α → α)

/-- A sweep of at most so many entries from the hand on, and the ring and the hand
that it leaves. -/
def sweep : Nat → List α → Nat → Option Nat × List α × Nat
  | 0, ring, hand => (none, ring, hand)
  | left + 1, ring, hand =>
    match ring[hand]? with
    | none => (none, ring, hand)
    | some entry =>
      let next := (hand + 1) % ring.length
      if busy entry then sweep left ring next
      else if recent entry then sweep left (ring.set hand (cool entry)) next
      else (some hand, ring, next)

/-- A ring in which some entries have cooled. -/
def Cooled (ring ring' : List α) : Prop :=
  ring'.length = ring.length ∧
    ∀ index : Nat, ring'[index]? = ring[index]? ∨ ring'[index]? = ring[index]?.map cool

variable {busy recent cool}

theorem Cooled.refl (ring : List α) : Cooled cool ring ring := ⟨rfl, fun _ => .inl rfl⟩

theorem Cooled.set {ring : List α} {hand : Nat} {entry : α} (found : ring[hand]? = some entry) :
    Cooled cool ring (ring.set hand (cool entry)) := by
  refine ⟨List.length_set, fun index => ?_⟩
  by_cases same : hand = index
  · subst same
    right
    have inside := (List.getElem?_eq_some_iff.mp found).1
    rw [List.getElem?_set_self inside, found, Option.map_some]
  · exact .inl (List.getElem?_set_ne same)

theorem Cooled.trans (idempotent : ∀ entry, cool (cool entry) = cool entry)
    {ring ring' ring'' : List α} (first : Cooled cool ring ring')
    (second : Cooled cool ring' ring'') : Cooled cool ring ring'' := by
  refine ⟨second.1.trans first.1, fun index => ?_⟩
  rcases second.2 index with later | later <;> rcases first.2 index with early | early <;>
    rw [later, early]
  · exact .inl rfl
  · exact .inr rfl
  · exact .inr rfl
  · refine .inr ?_
    cases ring[index]? with
    | none => rfl
    | some entry => simp [idempotent]

/-- A sweep only cools, and what it takes is neither busy nor recent. -/
theorem sweep_spec (idempotent : ∀ entry, cool (cool entry) = cool entry) {left : Nat}
    {ring : List α} {hand : Nat} (inside : hand < ring.length) {taken : Option Nat}
    {ring' : List α} {hand' : Nat}
    (swept : sweep busy recent cool left ring hand = (taken, ring', hand')) :
    Cooled cool ring ring' ∧ hand' < ring'.length ∧
      ∀ index, taken = some index →
        ∃ entry, ring'[index]? = some entry ∧ busy entry = false ∧ recent entry = false := by
  induction left generalizing ring hand with
  | zero =>
    cases swept
    exact ⟨.refl _, inside, nofun⟩
  | succ left ih =>
    have bound : (hand + 1) % ring.length < ring.length := Nat.mod_lt _ (by omega)
    have found : ring[hand]? = some ring[hand] := List.getElem?_eq_getElem inside
    rw [sweep, found] at swept
    dsimp only at swept
    split at swept
    · exact ih bound swept
    · rename_i free
      split at swept
      · obtain ⟨cooled, rest⟩ := ih (by simpa using bound) swept
        exact ⟨(Cooled.set found).trans idempotent cooled, rest⟩
      · rename_i cold
        cases swept
        exact ⟨.refl _, bound, fun _ same =>
          Option.some.inj same ▸ ⟨_, found, by simpa using free, by simpa using cold⟩⟩

/-- What is busy is passed, and left as it is. -/
theorem sweep_passes {left : Nat} {ring : List α} {hand index : Nat} {entry : α}
    (present : ring[index]? = some entry) (held : busy entry = true) :
    (sweep busy recent cool left ring hand).2.1[index]? = some entry := by
  induction left generalizing ring hand with
  | zero => exact present
  | succ left ih =>
    rw [sweep]
    split
    · exact present
    · rename_i passed found
      dsimp only
      split
      · exact ih present
      · rename_i free
        split
        · apply ih
          rw [List.getElem?_set_ne]
          · exact present
          · intro here
            rw [here, present] at found
            cases found
            exact free held
        · exact present

/-- The hand, moved on by one, is one entry closer. -/
theorem closer {hand ahead target size : Nat} (reaches : (hand + (ahead + 1)) % size = target) :
    ((hand + 1) % size + ahead) % size = target := by
  rw [Nat.mod_add_mod, Nat.add_assoc, Nat.add_comm 1]
  exact reaches

/-- An entry that is neither busy nor recent is taken when the hand comes to it, if
no other is taken before. -/
theorem sweep_takes_cold {left : Nat} {ring : List α} {hand : Nat} (inside : hand < ring.length)
    {target ahead : Nat} {entry : α} (present : ring[target]? = some entry)
    (free : busy entry = false) (cold : recent entry = false)
    (reaches : (hand + ahead) % ring.length = target) (enough : ahead < left) :
    ∃ index, (sweep busy recent cool left ring hand).1 = some index := by
  induction left generalizing ring hand ahead with
  | zero => omega
  | succ left ih =>
    have bound : (hand + 1) % ring.length < ring.length := Nat.mod_lt _ (by omega)
    have found : ring[hand]? = some ring[hand] := List.getElem?_eq_getElem inside
    rw [sweep, found]
    dsimp only
    by_cases here : hand = target
    · subst here
      obtain rfl := Option.some.inj (found.symm.trans present)
      rw [if_neg (by simp [free]), if_neg (by simp [cold])]
      exact ⟨_, rfl⟩
    · obtain ⟨ahead, rfl⟩ : ∃ before, ahead = before + 1 := by
        refine Nat.exists_eq_succ_of_ne_zero fun none => here ?_
        rw [none, Nat.add_zero, Nat.mod_eq_of_lt inside] at reaches
        exact reaches
      split
      · exact ih bound present (closer reaches) (by omega)
      · split
        · refine ih (by simpa using bound) ?_ (by simpa using closer reaches) (by omega)
          rwa [List.getElem?_set_ne here]
        · exact ⟨_, rfl⟩

/-- Two rounds of the clock find a victim, if any entry is not busy. -/
theorem sweep_takes {left : Nat} {ring : List α} {hand : Nat} (inside : hand < ring.length)
    (stays : ∀ entry, busy (cool entry) = busy entry) (cools : ∀ entry, recent (cool entry) = false)
    {target ahead : Nat} {entry : α} (present : ring[target]? = some entry)
    (free : busy entry = false) (reaches : (hand + ahead) % ring.length = target)
    (enough : ahead + ring.length < left) :
    ∃ index, (sweep busy recent cool left ring hand).1 = some index := by
  induction left generalizing ring hand ahead with
  | zero => omega
  | succ left ih =>
    have bound : (hand + 1) % ring.length < ring.length := Nat.mod_lt _ (by omega)
    have found : ring[hand]? = some ring[hand] := List.getElem?_eq_getElem inside
    rw [sweep, found]
    dsimp only
    by_cases here : hand = target
    · subst here
      obtain rfl := Option.some.inj (found.symm.trans present)
      rw [if_neg (by simp [free])]
      split
      · -- one round later it is cold
        have around : (hand + (ring.length - 1 + 1)) % ring.length = hand := by
          rw [Nat.sub_add_cancel (by omega), Nat.add_mod_right, Nat.mod_eq_of_lt inside]
        exact sweep_takes_cold (by simpa using bound) (List.getElem?_set_self inside)
          ((stays _).trans free) (cools _) (by simpa using closer around) (by omega)
      · exact ⟨_, rfl⟩
    · obtain ⟨ahead, rfl⟩ : ∃ before, ahead = before + 1 := by
        refine Nat.exists_eq_succ_of_ne_zero fun none => here ?_
        rw [none, Nat.add_zero, Nat.mod_eq_of_lt inside] at reaches
        exact reaches
      split
      · exact ih bound present (closer reaches) (by omega)
      · split
        · refine ih (by simpa using bound) ?_ (by simpa using closer reaches) ?_
          · rwa [List.getElem?_set_ne here]
          · rw [List.length_set]
            omega
        · exact ⟨_, rfl⟩

/-- The entry at any place is some way ahead of the hand. -/
theorem exists_ahead {hand target size : Nat} (inside : hand < size) (bound : target < size) :
    ∃ ahead < size, (hand + ahead) % size = target := by
  rcases Nat.le_total hand target with before | behind
  · refine ⟨target - hand, by omega, ?_⟩
    rw [Nat.add_sub_cancel' before, Nat.mod_eq_of_lt bound]
  · refine ⟨(size - hand + target) % size, Nat.mod_lt _ (by omega), ?_⟩
    rw [Nat.add_mod_mod, show hand + (size - hand + target) = target + size by omega,
      Nat.add_mod_right, Nat.mod_eq_of_lt bound]

end Labdb.Program.Clock
