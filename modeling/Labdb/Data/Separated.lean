import Mathlib.Data.List.Basic

/-! Entries in order of their keys, with separators between them: what a tree of separators and
blocks of entries is when its blocks are laid out one after another. -/

namespace Labdb.Data

variable {κ ν : Type}

inductive Item (κ ν : Type) where
  | sep (key : κ)
  | entry (key : κ) (value : ν)

namespace Item

def key : Item κ ν → κ
  | sep key => key
  | entry key _ => key

def entry? : Item κ ν → Option (κ × ν)
  | sep _ => none
  | entry key value => some (key, value)

variable [LT κ] [LE κ]

/-- What may come before what: of two entries the first has the smaller key, or one that is not
larger; a separator bounds what is on either side. -/
def Before (strict : Bool) : Item κ ν → Item κ ν → Prop
  | sep key, y => key ≤ y.key
  | entry key _, y => if strict then key < y.key else key ≤ y.key

variable [Std.LawfulOrderLT κ] {strict : Bool} {x y z : Item κ ν}

theorem Before.le (before : Before strict x y) : x.key ≤ y.key := by
  cases x with
  | sep key => exact before
  | entry key value =>
    cases strict with
    | false => exact before
    | true => exact Std.le_of_lt before

theorem Before.of_lt (less : x.key < y.key) : Before strict x y := by
  cases x with
  | sep key => exact Std.le_of_lt less
  | entry key value =>
    cases strict with
    | false => exact Std.le_of_lt less
    | true => exact less

variable [Std.IsLinearOrder κ]

theorem Before.of_le (before : Before strict x y) (least : y.key ≤ z.key) : Before strict x z := by
  cases x with
  | sep key => exact Std.le_trans before least
  | entry key value =>
    cases strict with
    | false => exact Std.le_trans (a := key) before least
    | true => exact Std.lt_of_lt_of_le (a := key) before least

end Item

open Item

def entriesOf (items : List (Item κ ν)) : List (κ × ν) := items.filterMap Item.entry?

@[simp] theorem entriesOf_append (front back : List (Item κ ν)) :
    entriesOf (front ++ back) = entriesOf front ++ entriesOf back := List.filterMap_append

@[simp] theorem entriesOf_sep (key : κ) (items : List (Item κ ν)) :
    entriesOf (.sep key :: items) = entriesOf items := rfl

@[simp] theorem entriesOf_entry (key : κ) (value : ν) (items : List (Item κ ν)) :
    entriesOf (.entry key value :: items) = (key, value) :: entriesOf items := rfl

@[simp] theorem entriesOf_nil : entriesOf ([] : List (Item κ ν)) = [] := rfl

/-- Entries without separators. -/
def block (entries : List (κ × ν)) : List (Item κ ν) := entries.map fun e => .entry e.1 e.2

@[simp] theorem entriesOf_block (entries : List (κ × ν)) : entriesOf (block entries) = entries := by
  induction entries with
  | nil => rfl
  | cons e rest ih => exact congrArg (e :: ·) ih

@[simp] theorem block_append (front back : List (κ × ν)) :
    block (front ++ back) = block front ++ block back := List.map_append

@[simp] theorem block_cons (e : κ × ν) (rest : List (κ × ν)) :
    block (e :: rest) = .entry e.1 e.2 :: block rest := rfl

theorem mem_entriesOf {items : List (Item κ ν)} {e : κ × ν} :
    e ∈ entriesOf items ↔ .entry e.1 e.2 ∈ items := by
  rw [entriesOf, List.mem_filterMap]
  constructor
  · rintro ⟨item, member, same⟩
    cases item with
    | sep key => cases same
    | entry key value =>
      cases same
      exact member
  · exact fun member => ⟨_, member, rfl⟩

section Weave

/-- Blocks with their separators between them. -/
def back (keys : List κ) (blocks : List (List (Item κ ν))) : List (Item κ ν) :=
  (List.zipWith (fun key items => .sep key :: items) keys blocks).flatten

def front (keys : List κ) (blocks : List (List (Item κ ν))) : List (Item κ ν) :=
  (List.zipWith (fun key items => items ++ [.sep key]) keys blocks).flatten

def weave (keys : List κ) : List (List (Item κ ν)) → List (Item κ ν)
  | [] => []
  | items :: rest => items ++ back keys rest

variable {keys keys' : List κ} {blocks blocks' : List (List (Item κ ν))} {key : κ}
  {items : List (Item κ ν)}

theorem back_append (same : keys.length = blocks.length) :
    back (keys ++ keys') (blocks ++ blocks') = back keys blocks ++ back keys' blocks' := by
  rw [back, List.zipWith_append same, List.flatten_append]
  rfl

theorem back_cons : back (key :: keys) (items :: blocks) = .sep key :: items ++ back keys blocks :=
  rfl

/-- The blocks around one of them. -/
theorem weave_zip (same : keys.length = blocks.length) :
    weave (keys ++ keys') (blocks ++ items :: blocks') =
      front keys blocks ++ items ++ back keys' blocks' := by
  induction blocks generalizing keys items with
  | nil =>
    obtain rfl := List.length_eq_zero_iff.mp same
    rfl
  | cons first rest ih =>
    cases keys with
    | nil => cases same
    | cons key keys =>
      have weaved := @ih keys items (Nat.succ.inj same)
      cases rest with
      | nil =>
        obtain rfl := List.length_eq_zero_iff.mp (Nat.succ.inj same)
        simp only [weave, back, front, List.cons_append, List.nil_append, List.zipWith_cons_cons,
          List.flatten_cons, List.zipWith_nil_left, List.flatten_nil, List.append_nil,
          List.append_assoc]
      | cons second rest =>
        simp only [weave, List.cons_append, back_cons, front, List.zipWith_cons_cons,
          List.flatten_cons, List.append_assoc] at weaved ⊢
        rw [weaved]
        rfl

/-- A separator between two rows of blocks. -/
theorem weave_split {left right : List (List (Item κ ν))} (same : left.length = keys.length + 1)
    (some_ : right ≠ []) :
    weave (keys ++ key :: keys') (left ++ right) = weave keys left ++ .sep key :: weave keys' right := by
  cases left with
  | nil => cases same
  | cons first rest =>
    cases right with
    | nil => exact absurd rfl some_
    | cons second others =>
      have lengths : keys.length = rest.length := by
        rw [List.length_cons] at same
        omega
      simp only [weave, List.cons_append]
      rw [back_append lengths, back_cons, List.append_assoc]
      simp only [List.cons_append]

theorem seps_sublist_back (same : keys.length = blocks.length) :
    (keys.map Item.sep).Sublist (back keys blocks) := by
  induction blocks generalizing keys with
  | nil =>
    obtain rfl := List.length_eq_zero_iff.mp same
    exact List.Sublist.slnil
  | cons items rest ih =>
    cases keys with
    | nil => cases same
    | cons key keys =>
      rw [List.map_cons, back_cons, List.cons_append]
      exact ((ih (Nat.succ.inj same)).trans (List.sublist_append_right _ _)).cons_cons _

private theorem seps_sublist_weave (same : blocks.length = keys.length + 1) :
    (keys.map Item.sep).Sublist (weave keys blocks) := by
  cases blocks with
  | nil => cases same
  | cons items rest =>
    exact (seps_sublist_back (Nat.succ.inj same).symm).trans (List.sublist_append_right _ _)

end Weave

section Order

variable [LT κ] [LE κ] {strict : Bool} {front back items : List (Item κ ν)}
  {key : κ} {value : ν}

/-- In order: every item may come before every later one. -/
abbrev InOrder (strict : Bool) (items : List (Item κ ν)) : Prop := items.Pairwise (Before strict)

theorem inOrder_append : InOrder strict (front ++ back) ↔
    InOrder strict front ∧ InOrder strict back ∧ ∀ x ∈ front, ∀ y ∈ back, Before strict x y :=
  List.pairwise_append

/-- An entry where it belongs. -/
theorem InOrder.insert (inOrder : InOrder strict (front ++ back))
    (below : ∀ x ∈ front, Before strict x (.entry key value))
    (above : ∀ y ∈ back, Before strict (.entry key value) y) :
    InOrder strict (front ++ .entry key value :: back) := by
  obtain ⟨before, after, across⟩ := inOrder_append.mp inOrder
  refine inOrder_append.mpr ⟨before, List.pairwise_cons.mpr ⟨above, after⟩,
    fun x inFront y member => ?_⟩
  rcases List.mem_cons.mp member with rfl | later
  · exact below x inFront
  · exact across x inFront y later

/-- Values do not matter. -/
theorem InOrder.revalue (inOrder : InOrder strict (front ++ .entry key value :: back)) (value' : ν) :
    InOrder strict (front ++ .entry key value' :: back) := by
  obtain ⟨before, after, across⟩ := inOrder_append.mp inOrder
  obtain ⟨ahead, rest⟩ := List.pairwise_cons.mp after
  refine inOrder_append.mpr ⟨before, List.pairwise_cons.mpr ⟨fun y later => ahead y later, rest⟩,
    fun x inFront y member => ?_⟩
  rcases List.mem_cons.mp member with rfl | later
  · have first := across x inFront _ List.mem_cons_self
    cases x <;> exact first
  · exact across x inFront y (List.mem_cons_of_mem _ later)

theorem inOrder_block {entries : List (κ × ν)} : InOrder strict (block entries) ↔
    entries.Pairwise fun a b => if strict then a.1 < b.1 else a.1 ≤ b.1 :=
  List.pairwise_map

theorem InOrder.entries (inOrder : InOrder strict items) :
    (entriesOf items).Pairwise fun a b => if strict then a.1 < b.1 else a.1 ≤ b.1 := by
  refine List.Pairwise.filterMap _ (fun x y before a isA b isB => ?_) inOrder
  cases x with
  | sep key => cases isA
  | entry key value =>
    cases y with
    | sep key' => cases isB
    | entry key' value' =>
      obtain rfl := Option.some.inj isA
      obtain rfl := Option.some.inj isB
      exact before

variable {keys : List κ} {blocks : List (List (Item κ ν))}

/-- What lies between separators has one behind it, or one before it. -/
theorem before_sep_of_mem_front [Std.IsLinearOrder κ]
    (inOrder : InOrder strict (Data.front keys blocks)) {x : Item κ ν}
    (member : x ∈ Data.front keys blocks) : ∃ key ∈ keys, Before strict x (.sep key) := by
  induction blocks generalizing keys with
  | nil =>
    rw [Data.front, List.zipWith_nil_right] at member
    exact absurd member List.not_mem_nil
  | cons items rest ih =>
    cases keys with
    | nil => exact absurd member List.not_mem_nil
    | cons key keys =>
      have split : Data.front (key :: keys) (items :: rest) =
          (items ++ [.sep key]) ++ Data.front keys rest := rfl
      rw [split] at inOrder member
      obtain ⟨first, others, -⟩ := inOrder_append.mp inOrder
      rcases List.mem_append.mp member with here | later
      · refine ⟨key, List.mem_cons_self, ?_⟩
        rcases List.mem_append.mp here with inBlock | isSep
        · exact (inOrder_append.mp first).2.2 x inBlock _ (List.mem_singleton.mpr rfl)
        · obtain rfl := List.mem_singleton.mp isSep
          exact Std.le_refl key
      · obtain ⟨other, known, before⟩ := ih others later
        exact ⟨other, List.mem_cons_of_mem _ known, before⟩

theorem sep_le_of_mem_back [Std.IsLinearOrder κ]
    (inOrder : InOrder strict (Data.back keys blocks)) {y : Item κ ν}
    (member : y ∈ Data.back keys blocks) : ∃ key ∈ keys, key ≤ y.key := by
  induction blocks generalizing keys with
  | nil =>
    rw [Data.back, List.zipWith_nil_right] at member
    exact absurd member List.not_mem_nil
  | cons items rest ih =>
    cases keys with
    | nil => exact absurd member List.not_mem_nil
    | cons key keys =>
      rw [back_cons] at inOrder member
      obtain ⟨first, others, -⟩ := inOrder_append.mp inOrder
      rcases List.mem_append.mp member with here | later
      · refine ⟨key, List.mem_cons_self, ?_⟩
        rcases List.mem_cons.mp here with rfl | inBlock
        · exact Std.le_refl key
        · exact (List.pairwise_cons.mp first).1 y inBlock
      · obtain ⟨other, known, least⟩ := ih others later
        exact ⟨other, List.mem_cons_of_mem _ known, least⟩

/-- The separators of a row in order. -/
theorem InOrder.separators (inOrder : InOrder strict (weave keys blocks))
    (same : blocks.length = keys.length + 1) : keys.Pairwise (· ≤ ·) := by
  have seps := inOrder.sublist (seps_sublist_weave same)
  exact (List.pairwise_map.mp seps).imp fun le => le

variable [Std.IsLinearOrder κ] [Std.LawfulOrderLT κ]

/-- A separator with the key of the entry after it. -/
theorem InOrder.separate (inOrder : InOrder strict (front ++ .entry key value :: back)) :
    InOrder strict (front ++ .sep key :: .entry key value :: back) := by
  obtain ⟨before, after, across⟩ := inOrder_append.mp inOrder
  refine inOrder_append.mpr ⟨before, List.pairwise_cons.mpr ⟨fun y member => ?_, after⟩,
    fun x inFront y member => ?_⟩
  · rcases List.mem_cons.mp member with rfl | later
    · exact Std.le_refl key
    · exact ((List.pairwise_cons.mp after).1 y later).le
  · have first := across x inFront _ List.mem_cons_self
    rcases List.mem_cons.mp member with rfl | later
    · exact first.of_le (Std.le_refl key)
    · exact across x inFront y later

end Order

end Labdb.Data
