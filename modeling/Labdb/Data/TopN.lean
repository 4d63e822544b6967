import Mathlib.Data.List.Induction

/-! Sorting by a strict order of the members of a list, and the best `n` of them kept as
they are read. -/

namespace Labdb.Data

variable {α β : Type}

/-- A strict order, total among the members. -/
structure StrictOn (lt : α → α → Bool) (member : α → Prop) : Prop where
  irrefl : ∀ {a}, member a → lt a a = false
  trans : ∀ {a b c}, member a → member b → member c → lt a b = true → lt b c = true → lt a c = true
  total : ∀ {a b}, member a → member b → a ≠ b → lt a b = true ∨ lt b a = true

/-- In ascending order. -/
def sorted (lt : α → α → Bool) (items : List α) : List α := items.mergeSort fun a b => !lt b a

/-- An item in its place among others in order. -/
def place (lt : α → α → Bool) (item : α) : List α → List α
  | [] => [item]
  | first :: rest => if lt item first then item :: first :: rest else first :: place lt item rest

/-- The best `n`, in order, once another item is read: of a full list, the last is the one
that has to go. -/
def keepBest (lt : α → α → Bool) (n : Nat) (held : List α) (item : α) : List α :=
  if n = 0 then held
  else if held.length < n then place lt item held
  else
    match held.getLast? with
    | none => held
    | some worst => if lt item worst then place lt item held.dropLast else held

section Place

variable (lt : α → α → Bool) (item : α)

theorem place_perm (items : List α) : (place lt item items).Perm (item :: items) := by
  induction items with
  | nil => exact .refl _
  | cons first rest ih =>
    unfold place
    split
    · exact .refl _
    · exact (ih.cons first).trans (.swap item first rest)

theorem place_length (items : List α) : (place lt item items).length = items.length + 1 :=
  (place_perm lt item items).length_eq

theorem map_place {lt' : β → β → Bool} (f : α → β) (items : List α)
    (agree : ∀ other ∈ items, lt item other = lt' (f item) (f other)) :
    (place lt item items).map f = place lt' (f item) (items.map f) := by
  induction items with
  | nil => rfl
  | cons first rest ih =>
    rw [List.map_cons, place, place, ← agree first List.mem_cons_self]
    split
    · rfl
    · rw [List.map_cons, ih fun other here => agree other (List.mem_cons_of_mem first here)]

private theorem place_take (n : Nat) (items : List α) :
    (place lt item (items.take n)).take n = (place lt item items).take n := by
  induction n generalizing items with
  | zero => rfl
  | succ n ih =>
    cases items with
    | nil => rfl
    | cons first rest =>
      rw [List.take_succ_cons, place, place]
      split
      · rw [List.take_succ_cons, List.take_succ_cons]
        cases n with
        | zero => rfl
        | succ n =>
          rw [List.take_succ_cons, List.take_succ_cons, List.take_take]
          congr 3
          omega
      · rw [List.take_succ_cons, List.take_succ_cons, ih]

private theorem place_of_before {worst : α} (items : List α) (before : lt item worst = true) :
    place lt item (items ++ [worst]) = place lt item items ++ [worst] := by
  induction items with
  | nil => simp [place, before]
  | cons first rest ih =>
    rw [List.cons_append, place, place]
    split
    · rfl
    · rw [ih, List.cons_append]

private theorem place_of_last {items : List α} (last : ∀ other ∈ items, lt item other = false) :
    place lt item items = items ++ [item] := by
  induction items with
  | nil => rfl
  | cons first rest ih =>
    rw [place, last first List.mem_cons_self, if_neg Bool.false_ne_true,
      ih fun other here => last other (List.mem_cons_of_mem first here), List.cons_append]

end Place

/-- Only how the members compare counts. -/
theorem map_sorted {lt : α → α → Bool} {lt' : β → β → Bool} (f : α → β) (items : List α)
    (agree : ∀ a ∈ items, ∀ b ∈ items, lt a b = lt' (f a) (f b)) :
    (sorted lt items).map f = sorted lt' (items.map f) := by
  refine List.map_mergeSort fun a aIn b bIn => ?_
  rw [agree b bIn a aIn]

section Order

variable {lt : α → α → Bool} {member : α → Prop} {items : List α} {item : α}

theorem StrictOn.asymm (strict : StrictOn lt member) {a b : α} (aIn : member a) (bIn : member b)
    (before : lt a b = true) : lt b a = false := by
  cases after : lt b a with
  | false => rfl
  | true => exact absurd (strict.trans aIn bIn aIn before after) (by simp [strict.irrefl aIn])

private theorem place_pairwise (strict : StrictOn lt member) (all : ∀ other ∈ items, member other)
    (member_ : member item) (fresh : item ∉ items)
    (inOrder : items.Pairwise fun a b => lt a b = true) :
    (place lt item items).Pairwise fun a b => lt a b = true := by
  induction items with
  | nil => exact List.pairwise_singleton _ _
  | cons first rest ih =>
    have firstIn := all first List.mem_cons_self
    have restIn : ∀ other ∈ rest, member other := fun other here =>
      all other (List.mem_cons_of_mem first here)
    obtain ⟨firstLess, restOrder⟩ := List.pairwise_cons.mp inOrder
    unfold place
    split
    · rename_i before
      refine List.pairwise_cons.mpr ⟨?_, inOrder⟩
      intro other here
      rcases List.mem_cons.mp here with rfl | later
      · exact before
      · exact strict.trans member_ firstIn (restIn other later) before (firstLess other later)
    · rename_i notBefore
      have different : item ≠ first := fun same => fresh (same ▸ List.mem_cons_self)
      have after : lt first item = true := (strict.total member_ firstIn different).resolve_left
        notBefore
      refine List.pairwise_cons.mpr
        ⟨?_, ih restIn (mt (List.mem_cons_of_mem first) fresh) restOrder⟩
      intro other here
      rcases List.mem_cons.mp ((place_perm lt item rest).mem_iff.mp here) with rfl | later
      · exact after
      · exact firstLess other later

theorem sorted_pairwise (strict : StrictOn lt member) (all : ∀ other ∈ items, member other)
    (distinct : items.Nodup) : (sorted lt items).Pairwise fun a b => lt a b = true := by
  let le : { a // member a } → { a // member a } → Bool := fun a b => !lt b.1 a.1
  have inOrder := @List.pairwise_mergeSort _ le
    (by
      intro a b c ab bc
      simp only [le, Bool.not_eq_true'] at ab bc ⊢
      by_contra after
      have ca : lt c.1 a.1 = true := by simpa using after
      by_cases same : a.1 = b.1
      · rw [same] at ca
        exact absurd ca (by simp [bc])
      · have ab' := (strict.total a.2 b.2 same).resolve_right (by simp [ab])
        exact absurd (strict.trans c.2 a.2 b.2 ca ab') (by simp [bc]))
    (by
      intro a b
      simp only [le, Bool.or_eq_true, Bool.not_eq_true']
      cases ab : lt a.1 b.1 with
      | false => exact Or.inr rfl
      | true => exact Or.inl (strict.asymm a.2 b.2 ab))
    (items.attachWith member all)
  have mapped : ((items.attachWith member all).mergeSort le).map Subtype.val = sorted lt items := by
    rw [List.map_mergeSort (s := fun a b => !lt b a) (fun a _ b _ => rfl),
      List.attachWith_map_subtype_val]
    rfl
  have nodup : (sorted lt items).Nodup := (List.mergeSort_perm items _).nodup_iff.mpr distinct
  have weak : (sorted lt items).Pairwise fun a b => lt b a = false := by
    rw [← mapped, List.pairwise_map]
    exact inOrder.imp (by intro a b ab; simpa [le] using ab)
  refine (weak.and nodup).imp_of_mem ?_
  intro a b aIn bIn ⟨notAfter, different⟩
  have aMember := all a ((List.mergeSort_perm items _).mem_iff.mp aIn)
  have bMember := all b ((List.mergeSort_perm items _).mem_iff.mp bIn)
  exact (strict.total aMember bMember different).resolve_right (by simp [notAfter])

/-- There is one way to put distinct items in order. -/
theorem eq_of_pairwise (strict : StrictOn lt member) {xs ys : List α}
    (all : ∀ other ∈ xs, member other) (perm : xs.Perm ys)
    (xOrder : xs.Pairwise fun a b => lt a b = true)
    (yOrder : ys.Pairwise fun a b => lt a b = true) : xs = ys := by
  refine List.Perm.eq_of_pairwise ?_ xOrder yOrder perm
  intro a b aIn bIn ab ba
  exact absurd ba (by simp [strict.asymm (all a aIn) (all b (perm.mem_iff.mpr bIn)) ab])

private theorem sorted_concat (strict : StrictOn lt member)
    (all : ∀ other ∈ items ++ [item], member other) (distinct : (items ++ [item]).Nodup) :
    sorted lt (items ++ [item]) = place lt item (sorted lt items) := by
  have allItems : ∀ other ∈ items, member other := fun other here =>
    all other (List.mem_append_left _ here)
  have itemIn := all item (List.mem_append_right _ (List.mem_singleton_self _))
  have distinctItems := (List.nodup_append.mp distinct).1
  have fresh : item ∉ items := fun here =>
    (List.nodup_append.mp distinct).2.2 item here item (List.mem_singleton_self _) rfl
  have members : ∀ {other}, other ∈ sorted lt items → other ∈ items := fun here =>
    (List.mergeSort_perm items _).mem_iff.mp here
  have perm : (sorted lt (items ++ [item])).Perm (place lt item (sorted lt items)) :=
    (List.mergeSort_perm _ _).trans (List.perm_append_comm.trans
      (((List.mergeSort_perm items _).symm.cons item).trans (place_perm lt item _).symm))
  refine eq_of_pairwise strict ?_ perm (sorted_pairwise strict all distinct)
    (place_pairwise strict (fun other here => allItems other (members here)) itemIn
      (mt members fresh) (sorted_pairwise strict allItems distinctItems))
  intro other here
  exact all other ((List.mergeSort_perm _ _).mem_iff.mp here)

theorem keepBest_eq (strict : StrictOn lt member) {n : Nat} (all : ∀ other ∈ items, member other)
    (itemIn : member item) (inOrder : items.Pairwise fun a b => lt a b = true)
    (few : items.length ≤ n) : keepBest lt n items item = (place lt item items).take n := by
  have long := place_length lt item items
  unfold keepBest
  split
  · rename_i zero
    subst zero
    rw [List.take_zero, List.length_eq_zero_iff.mp (Nat.le_zero.mp few)]
  · rename_i positive
    split
    · rename_i space
      rw [List.take_of_length_le (by omega)]
    · rename_i full
      have count : items.length = n := Nat.le_antisymm few (Nat.not_lt.mp full)
      split
      · rename_i empty
        rw [List.getLast?_eq_none_iff.mp empty] at count
        exact absurd count.symm positive
      · rename_i worst last
        obtain ⟨front, rfl⟩ := List.getLast?_eq_some_iff.mp last
        split
        · rename_i before
          rw [List.dropLast_concat, place_of_before lt item front before, List.take_left']
          rw [place_length, ← count, List.length_append, List.length_singleton]
        · rename_i notBefore
          have lastIn := all worst (List.mem_append_right _ (List.mem_singleton_self _))
          rw [place_of_last lt item, List.take_left' count]
          intro other here
          rcases List.mem_append.mp here with earlier | same
          · have otherIn := all other here
            have less := (List.pairwise_append.mp inOrder).2.2 other earlier worst
              (List.mem_singleton_self _)
            cases before : lt item other with
            | false => rfl
            | true => exact absurd (strict.trans itemIn otherIn lastIn before less) notBefore
          · cases List.mem_singleton.mp same
            simpa using notBefore

/-- Kept as they are read, the best `n` are the first `n` of all in order. -/
theorem foldl_keepBest (strict : StrictOn lt member) (n : Nat)
    (all : ∀ other ∈ items, member other) (distinct : items.Nodup) :
    items.foldl (keepBest lt n) [] = (sorted lt items).take n := by
  induction items using List.reverseRecOn with
  | nil => simp [sorted]
  | append_singleton items item ih =>
    have allItems : ∀ other ∈ items, member other := fun other here =>
      all other (List.mem_append_left _ here)
    have distinctItems := (List.nodup_append.mp distinct).1
    have itemIn := all item (List.mem_append_right _ (List.mem_singleton_self _))
    rw [List.foldl_append, List.foldl_cons, List.foldl_nil, ih allItems distinctItems,
      sorted_concat strict all distinct, ← place_take]
    refine keepBest_eq strict ?_ itemIn ?_ (List.length_take_le _ _)
    · intro other here
      exact allItems other ((List.mergeSort_perm items _).mem_iff.mp (List.mem_of_mem_take here))
    · exact (sorted_pairwise strict allItems distinctItems).sublist (List.take_sublist _ _)

end Order

end Labdb.Data
