import Labdb.Query.Answers

/-! GROUP BY as a whole: one row for each key, in the order in which the keys first appear. -/

namespace Labdb.Query

open Labdb.Data

section Leaders

variable {α : Type} {same : α → α → Bool}

private theorem eraseDupsBy_loop_append (front back found : List α) :
    List.eraseDupsBy.loop same (front ++ back) found =
      List.eraseDupsBy.loop same back (List.eraseDupsBy.loop same front found).reverse := by
  induction front generalizing found with
  | nil =>
    rw [List.nil_append, List.eraseDupsBy.loop, List.reverse_reverse]
  | cons item front ih =>
    rw [List.cons_append, List.eraseDupsBy.loop, List.eraseDupsBy.loop]
    cases found.any (same item) with
    | true => exact ih found
    | false => exact ih (item :: found)

/-- One more item leads a class of its own unless one like it was seen. -/
theorem eraseDupsBy_concat (items : List α) (item : α) : (items ++ [item]).eraseDupsBy same =
    items.eraseDupsBy same ++ if (items.eraseDupsBy same).any (same item) then [] else [item] := by
  unfold List.eraseDupsBy
  rw [eraseDupsBy_loop_append, List.eraseDupsBy.loop, List.any_reverse]
  cases (List.eraseDupsBy.loop same items []).any (same item) with
  | true =>
    dsimp only
    rw [List.eraseDupsBy.loop, List.reverse_reverse, if_pos rfl, List.append_nil]
  | false =>
    dsimp only
    rw [List.eraseDupsBy.loop, List.reverse_cons, List.reverse_reverse,
      if_neg Bool.false_ne_true]

private theorem mem_eraseDupsBy_append {front back : List α} {first : α}
    (leads : first ∈ front.eraseDupsBy same) : first ∈ (front ++ back).eraseDupsBy same := by
  induction back using List.reverseRecOn with
  | nil => rwa [List.append_nil]
  | append_singleton back item ih =>
    rw [← List.append_assoc, eraseDupsBy_concat]
    exact List.mem_append_left _ ih

theorem eraseDupsBy_sublist (items : List α) : (items.eraseDupsBy same).Sublist items := by
  induction items using List.reverseRecOn with
  | nil => exact List.Sublist.refl []
  | append_singleton items item ih =>
    rw [eraseDupsBy_concat]
    refine ih.append ?_
    split
    · exact List.nil_sublist _
    · exact List.Sublist.refl _

theorem eraseDupsBy_pairwise (items : List α) :
    (items.eraseDupsBy same).Pairwise fun first later => same later first = false := by
  induction items using List.reverseRecOn with
  | nil => exact List.Pairwise.nil
  | append_singleton items item ih =>
    rw [eraseDupsBy_concat]
    split
    · rwa [List.append_nil]
    · rename_i unlike
      refine List.pairwise_append.mpr ⟨ih, List.pairwise_singleton _ _, ?_⟩
      intro first member later isLater
      rw [List.mem_singleton.mp isLater, Bool.eq_false_iff]
      exact fun isSame => unlike (List.any_eq_true.mpr ⟨first, member, isSame⟩)

/-- Every item has its class led. -/
theorem exists_leader {items : List α} (refl_ : ∀ item ∈ items, same item item = true) {item : α}
    (member : item ∈ items) : ∃ first ∈ items.eraseDupsBy same, same item first = true := by
  induction items using List.reverseRecOn with
  | nil => cases member
  | append_singleton items last ih =>
    rw [eraseDupsBy_concat]
    rcases List.mem_append.mp member with old | new
    · obtain ⟨first, leads, isSame⟩ :=
        ih (fun item inside => refl_ item (List.mem_append_left _ inside)) old
      exact ⟨first, List.mem_append_left _ leads, isSame⟩
    · rw [List.mem_singleton.mp new]
      split
      · rename_i like
        obtain ⟨first, leads, isSame⟩ := List.any_eq_true.mp like
        exact ⟨first, List.mem_append_left _ leads, isSame⟩
      · exact ⟨last, List.mem_append_right _ (List.mem_singleton.mpr rfl), refl_ last
          (List.mem_append_right _ (List.mem_singleton.mpr rfl))⟩

end Leaders

namespace HashAggregate

/-- The groups of these rows, each with its key and its own rows, by their first rows. Without
GROUP BY all rows are one group. -/
def groups (agg : HashAggregate) (rows : List Row) : List (Row × List Row) :=
  if agg.groupCols = [] then [([], rows)]
  else (rows.eraseDupsBy agg.same).map fun first => (agg.keyOf first, rows.filter (agg.same first))

section States

variable {agg : HashAggregate} {states : List AggState} {row : Row} {g : Nat}

/-- The states are those of the groups, one after another. -/
structure Summed (agg : HashAggregate) (members : List (List Row)) (states : List AggState) :
    Prop where
  length : states.length = members.length * agg.aggs.length
  folded : ∀ (g : Nat) rows, members[g]? = some rows → ∀ (a : Nat) spec, agg.aggs[a]? = some spec →
    Folded spec rows (states.getD (g * agg.aggs.length + a) {})

private theorem update_suffix (base : Nat) (next : Nat → AggState) (specs : List AggSpec) (k : Nat)
    (states : List AggState) (inside : base + k + specs.length ≤ states.length)
    (updates : ∀ (j : Nat) spec, specs[j]? = some spec →
      aggUpdate spec (states.getD (base + (k + j)) {}) (Row.at row spec.col) = .ok (next (k + j))) :
    ∃ states', (specs.zipIdx k).foldlM (fun states (spec, a) => do
        let state ← aggUpdate spec (states.getD (base + a) {}) (Row.at row spec.col)
        pure (states.set (base + a) state)) states = .ok states' ∧
      states'.length = states.length ∧
      ∀ i, states'.getD i {} = if base + k ≤ i ∧ i < base + k + specs.length then next (i - base)
        else states.getD i {} := by
  induction specs generalizing k states with
  | nil =>
    refine ⟨states, rfl, rfl, fun i => ?_⟩
    rw [if_neg]
    simp
  | cons spec specs ih =>
    have first := updates 0 spec rfl
    rw [Nat.add_zero] at first
    rw [List.length_cons] at inside
    obtain ⟨states', run_, length, read⟩ := ih (k + 1) (states.set (base + k) (next k))
      (by rw [List.length_set]; omega) (by
        intro j spec' isSpec
        have later := updates (j + 1) spec' isSpec
        have other : (states.set (base + k) (next k)).getD (base + (k + 1 + j)) {} =
            states.getD (base + (k + (j + 1))) {} := by
          rw [List.getD_eq_getElem?_getD, List.getElem?_set_ne (by omega),
            ← List.getD_eq_getElem?_getD, Nat.add_assoc k 1 j, Nat.add_comm 1 j]
        rw [other, Nat.add_assoc k 1 j, Nat.add_comm 1 j]
        exact later)
    rw [List.length_set] at length
    refine ⟨states', ?_, length, fun i => ?_⟩
    · rw [List.zipIdx_cons, List.foldlM_cons]
      dsimp only
      rw [first]
      exact run_
    · rw [read, List.length_cons]
      by_cases here : i = base + k
      · subst here
        rw [if_neg (by omega), if_pos (by omega), List.getD_eq_getElem?_getD,
          List.getElem?_set_self (by omega), Nat.add_sub_cancel_left]
        rfl
      · rw [List.getD_eq_getElem?_getD, List.getElem?_set_ne (Ne.symm here),
          ← List.getD_eq_getElem?_getD]
        have same : (base + (k + 1) ≤ i ∧ i < base + (k + 1) + specs.length) ↔
            (base + k ≤ i ∧ i < base + k + (specs.length + 1)) := by omega
        simp only [same]

/-- A row of a group is folded into the states of that group alone. -/
theorem Summed.update {members : List (List Row)} (summed : Summed agg members states)
    {rows : List Row} (isGroup : members[g]? = some rows)
    (valid : ∀ spec ∈ agg.aggs, spec.Valid) (uniform : Uniform (rows ++ [row]))
    (fits : ∀ spec ∈ agg.aggs, spec.SumFits (rows ++ [row])) :
    ∃ states', agg.update g row states = .ok states' ∧
      Summed agg (members.set g (rows ++ [row])) states' := by
  have each : ∀ a, ∃ state', ∀ spec, agg.aggs[a]? = some spec →
      aggUpdate spec (states.getD (g * agg.aggs.length + a) {}) (Row.at row spec.col) =
        .ok state' ∧ Folded spec (rows ++ [row]) state' := by
    intro a
    cases isSpec : agg.aggs[a]? with
    | none => exact ⟨{}, nofun⟩
    | some spec =>
      have member := List.mem_of_getElem? isSpec
      obtain ⟨state', updated, folded⟩ := folded_concat (valid spec member)
        (summed.folded g rows isGroup a spec isSpec) uniform (fits spec member)
      refine ⟨state', fun spec' isSpec' => ?_⟩
      cases isSpec'
      exact ⟨updated, folded⟩
  choose next updates using each
  obtain ⟨inGroups, -⟩ := List.getElem?_eq_some_iff.mp isGroup
  have whole : g * agg.aggs.length + agg.aggs.length ≤ members.length * agg.aggs.length := by
    rw [← Nat.succ_mul]
    exact Nat.mul_le_mul_right _ inGroups
  obtain ⟨states', run_, length, read⟩ := update_suffix (g * agg.aggs.length) next agg.aggs 0 states
    (by rw [summed.length]; omega) fun j spec isSpec => by
      rw [Nat.zero_add]
      exact (updates j spec isSpec).1
  refine ⟨states', run_, ?_, fun g' rows' isGroup' a spec isSpec => ?_⟩
  · rw [length, summed.length, List.length_set]
  · obtain ⟨inside, -⟩ := List.getElem?_eq_some_iff.mp isSpec
    rw [read]
    by_cases same : g = g'
    · subst same
      rw [List.getElem?_set_self inGroups] at isGroup'
      cases isGroup'
      rw [if_pos (by omega), Nat.add_sub_cancel_left]
      exact (updates a spec isSpec).2
    · rw [List.getElem?_set_ne same] at isGroup'
      rw [if_neg]
      · exact summed.folded g' rows' isGroup' a spec isSpec
      · rcases Nat.lt_or_gt_of_ne same with before | after
        · have above := Nat.mul_le_mul_right agg.aggs.length before
          rw [Nat.succ_mul] at above
          omega
        · have below := Nat.mul_le_mul_right agg.aggs.length after
          rw [Nat.succ_mul] at below
          omega

/-- The states of a group without rows. -/
theorem Summed.concat {members : List (List Row)} (summed : Summed agg members states) :
    Summed agg (members ++ [[]])
      (states ++ List.replicate agg.aggs.length ({} : AggState)) := by
  refine ⟨?_, fun g rows isGroup a spec isSpec => ?_⟩
  · rw [List.length_append, List.length_replicate, summed.length, List.length_append,
      List.length_singleton, Nat.succ_mul]
  · obtain ⟨inside, -⟩ := List.getElem?_eq_some_iff.mp isSpec
    rw [List.getD_eq_getElem?_getD]
    rcases Nat.lt_trichotomy g members.length with before | rfl | after
    · have whole := Nat.mul_le_mul_right agg.aggs.length before
      rw [Nat.succ_mul, ← summed.length] at whole
      rw [List.getElem?_append_left before] at isGroup
      rw [List.getElem?_append_left (by omega), ← List.getD_eq_getElem?_getD]
      exact summed.folded g rows isGroup a spec isSpec
    · rw [List.getElem?_concat_length] at isGroup
      cases isGroup
      rw [List.getElem?_append_right (by rw [summed.length]; omega), summed.length,
        Nat.add_sub_cancel_left, List.getElem?_replicate_of_lt inside]
      exact folded_nil spec
    · rw [List.getElem?_eq_none (by rw [List.length_append, List.length_singleton]; omega)]
        at isGroup
      cases isGroup

end States

section Runs

variable {agg : HashAggregate} {groups : Groups} {seen rest : List Row} {row : Row}

/-- What the aggregation holds once these rows came in. -/
structure Holds (agg : HashAggregate) (seen : List Row) (groups : Groups) : Prop where
  keys : groups.keys = (agg.groups seen).map Prod.fst
  summed : Summed agg ((agg.groups seen).map Prod.snd) groups.states
  filing : agg.groupCols ≠ [] →
    groups.Filing ∧ groups.hashes = (seen.eraseDupsBy agg.same).map agg.keyHash

theorem groups_grouped (grouped : agg.groupCols ≠ []) (rows : List Row) :
    agg.groups rows = (rows.eraseDupsBy agg.same).map fun first =>
      (agg.keyOf first, rows.filter (agg.same first)) :=
  if_neg grouped

/-- The row goes to a group that is there, and whose rows with it are those it is to have. -/
structure Placed (agg : HashAggregate) (seen : List Row) (row : Row) (groups : Groups) (g : Nat) :
    Prop where
  keys : groups.keys = (agg.groups (seen ++ [row])).map Prod.fst
  summed : ∃ members, Summed agg members groups.states ∧ ∃ rows, members[g]? = some rows ∧
    members.set g (rows ++ [row]) = (agg.groups (seen ++ [row])).map Prod.snd
  filing : agg.groupCols ≠ [] →
    groups.Filing ∧ groups.hashes = ((seen ++ [row]).eraseDupsBy agg.same).map agg.keyHash

private theorem hits_iff (grouped : agg.groupCols ≠ []) (holds : Holds agg seen groups)
    (uniform : Uniform (seen ++ [row])) {g : Nat} {first : Row}
    (leads : (seen.eraseDupsBy agg.same)[g]? = some first) :
    agg.hits groups row g = agg.same row first := by
  have key : groups.keys.getD g [] = agg.keyOf first := by
    rw [holds.keys, groups_grouped grouped, List.map_map, List.getD_eq_getElem?_getD,
      List.getElem?_map, leads]
    rfl
  have hash : groups.hashes.getD g 0 = agg.keyHash first := by
    rw [(holds.filing grouped).2, List.getD_eq_getElem?_getD, List.getElem?_map, leads]
    rfl
  have isSame : agg.sameKey groups row g = agg.same row first := by
    rw [sameKey, key]
    exact sameFields_eq row first agg.groupCols
  unfold hits
  rw [isSame, hash]
  cases same_ : agg.same row first with
  | false => exact Bool.and_false _
  | true =>
    have firstIn := (eraseDupsBy_sublist seen).subset (List.mem_of_getElem? leads)
    have hashes := keyHash_of_same uniform (List.mem_append_right _ (List.mem_singleton.mpr rfl))
      (List.mem_append_left _ firstIn) same_
    rw [hashes, Bool.and_true]
    exact decide_eq_true rfl

private theorem placed_known (grouped : agg.groupCols ≠ []) (holds : Holds agg seen groups)
    (uniform : Uniform (seen ++ [row])) {g : Nat} {first : Row}
    (leads : (seen.eraseDupsBy agg.same)[g]? = some first) (isSame : agg.same row first = true) :
    Placed agg seen row groups g := by
  have leaders : (seen ++ [row]).eraseDupsBy agg.same = seen.eraseDupsBy agg.same := by
    rw [eraseDupsBy_concat, if_pos (List.any_eq_true.mpr ⟨first, List.mem_of_getElem? leads, isSame⟩),
      List.append_nil]
  have inAll : ∀ x ∈ seen.eraseDupsBy agg.same, x ∈ seen ++ [row] := fun x member =>
    List.mem_append_left _ ((eraseDupsBy_sublist seen).subset member)
  have rowIn : row ∈ seen ++ [row] := List.mem_append_right _ (List.mem_singleton.mpr rfl)
  have firstIn := inAll first (List.mem_of_getElem? leads)
  have place := (same_iff uniform rowIn firstIn).mp isSame
  obtain ⟨inside, isFirst⟩ := List.getElem?_eq_some_iff.mp leads
  refine ⟨?_, ⟨_, holds.summed, seen.filter (agg.same first), ?_, ?_⟩, fun _ => ?_⟩
  · rw [holds.keys, groups_grouped grouped, groups_grouped grouped, leaders, List.map_map,
      List.map_map]
    rfl
  · rw [groups_grouped grouped, List.map_map, List.getElem?_map, leads]
    rfl
  · rw [groups_grouped grouped, groups_grouped grouped, leaders, List.map_map, List.map_map]
    refine List.ext_getElem? fun i => ?_
    rw [List.getElem?_map]
    by_cases here : g = i
    · subst here
      rw [List.getElem?_set_self (by rw [List.length_map]; exact inside), leads]
      refine congrArg some ?_
      change _ = (seen ++ [row]).filter (agg.same first)
      have back : agg.same first row = true := (same_iff uniform firstIn rowIn).mpr place.symm
      rw [List.filter_append, List.filter_singleton, back]
      rfl
    · rw [List.getElem?_set_ne here, List.getElem?_map]
      cases other : (seen.eraseDupsBy agg.same)[i]? with
      | none => rfl
      | some first' =>
        refine congrArg some ?_
        change seen.filter (agg.same first') = (seen ++ [row]).filter (agg.same first')
        obtain ⟨inside', isFirst'⟩ := List.getElem?_eq_some_iff.mp other
        have otherIn := inAll first' (List.mem_of_getElem? other)
        have unlike : agg.same first' row = false := by
          rw [Bool.eq_false_iff]
          intro like
          have place' := (same_iff uniform otherIn rowIn).mp like
          have apart := List.pairwise_iff_getElem.mp (@eraseDupsBy_pairwise _ agg.same seen)
          rcases Nat.lt_or_gt_of_ne here with before | after
          · have differ := apart g i inside inside' before
            rw [isFirst, isFirst', (same_iff uniform otherIn firstIn).mpr (place'.trans place)]
              at differ
            cases differ
          · have differ := apart i g inside' inside after
            rw [isFirst, isFirst', (same_iff uniform firstIn otherIn).mpr
              (place'.trans place).symm] at differ
            cases differ
        rw [List.filter_append, List.filter_singleton, unlike]
        exact (List.append_nil _).symm
  · rw [leaders]
    exact holds.filing grouped

private theorem placed_new (grouped : agg.groupCols ≠ []) (holds : Holds agg seen groups)
    (uniform : Uniform (seen ++ [row])) {groups' : Groups}
    (unlike : ∀ first ∈ seen.eraseDupsBy agg.same, agg.same row first = false)
    (keys : groups'.keys = groups.keys ++ [agg.keyOf row])
    (hashes : groups'.hashes = groups.hashes ++ [agg.keyHash row])
    (states : groups'.states = groups.states ++ List.replicate agg.aggs.length ({} : AggState))
    (filing : groups'.Filing) : Placed agg seen row groups' groups.keys.length := by
  have leaders : (seen ++ [row]).eraseDupsBy agg.same = seen.eraseDupsBy agg.same ++ [row] := by
    rw [eraseDupsBy_concat, if_neg]
    rw [List.any_eq_true]
    intro ⟨first, member, like⟩
    rw [unlike first member] at like
    cases like
  have rowIn : row ∈ seen ++ [row] := List.mem_append_right _ (List.mem_singleton.mpr rfl)
  have seenIn : ∀ x ∈ seen, x ∈ seen ++ [row] := fun x member => List.mem_append_left _ member
  have none_ : seen.filter (agg.same row) = [] := by
    refine List.filter_eq_nil_iff.mpr fun x member like => ?_
    have place := (same_iff uniform rowIn (seenIn x member)).mp like
    obtain ⟨first, leads, isSame⟩ := @exists_leader _ agg.same seen
      (fun y inSeen => (same_iff uniform (seenIn y inSeen) (seenIn y inSeen)).mpr rfl) x member
    have firstIn := seenIn first ((eraseDupsBy_sublist seen).subset leads)
    have place' := (same_iff uniform (seenIn x member) firstIn).mp isSame
    have like' := (same_iff uniform rowIn firstIn).mpr (place.trans place')
    rw [unlike first leads] at like'
    cases like'
  have grown : agg.groups (seen ++ [row]) = agg.groups seen ++ [(agg.keyOf row, [row])] := by
    rw [groups_grouped grouped, groups_grouped grouped, leaders, List.map_append]
    refine congrArg₂ _ (List.map_congr_left fun first leads => ?_) ?_
    · have firstIn := seenIn first ((eraseDupsBy_sublist seen).subset leads)
      have unlike' : agg.same first row = false := by
        rw [Bool.eq_false_iff]
        intro like
        have place := (same_iff uniform firstIn rowIn).mp like
        have back := (same_iff uniform rowIn firstIn).mpr place.symm
        rw [unlike first leads] at back
        cases back
      rw [List.filter_append, List.filter_singleton, unlike']
      exact congrArg _ (List.append_nil _)
    · have self : agg.same row row = true := (same_iff uniform rowIn rowIn).mpr rfl
      rw [List.map_singleton, List.filter_append, List.filter_singleton, none_, self]
      rfl
  have count : groups.keys.length = ((agg.groups seen).map Prod.snd).length := by
    rw [holds.keys, List.length_map, List.length_map]
  refine ⟨?_, ⟨_, states ▸ holds.summed.concat, [], ?_, ?_⟩, fun _ => ⟨filing, ?_⟩⟩
  · rw [keys, holds.keys, grown, List.map_append, List.map_singleton]
  · rw [count, List.getElem?_concat_length]
  · rw [count, grown, List.map_append, List.set_append_right _ _ (Nat.le_refl _), Nat.sub_self]
    rfl
  · rw [hashes, (holds.filing grouped).2, leaders, List.map_append, List.map_singleton]

/-- Every row finds its group. -/
theorem place_spec (holds : Holds agg seen groups) (uniform : Uniform (seen ++ [row])) :
    ∃ groups' g, agg.groupOf groups row = some (groups', g) ∧ Placed agg seen row groups' g := by
  unfold groupOf
  by_cases grouped : agg.groupCols = []
  · have one : ∀ rows, agg.groups rows = [([], rows)] := fun rows => if_pos grouped
    refine ⟨groups, 0, if_pos grouped, ?_, ⟨[seen], ?_, seen, rfl, ?_⟩, fun some_ =>
      absurd grouped some_⟩
    · rw [holds.keys, one, one]
      rfl
    · have summed := holds.summed
      rw [one] at summed
      exact summed
    · rw [one]
      rfl
  · rw [if_neg grouped]
    obtain ⟨filing, hashes⟩ := holds.filing grouped
    have count : groups.keys.length = (seen.eraseDupsBy agg.same).length := by
      rw [holds.keys, groups_grouped grouped, List.length_map, List.length_map]
    have aligned : groups.keys.length = groups.hashes.length := by
      rw [count, hashes, List.length_map]
    rcases findOrAdd_spec filing aligned row with ⟨g, inside, isHit, found⟩ | ⟨misses, added⟩
    · have leads := List.getElem?_eq_getElem (count ▸ inside)
      rw [hits_iff grouped holds uniform leads] at isHit
      exact ⟨groups, g, found, placed_known grouped holds uniform leads isHit⟩
    · obtain ⟨groups', found, keys, hashes', states, filing'⟩ := added
      refine ⟨groups', _, found, placed_new grouped holds uniform ?_ keys hashes' states filing'⟩
      intro first leads
      obtain ⟨g, inside, isFirst⟩ := List.mem_iff_getElem.mp leads
      rw [← hits_iff grouped holds uniform (List.getElem?_eq_some_iff.mpr ⟨inside, isFirst⟩)]
      exact misses g (count ▸ inside)

/-- A group only grows. -/
theorem exists_group (agg : HashAggregate) {front back : List Row} {group : Row × List Row}
    (member : group ∈ agg.groups front) :
    ∃ group' ∈ agg.groups (front ++ back), ∃ more, group'.2 = group.2 ++ more := by
  unfold groups at *
  split at member
  · rename_i ungrouped
    rw [List.mem_singleton.mp member, if_pos ungrouped]
    exact ⟨_, List.mem_singleton.mpr rfl, back, rfl⟩
  · rename_i grouped
    obtain ⟨first, leads, rfl⟩ := List.mem_map.mp member
    rw [if_neg grouped]
    exact ⟨_, List.mem_map.mpr ⟨first, mem_eraseDupsBy_append leads, rfl⟩,
      back.filter (agg.same first), List.filter_append _ _⟩

theorem mem_of_group {rows : List Row} {group : Row × List Row} (member : group ∈ agg.groups rows)
    (inGroup : row ∈ group.2) : row ∈ rows := by
  unfold groups at member
  split at member
  · rw [List.mem_singleton.mp member] at inGroup
    exact inGroup
  · obtain ⟨first, -, rfl⟩ := List.mem_map.mp member
    exact List.mem_of_mem_filter inGroup

theorem start_holds (agg : HashAggregate) : Holds agg [] agg.start := by
  have nothing : Summed agg [] [] := ⟨(Nat.zero_mul _).symm, nofun⟩
  unfold start
  split
  · rename_i ungrouped
    have one : agg.groups [] = [([], [])] := if_pos ungrouped
    refine ⟨?_, ?_, fun grouped => absurd ungrouped grouped⟩
    · rw [one]
      rfl
    · rw [one]
      exact nothing.concat
  · rename_i grouped
    have none_ : agg.groups [] = [] := groups_grouped grouped []
    refine ⟨?_, ?_, fun _ => ⟨⟨⟨4, rfl⟩, rfl, ?_, Nat.zero_le _, Probing.filed_replicate _ _⟩, rfl⟩⟩
    · rw [none_]
      rfl
    · rw [none_]
      exact nothing
    · exact Nat.le_of_eq (Probing.taken_replicate 16)

theorem addRow_eq {placed : Groups} {g : Nat} (found : agg.groupOf groups row = some (placed, g)) :
    agg.addRow groups row =
      some ((agg.update g row placed.states).map fun states => { placed with states }) := by
  rw [addRow, found]
  rfl

/-- One more row, whose values do not make a sum overflow. -/
theorem addRow_holds (holds : Holds agg seen groups) (valid : ∀ spec ∈ agg.aggs, spec.Valid)
    (uniform : Uniform (seen ++ [row]))
    (fits : ∀ group ∈ agg.groups (seen ++ [row]), ∀ spec ∈ agg.aggs, spec.SumFits group.2) :
    ∃ groups', agg.addRow groups row = some (.ok groups') ∧ Holds agg (seen ++ [row]) groups' := by
  obtain ⟨placed, g, found, keys, ⟨members, summed, rows, isGroup, after⟩, filing⟩ :=
    place_spec holds uniform
  have inAfter : rows ++ [row] ∈ (agg.groups (seen ++ [row])).map Prod.snd := by
    rw [← after]
    obtain ⟨inside, -⟩ := List.getElem?_eq_some_iff.mp isGroup
    exact List.mem_set inside _
  obtain ⟨group, member, isRows⟩ := List.mem_map.mp inAfter
  have uniform' : Uniform (rows ++ [row]) := fun x xIn y yIn =>
    uniform x (mem_of_group member (isRows ▸ xIn)) y (mem_of_group member (isRows ▸ yIn))
  obtain ⟨states, updated, summed'⟩ := summed.update isGroup valid uniform'
    fun spec inAggs => isRows ▸ fits group member spec inAggs
  refine ⟨{ placed with states }, ?_, keys, after ▸ summed', fun grouped => ?_⟩
  · rw [addRow_eq found, updated]
    rfl
  · exact ⟨(filing grouped).1.withStates states, (filing grouped).2⟩

theorem addRows_holds (holds : Holds agg seen groups) (valid : ∀ spec ∈ agg.aggs, spec.Valid)
    (uniform : Uniform (seen ++ rest))
    (fits : ∀ group ∈ agg.groups (seen ++ rest), ∀ spec ∈ agg.aggs, spec.SumFits group.2) :
    ∃ groups', agg.addRows groups rest = some (.ok groups') ∧
      Holds agg (seen ++ rest) groups' := by
  induction rest generalizing seen groups with
  | nil => exact ⟨groups, rfl, by rwa [List.append_nil]⟩
  | cons row rest ih =>
    rw [List.append_cons] at uniform fits ⊢
    obtain ⟨groups', added, holds'⟩ := addRow_holds holds valid (fun x xIn y yIn =>
        uniform x (List.mem_append_left _ xIn) y (List.mem_append_left _ yIn))
      fun group member spec inAggs => by
        obtain ⟨group', member', more, split⟩ := @exists_group agg _ rest _ member
        have whole := fits group' member' spec inAggs
        rw [split] at whole
        exact SumFits.front whole
    obtain ⟨last, run_, holds''⟩ := ih holds' uniform fits
    refine ⟨last, ?_, holds''⟩
    rw [addRows, added]
    exact run_

/-- A table whose walks all end. -/
def Ends (agg : HashAggregate) (groups : Groups) : Prop :=
  agg.groupCols ≠ [] → groups.Filing ∧ groups.keys.length = groups.hashes.length

/-- Whatever the rows hold, the loops end. -/
theorem addRow_ends (ends : Ends agg groups) (row : Row) :
    ∃ result, agg.addRow groups row = some result ∧
      ∀ groups', result = .ok groups' → Ends agg groups' := by
  have found : ∃ placed g, agg.groupOf groups row = some (placed, g) ∧ Ends agg placed := by
    unfold groupOf
    by_cases grouped : agg.groupCols = []
    · exact ⟨groups, 0, if_pos grouped, ends⟩
    · rw [if_neg grouped]
      obtain ⟨filing, aligned⟩ := ends grouped
      rcases findOrAdd_spec filing aligned row with ⟨g, -, -, found⟩ | ⟨-, added⟩
      · exact ⟨groups, g, found, ends⟩
      · obtain ⟨groups', found, keys, hashes, -, filing'⟩ := added
        refine ⟨groups', _, found, fun _ => ⟨filing', ?_⟩⟩
        rw [keys, hashes, List.length_append, List.length_append, aligned]
        rfl
  obtain ⟨placed, g, found, ends'⟩ := found
  refine ⟨_, addRow_eq found, fun groups' isOk => ?_⟩
  cases updated : agg.update g row placed.states with
  | error error =>
    rw [updated] at isOk
    cases isOk
  | ok states =>
    rw [updated] at isOk
    cases isOk
    exact fun grouped => ⟨(ends' grouped).1.withStates states, (ends' grouped).2⟩

private theorem addRows_ends (ends : Ends agg groups) (rows : List Row) :
    agg.addRows groups rows ≠ none := by
  induction rows generalizing groups with
  | nil => exact nofun
  | cons row rest ih =>
    obtain ⟨result, added, ends'⟩ := addRow_ends ends row
    rw [addRows, added]
    cases result with
    | error error => exact nofun
    | ok groups' => exact ih (ends' groups' rfl)

theorem Holds.ends (holds : Holds agg seen groups) : Ends agg groups := by
  intro grouped
  obtain ⟨filing, hashes⟩ := holds.filing grouped
  refine ⟨filing, ?_⟩
  rw [hashes, holds.keys, groups_grouped grouped, List.length_map, List.length_map, List.length_map]

/-- The row of a group: its key and its answers. -/
theorem produce_answers (holds : Holds agg seen groups) (valid : ∀ spec ∈ agg.aggs, spec.Valid)
    {g : Nat} {group : Row × List Row} (isGroup : (agg.groups seen)[g]? = some group) :
    ∃ answers, agg.produce groups g = group.1 ++ answers ∧
      List.Forall₂ (fun spec answer => spec.Answers group.2 answer) agg.aggs answers := by
  refine ⟨agg.aggs.zipIdx.map fun (spec, a) =>
    aggResult spec (groups.states.getD (g * agg.aggs.length + a) {}), ?_, ?_⟩
  · rw [produce, holds.keys, List.getD_eq_getElem?_getD, List.getElem?_map, isGroup]
    rfl
  · refine List.forall₂_iff_get.mpr ⟨by rw [List.length_map, List.length_zipIdx], ?_⟩
    intro a inside inside'
    have isSpec : agg.aggs[a]? = some agg.aggs[a] := List.getElem?_eq_getElem inside
    have folded := holds.summed.folded g group.2
      (by rw [List.getElem?_map, isGroup]; rfl) a _ isSpec
    simp only [List.get_eq_getElem, List.getElem_map, List.getElem_zipIdx, Nat.zero_add]
    exact folded.answers (valid _ (List.getElem_mem inside))

end Runs

theorem uniform_of_typed {schema : OutSchema} {rows : List Row}
    (typed : ∀ row ∈ rows, TypedRow schema row)
    (numbers : ∀ row ∈ rows, ∀ col, (Row.at row col).Ordered) : Uniform rows := by
  intro x xIn y yIn col
  refine ⟨?_, numbers x xIn col, numbers y yIn col⟩
  rw [(typed x xIn).type_at, (typed y yIn).type_at]

private theorem run_ends {child : RowPath} (agg : HashAggregate) : agg.run child ≠ none := by
  rw [run, Ne, Option.map_eq_none_iff]
  exact addRows_ends (start_holds agg).ends child.rows

/-- One row for each key, with what each aggregate is to answer for the rows of the key. -/
theorem run_answers {child : RowPath} {rows : List Row} (delivers : child.Delivers rows)
    {agg : HashAggregate} {schema : OutSchema} (typed : ∀ row ∈ rows, TypedRow schema row)
    (numbers : ∀ row ∈ rows, ∀ col, (Row.at row col).Ordered)
    (valid : ∀ spec ∈ agg.aggs, spec.Valid)
    (fits : ∀ group ∈ agg.groups rows, ∀ spec ∈ agg.aggs, spec.SumFits group.2) :
    ∃ path out, agg.run child = some (.ok path) ∧ path.Delivers out ∧
      List.Forall₂ (fun group row => ∃ answers, row = group.1 ++ answers ∧
        List.Forall₂ (fun spec answer => spec.Answers group.2 answer) agg.aggs answers)
        (agg.groups rows) out := by
  obtain ⟨groups, run_, holds⟩ := @addRows_holds agg agg.start [] rows (start_holds agg) valid
    (uniform_of_typed typed numbers) fits
  rw [run, delivers.rows_eq, run_]
  refine ⟨_, _, rfl, rowsPath_delivers _, ?_⟩
  have count : groups.keys.length = (agg.groups rows).length := by
    rw [holds.keys, List.length_map, List.nil_append]
  refine List.forall₂_iff_get.mpr ⟨?_, fun g inside inside' => ?_⟩
  · rw [List.length_map, List.length_range, count]
  · simp only [List.get_eq_getElem, List.getElem_map, List.getElem_range]
    exact produce_answers holds valid (List.getElem?_eq_getElem inside)

end HashAggregate

open HashAggregate in
/-- GROUP BY hands out one row for each key, in the order in which the keys first appear: the key
and what each aggregate is to answer for the rows of the key. Its loops end whatever the rows
hold. Groups are numbered without a bound here, in 32 bits there: there are fewer than 2 ^ 32 of
them. -/
theorem group_by {child : RowPath} {rows : List Row} (delivers : child.Delivers rows)
    (agg : HashAggregate) :
    agg.run child ≠ none ∧
      ∀ schema : OutSchema, (∀ row ∈ rows, TypedRow schema row) →
        (∀ row ∈ rows, ∀ col, (Row.at row col).Ordered) → (∀ spec ∈ agg.aggs, spec.Valid) →
        (∀ group ∈ agg.groups rows, ∀ spec ∈ agg.aggs, spec.SumFits group.2) →
        ∃ path out, agg.run child = some (.ok path) ∧ path.Delivers out ∧
          List.Forall₂ (fun group row => ∃ answers, row = group.1 ++ answers ∧
            List.Forall₂ (fun spec answer => spec.Answers group.2 answer) agg.aggs answers)
            (agg.groups rows) out := by
  refine ⟨run_ends agg, ?_⟩
  intro schema typed numbers valid fits
  exact run_answers delivers typed numbers valid fits

/-- COUNT(*) and SUM of two groups, one of them that of NULL. -/
theorem group_by_nulls :
    let rows : List Row := [[.null .kInt64, .ofInt64 5], [.ofInt64 1, .ofInt64 10],
      [.null .kInt64, .null .kInt64]]
    let agg : HashAggregate := ⟨[0], [{ star := true }, { func := .kSum, col := 1 }]⟩
    agg.run (rowsPath rows) ≠ none ∧
      ∃ path out, agg.run (rowsPath rows) = some (.ok path) ∧ path.Delivers out ∧
        List.Forall₂ (fun group row => ∃ answers, row = group.1 ++ answers ∧
          List.Forall₂ (fun spec answer => spec.Answers group.2 answer) agg.aggs answers)
          (agg.groups rows) out := by
  intro rows agg
  let schema : OutSchema := [⟨[], bytes "k", .kInt64, true⟩, ⟨[], bytes "v", .kInt64, true⟩]
  obtain ⟨ends, answers⟩ := group_by (rowsPath_delivers rows) agg
  have typed : ∀ row ∈ rows, TypedRow schema row := by decide
  refine ⟨ends, answers schema typed (fun row member col double => ?_) (by decide) (by decide)⟩
  rw [(typed row member).type_at] at double
  match col with
  | 0 => cases double
  | 1 => cases double
  | col + 2 => cases double

end Labdb.Query
