import Mathlib.Data.List.Forall2
import Mathlib.Data.List.Nodup
import Mathlib.Data.List.Perm.Basic

/-! Lists whose items have names of their own: an item is found by its name, and what is done to
all items of that name is done to one. -/

namespace Labdb.Data

variable {α β : Type} {name : α → β} {items : List α} {i : Nat} {item : α}

theorem same_place (once : (items.map name).Nodup) {j : Nat} {other : α}
    (here : items[i]? = some item) (there : items[j]? = some other) (same : name other = name item) :
    j = i := by
  have first : (items.map name)[i]? = some (name item) := by rw [List.getElem?_map, here]; rfl
  have second : (items.map name)[j]? = some (name item) := by
    rw [List.getElem?_map, there, ← same]
    rfl
  have inside := (List.getElem?_eq_some_iff.mp second).1
  exact (List.getElem?_inj inside once).mp (second.trans first.symm)

theorem find?_named [DecidableEq β] (once : (items.map name).Nodup) (here : items[i]? = some item) :
    items.find? (fun other => name other = name item) = some item := by
  cases found : items.find? (fun other => name other = name item) with
  | none =>
    have none_ := List.find?_eq_none.mp found item (List.mem_of_getElem? here)
    exact absurd (decide_eq_true rfl) none_
  | some other =>
    obtain ⟨j, there⟩ := List.getElem?_of_mem (List.mem_of_find?_eq_some found)
    have hit := List.find?_some found
    rw [same_place once here there (of_decide_eq_true hit), here] at there
    exact there.symm

theorem map_named [DecidableEq β] (once : (items.map name).Nodup) (here : items[i]? = some item) (change : α → α) :
    items.map (fun other => if name other = name item then change other else other) =
      items.set i (change item) := by
  apply List.ext_getElem?
  intro j
  have inside := (List.getElem?_eq_some_iff.mp here).1
  rw [List.getElem?_map, List.getElem?_set]
  by_cases same : i = j
  · subst same
    rw [here, if_pos rfl, if_pos inside, Option.map_some, if_pos rfl]
  · rw [if_neg same]
    cases there : items[j]? with
    | none => rfl
    | some other =>
      have differ : name other ≠ name item := fun hit => same (same_place once here there hit).symm
      rw [Option.map_some, if_neg differ]

/-- A rearrangement of images is one of what they are the images of. -/
theorem perm_of_map {f : α → β} {images : List β} (perm : images.Perm (items.map f)) :
    ∃ sorted : List α, sorted.Perm items ∧ images = sorted.map f := by
  have each : List.Forall₂ (fun image item => image = f item) (items.map f) items := by
    rw [List.forall₂_map_left_iff]
    exact List.forall₂_same.mpr fun _ _ => rfl
  obtain ⟨sorted, pairs, same⟩ := List.perm_comp_forall₂ perm each
  refine ⟨sorted, same, ?_⟩
  rw [← List.forall₂_eq_eq_eq, List.forall₂_map_right_iff]
  exact pairs

end Labdb.Data
