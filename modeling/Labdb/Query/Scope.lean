import Labdb.Query.AccessRows
import Labdb.Query.From

/-! Names resolved again in a smaller scope: a comparison that fits into some of the tables
means there the same columns as in the scope it was written in. -/

namespace Labdb.Query

open Labdb.Sql

section Resolve

/-- The one element that passes a test. -/
theorem countP_one {α : Type} {test : α → Bool} {items : List α} {position : Nat} :
    items.countP test = 1 ∧ items.findIdx test = position ↔
      position < items.length ∧
        ∀ other item, items[other]? = some item → (test item = true ↔ other = position) := by
  induction items generalizing position with
  | nil => simp
  | cons first rest ih =>
    cases passes : test first with
    | true =>
      rw [List.countP_cons_of_pos passes, List.findIdx_cons, passes, cond_true, Nat.add_eq_right,
        List.countP_eq_zero]
      constructor
      · rintro ⟨none_, rfl⟩
        refine ⟨Nat.succ_pos _, fun other item found => ?_⟩
        cases other with
        | zero =>
          cases found
          simpa using passes
        | succ other => simpa using none_ item (List.mem_of_getElem? found)
      · rintro ⟨-, unique⟩
        obtain rfl := (unique 0 first rfl).mp passes
        refine ⟨fun item member passes => ?_, rfl⟩
        obtain ⟨other, found⟩ := List.mem_iff_getElem?.mp member
        cases (unique (other + 1) item found).mp passes
    | false =>
      rw [List.countP_cons_of_neg (by rw [passes]; exact Bool.false_ne_true), List.findIdx_cons,
        passes, cond_false]
      constructor
      · rintro ⟨one, rfl⟩
        obtain ⟨inside, unique⟩ := ih.mp ⟨one, rfl⟩
        refine ⟨Nat.succ_lt_succ inside, fun other item found => ?_⟩
        cases other with
        | zero =>
          cases found
          simp [passes]
        | succ other => simpa using unique other item found
      · rintro ⟨inside, unique⟩
        cases position with
        | zero => exact absurd ((unique 0 first rfl).mpr rfl) (by simp [passes])
        | succ position =>
          obtain ⟨one, found⟩ := ih.mpr ⟨Nat.lt_of_succ_lt_succ inside, fun other item here => by
            simpa using unique (other + 1) item here⟩
          exact ⟨one, congrArg _ found⟩

/-- A reference resolves to the one column that it may mean. -/
theorem resolve_iff {schema : OutSchema} {ref : ColumnRef} {position : Nat} :
    resolve schema ref = .ok position ↔ position < schema.length ∧
      ∀ other column, schema[other]? = some column →
        (names ref column = true ↔ other = position) := by
  rw [← countP_one]
  unfold resolve
  dsimp only
  constructor
  · intro found
    split at found
    · cases found
    · split at found
      · cases found
      · rename_i one
        cases found
        exact ⟨one, rfl⟩
      · cases found
  · rintro ⟨one, rfl⟩
    have seen : (ref.table = [] || schema.any fun column => column.table = ref.table) = true := by
      obtain ⟨column, member, named⟩ := List.countP_pos_iff.mp (one ▸ Nat.one_pos)
      rw [names, Bool.and_eq_true, Bool.or_eq_true] at named
      rw [Bool.or_eq_true]
      refine named.1.imp_right fun same => ?_
      exact List.any_eq_true.mpr ⟨column, member, same⟩
    rw [one, seen]
    rfl

variable {before here after : OutSchema}

/-- The position lies among the columns of a part of the scope. -/
def Within (before here : OutSchema) (position : Nat) : Prop :=
  before.length ≤ position ∧ position < before.length + here.length

private theorem getElem?_within {position : Nat} (inside : position < here.length) :
    (before ++ here ++ after)[before.length + position]? = here[position]? := by
  rw [List.append_assoc, List.getElem?_append_right (Nat.le_add_right _ _),
    Nat.add_sub_cancel_left, List.getElem?_append_left inside]

theorem typeAt_within (after : OutSchema) {position : Nat} (within : Within before here position) :
    typeAt here (position - before.length) = typeAt (before ++ here ++ after) position := by
  obtain ⟨offset, rfl⟩ := Nat.exists_eq_add_of_le within.1
  have inside : offset < here.length := Nat.lt_of_add_lt_add_left within.2
  rw [typeAt, typeAt, getElem?_within inside, Nat.add_sub_cancel_left]

private theorem resolve_within {ref : ColumnRef} {position : Nat}
    (found : resolve (before ++ here ++ after) ref = .ok position)
    (within : Within before here position) :
    resolve here ref = .ok (position - before.length) := by
  obtain ⟨-, unique⟩ := resolve_iff.mp found
  obtain ⟨offset, rfl⟩ := Nat.exists_eq_add_of_le within.1
  have inside : offset < here.length := Nat.lt_of_add_lt_add_left within.2
  rw [resolve_iff, Nat.add_sub_cancel_left]
  refine ⟨inside, fun other column read => ?_⟩
  have otherInside := (List.getElem?_eq_some_iff.mp read).1
  rw [unique (before.length + other) column ((getElem?_within otherInside).trans read)]
  exact Nat.add_left_cancel_iff

end Resolve

/-- A comparison's positions counted from an earlier column. -/
def BoundComparison.shift (b : BoundComparison) (offset : Nat) : BoundComparison :=
  { b with
    left := b.left + offset
    right := if b.rightIsColumn then b.right + offset else b.right }

def BoundComparison.unshift (b : BoundComparison) (offset : Nat) : BoundComparison :=
  { b with
    left := b.left - offset
    right := if b.rightIsColumn then b.right - offset else b.right }

/-- The columns that a bound comparison reads. -/
def BoundComparison.Reads (b : BoundComparison) (position : Nat) : Prop :=
  position = b.left ∨ b.rightIsColumn = true ∧ position = b.right

theorem shift_unshift {b : BoundComparison} {offset : Nat}
    (beyond : ∀ position, b.Reads position → offset ≤ position) :
    (b.unshift offset).shift offset = b := by
  obtain ⟨left, op, asText, asDouble, rightIsColumn, right, literal⟩ := b
  have leftBeyond : left - offset + offset = left := Nat.sub_add_cancel (beyond left (.inl rfl))
  cases rightIsColumn with
  | false => simp [BoundComparison.shift, BoundComparison.unshift, leftBeyond]
  | true =>
    have rightBeyond : right - offset + offset = right :=
      Nat.sub_add_cancel (beyond right (.inr ⟨rfl, rfl⟩))
    simp [BoundComparison.shift, BoundComparison.unshift, leftBeyond, rightBeyond]

section Bind

variable {toChars : Double → Text} {schema before here after : OutSchema} {c : Comparison}
  {b : BoundComparison}

/-- Binding again in a part of the scope that has all the columns finds the same ones. -/
theorem bind_within (bound : bind toChars (before ++ here ++ after) c = .ok b)
    (within : ∀ position, b.Reads position → Within before here position) :
    bind toChars here c = .ok (b.unshift before.length) := by
  unfold bind at bound ⊢
  split at bound
  · cases bound
  · rename_i plain
    rw [if_neg plain]
    obtain ⟨left, found, bound⟩ := ok_of_bind bound
    dsimp only at bound
    split at bound
    · obtain ⟨right, rightFound, bound⟩ := ok_of_bind bound
      split at bound
      · cases bound
      · rename_i same
        cases bound
        have leftWithin : Within before here left := within left (.inl rfl)
        have rightWithin : Within before here right := within right (.inr ⟨rfl, rfl⟩)
        simp only [resolve_within found leftWithin, resolve_within rightFound rightWithin,
          Except.bind, Bind.bind, typeAt_within after leftWithin, typeAt_within after rightWithin]
        exact if_neg same
    · split at bound
      · rename_i isNull
        cases bound
        have leftWithin : Within before here left := within left (.inl rfl)
        simp only [resolve_within found leftWithin, Except.bind, Bind.bind,
          typeAt_within after leftWithin]
        exact if_pos isNull
      · split at bound
        · cases bound
        · rename_i isNull same
          cases bound
          have leftWithin : Within before here left := within left (.inl rfl)
          simp only [resolve_within found leftWithin, Except.bind, Bind.bind,
            typeAt_within after leftWithin]
          exact (if_neg isNull).trans (if_neg same)

/-- What binding makes of a comparison's columns. -/
structure BoundColumns (schema : OutSchema) (b : BoundComparison) : Prop where
  inside : ∀ position, b.Reads position → position < schema.length
  asText : b.asText = decide (typeAt schema b.left = .kText)
  column : b.rightIsColumn = true →
    typeClass (typeAt schema b.left) = typeClass (typeAt schema b.right) ∧
      b.asDouble = (decide (typeAt schema b.left = .kDouble) ||
        decide (typeAt schema b.right = .kDouble))

theorem bind_columns (bound : bind toChars schema c = .ok b) : BoundColumns schema b := by
  have isBound := bind_bound bound
  unfold bind at bound
  split at bound
  · cases bound
  · obtain ⟨left, found, bound⟩ := ok_of_bind bound
    dsimp only at bound
    split at bound
    · obtain ⟨right, rightFound, bound⟩ := ok_of_bind bound
      split at bound
      · cases bound
      · rename_i same
        cases bound
        refine ⟨?_, rfl, fun _ => ⟨not_not.mp same, rfl⟩⟩
        rintro position (rfl | ⟨-, rfl⟩)
        · exact resolve_lt found
        · exact resolve_lt rightFound
    · split at bound
      · cases bound
        exact ⟨fun position reads => reads.elim (· ▸ isBound.left_lt) nofun, rfl, nofun⟩
      · split at bound
        · cases bound
        · cases bound
          exact ⟨fun position reads => reads.elim (· ▸ isBound.left_lt) nofun, rfl, nofun⟩

end Bind

section Eval

variable {b : BoundComparison} {l r : Row}

theorem eval_shift : eval (b.shift l.length) (l ++ r) = eval b r := by
  have at_ : ∀ position, Row.at (l ++ r) (position + l.length) = Row.at r position := by
    intro position
    rw [at_append_right (by omega), Nat.add_sub_cancel]
  unfold eval BoundComparison.shift
  cases b.rightIsColumn with
  | false => simp only [at_, BoundComparison.test, Bool.false_eq_true, if_false]
  | true => simp only [at_, BoundComparison.test, if_true]

theorem eval_append (inside : ∀ position, b.Reads position → position < l.length) :
    eval b (l ++ r) = eval b l := by
  have left := @at_append_left l r _ (inside b.left (.inl rfl))
  unfold eval
  cases column : b.rightIsColumn with
  | false => simp only [left, Bool.false_eq_true, if_false]
  | true => simp only [left, @at_append_left l r _ (inside b.right (.inr ⟨column, rfl⟩)), if_true]

end Eval

section Owner

variable {tables : List FromTable} {position i : Nat}

theorem scope_succ {table : FromTable} (at_ : tables[i]? = some table) :
    scope tables (i + 1) = scope tables i ++ table.schema := by
  rw [scope, scope, List.take_add_one, List.flatMap_append, at_]
  simp

/-- The columns of the first tables, those of the next one, and the rest of a scope. -/
theorem scope_split {table : FromTable} {count : Nat} (at_ : tables[i]? = some table)
    (seen : i < count) :
    ∃ after, scope tables count = scope tables i ++ table.schema ++ after := by
  obtain ⟨more, rfl⟩ := Nat.exists_eq_add_of_lt seen
  refine ⟨((tables.drop (i + 1)).take more).flatMap FromTable.schema, ?_⟩
  rw [← scope_succ at_, scope, scope, ← List.flatMap_append, ← List.take_add]
  congr 2
  omega

theorem scope_length_le {i count : Nat} (le : i ≤ count) :
    (scope tables i).length ≤ (scope tables count).length := by
  obtain ⟨more, rfl⟩ := Nat.exists_eq_add_of_le le
  rw [scope, scope, List.take_add, List.flatMap_append, List.length_append]
  exact Nat.le_add_right _ _

theorem owner_spec {count : Nat} (inside : position < (scope tables count).length) :
    owner tables position < count ∧
      ∃ table, tables[owner tables position]? = some table ∧
        Within (scope tables (owner tables position)) table.schema position := by
  induction tables generalizing position count with
  | nil => simp [scope] at inside
  | cons first rest ih =>
    cases count with
    | zero => simp [scope] at inside
    | succ count =>
      have split : ∀ count, scope (first :: rest) (count + 1) = first.schema ++ scope rest count :=
        fun _ => rfl
      rw [split, List.length_append] at inside
      unfold owner
      by_cases here : position < first.schema.length
      · rw [if_pos here]
        refine ⟨Nat.succ_pos _, first, rfl, ?_⟩
        simpa [Within, scope] using here
      · rw [if_neg here]
        obtain ⟨lt, table, at_, within⟩ := @ih (position - first.schema.length) count (by omega)
        refine ⟨Nat.succ_lt_succ lt, table, at_, ?_⟩
        rw [split]
        unfold Within at within ⊢
        rw [List.length_append]
        omega

end Owner

end Labdb.Query
