import Labdb.Query.AccessRange

/-! The access paths of a table agree: whichever of them is picked, its rows are those that
satisfy the terms, and where they come in key order there is nothing left to sort. -/

namespace Labdb.Query

open Labdb.Sql

section Bound

variable {toChars : Double → Text} {schema : OutSchema} {c : Comparison} {b : BoundComparison}

theorem resolve_lt {ref : ColumnRef} {position : Nat} (found : resolve schema ref = .ok position) :
    position < schema.length := by
  unfold resolve at found
  dsimp only at found
  split at found
  · cases found
  · split at found
    · cases found
    · rename_i one
      cases found
      refine List.findIdx_lt_length_of_exists (List.countP_pos_iff.mp ?_)
      rw [one]
      exact Nat.one_pos
    · cases found

/-- What binding makes of a term. -/
structure Bound (schema : OutSchema) (c : Comparison) (b : BoundComparison) : Prop where
  op : b.op = c.op
  left_lt : b.left < schema.length
  asText : b.asText = decide (typeAt schema b.left = .kText)
  asDouble : b.rightIsColumn = false →
    b.asDouble = (decide (typeAt schema b.left = .kDouble) || decide (b.literal.type = .kDouble))
  literal : b.rightIsColumn = false →
    typeClass b.literal.type = typeClass (typeAt schema b.left)

theorem bind_bound (bound : bind toChars schema c = .ok b) : Bound schema c b := by
  unfold bind at bound
  split at bound
  · cases bound
  · obtain ⟨left, found, bound⟩ := ok_of_bind bound
    have inside := resolve_lt found
    dsimp only at bound
    split at bound
    · obtain ⟨right, -, bound⟩ := ok_of_bind bound
      split at bound
      · cases bound
      · cases bound
        exact ⟨rfl, inside, rfl, nofun, nofun⟩
    · split at bound
      · cases bound
        exact ⟨rfl, inside, rfl, fun _ => (Bool.or_self _).symm, fun _ => rfl⟩
      · split at bound
        · cases bound
        · rename_i same
          cases bound
          exact ⟨rfl, inside, rfl, fun _ => rfl, fun _ => not_not.mp same⟩

/-- Each bound term comes from a term. -/
theorem mem_mapM {α β ε : Type} {f : α → Except ε β} {items : List α} {results : List β}
    (ran : items.mapM f = .ok results) {result : β} (member : result ∈ results) :
    ∃ item ∈ items, f item = .ok result := by
  induction items generalizing results with
  | nil =>
    cases ran
    cases member
  | cons item items ih =>
    rw [List.mapM_cons] at ran
    obtain ⟨first, atFirst, ran⟩ := ok_of_bind ran
    obtain ⟨rest, atRest, ran⟩ := ok_of_bind ran
    cases ran
    rcases List.mem_cons.mp member with rfl | later
    · exact ⟨item, List.mem_cons_self, atFirst⟩
    · obtain ⟨other, here, found⟩ := ih atRest later
      exact ⟨other, List.mem_cons_of_mem item here, found⟩

end Bound

section Terms

variable {table : Table} {ref : TableRef} {row : Row} {b : BoundComparison} {col : Nat}

/-- The type of a table's column. -/
theorem value_of (member : row ∈ table.rows)
    (inside : col < (tableSchema table.schema ref).length) :
    (Row.at row col).Of (typeAt (tableSchema table.schema ref) col) := by
  have type := (table.typed ref row member).typed col inside
  refine ⟨congrArg orderClass type, ?_⟩
  rw [type]
  exact typeAt_noDouble table ref col

private theorem orderClass_of_typeClass {a b : ColType} (same : typeClass a = typeClass b)
    (aNot : a ≠ .kDouble) (bNot : b ≠ .kDouble) : orderClass a = orderClass b := by
  cases a <;> cases b <;> first | rfl | exact absurd rfl aNot | exact absurd rfl bNot | cases same

private theorem inRange_iff : inRange col b = true ↔
    b.left = col ∧ b.rightIsColumn = false ∧ b.op ≠ .kNe ∧ b.literal.type ≠ .kDouble := by
  simp [inRange, and_assoc]

/-- A term that a range can use, on a table's row. -/
theorem inRange_term {c : Comparison} (bound : Bound (tableSchema table.schema ref) c b)
    (isOp : c.op.IsOp = true) (usable : inRange col b = true) :
    RangeTerm (typeAt (tableSchema table.schema ref) col) b := by
  obtain ⟨rfl, literal, notNe, noDouble⟩ := inRange_iff.mp usable
  refine ⟨bound.op ▸ isOp, notNe, ?_, noDouble⟩
  exact orderClass_of_typeClass (bound.literal literal) noDouble (typeAt_noDouble table ref _)

private theorem eval_inRange {c : Comparison} (bound : Bound (tableSchema table.schema ref) c b)
    (isOp : c.op.IsOp = true) (usable : inRange col b = true) (member : row ∈ table.rows) :
    eval b row = (!(Row.at row col).isNull && b.admits (Row.at row col)) := by
  have term := inRange_term bound isOp usable
  obtain ⟨rfl, literal, notNe, noDouble⟩ := inRange_iff.mp usable
  have valueOf := value_of member bound.left_lt
  have type := (table.typed ref row member).typed b.left bound.left_lt
  have compared : compareFields (Row.at row b.left) b.literal b.asText b.asDouble =
      rankedOrder (Row.at row b.left) b.literal := by
    rw [← compareValues_of valueOf term.literal, compareValues, bound.asText,
      bound.asDouble literal, ← type]
  rw [eval, literal, if_neg Bool.false_ne_true, BoundComparison.test, compared,
    BoundComparison.admits, Bool.not_or, Bool.and_assoc]

end Terms

/-- The terms of a table, each one a bound comparison with an operator. -/
def TableTerms (table : Table) (ref : TableRef) (bound : List BoundComparison) : Prop :=
  ∀ b ∈ bound, ∃ c, Bound (tableSchema table.schema ref) c b ∧ c.op.IsOp = true

section Source

variable {table : Table} {ref : TableRef} {bound : List BoundComparison} {row : Row}
  {k : Candidate} {col : Nat}

/-- Whether a candidate's range holds a row. -/
def Candidate.holdsRow (k : Candidate) : Row → Bool := IndexWalk.between k.col k.lo k.hi

private theorem rangeTerms (terms : TableTerms table ref bound) :
    ∀ b ∈ bound.filter (inRange col), RangeTerm (typeAt (tableSchema table.schema ref) col) b := by
  intro b here
  obtain ⟨member, usable⟩ := List.mem_filter.mp here
  obtain ⟨c, isBound, isOp⟩ := terms b member
  exact inRange_term isBound isOp usable

/-- A row that satisfies all terms lies in the candidate's range. -/
theorem holdsRow_of_all (terms : TableTerms table ref bound)
    (inside : col < (tableSchema table.schema ref).length)
    (found : candidate (tableSchema table.schema ref) bound col = some k)
    (member : row ∈ table.rows) (all : bound.all (eval · row) = true) : k.holdsRow row = true := by
  have spec := candidate_spec found (value_of member inside) (rangeTerms terms)
  obtain ⟨rfl, some_, within, -⟩ := spec
  have each : ∀ b ∈ bound.filter (inRange k.col), (Row.at row k.col).isNull = false ∧
      b.admits (Row.at row k.col) = true := by
    intro b here
    obtain ⟨inBound, usable⟩ := List.mem_filter.mp here
    obtain ⟨c, isBound, isOp⟩ := terms b inBound
    have holds := List.all_eq_true.mp all b inBound
    rw [eval_inRange isBound isOp usable member, Bool.and_eq_true, Bool.not_eq_true'] at holds
    exact holds
  obtain ⟨b, here⟩ := List.exists_mem_of_ne_nil _ some_
  obtain ⟨loLe, leHi⟩ := within (List.all_eq_true.mpr fun b here => (each b here).2)
  simp [Candidate.holdsRow, IndexWalk.between, (each b here).1, loLe, leHi]

/-- A row in the candidate's range satisfies the terms that the range consumes. -/
theorem consumed_of_holdsRow (terms : TableTerms table ref bound)
    (inside : col < (tableSchema table.schema ref).length)
    (found : candidate (tableSchema table.schema ref) bound col = some k)
    (member : row ∈ table.rows) (holdsRow : k.holdsRow row = true) {b : BoundComparison} (inBound : b ∈ bound)
    (consumes : consumed (tableSchema table.schema ref) (some k) b = true) :
    eval b row = true := by
  have spec := candidate_spec found (value_of member inside) (rangeTerms terms)
  obtain ⟨rfl, -, -, complete⟩ := spec
  simp only [Candidate.holdsRow, IndexWalk.between, Bool.and_eq_true, Bool.not_eq_true',
    decide_eq_true_eq] at holdsRow
  obtain ⟨⟨value, loLe⟩, leHi⟩ := holdsRow
  rw [consumed, Bool.and_eq_true] at consumes
  obtain ⟨exact_, usable⟩ := consumes
  obtain ⟨c, isBound, isOp⟩ := terms b inBound
  have admits := List.all_eq_true.mp (complete exact_ loLe leHi) b
    (List.mem_filter.mpr ⟨inBound, usable⟩)
  rw [eval_inRange isBound isOp usable member, value, admits]
  rfl

/-- Rows in strictly ascending key order. -/
def KeyOrder (rows : List Row) : Prop :=
  rows.Pairwise fun a b => (Row.at a 0).i64 < (Row.at b 0).i64

private theorem tableKey_eq (id : Int64) : tableKey id = orderKeyInt id := rfl

private theorem orderKey_key (member : row ∈ table.rows) :
    orderKey (Row.at row 0) = tableKey (Row.at row 0).i64 := by
  unfold orderKey
  rw [(table.keyed row member).2]
  rfl

theorem tableKey_lt {a b : Int64} : tableKey a < tableKey b ↔ a < b := by
  have aKey := orderKeyInt_toNat a
  have bKey := orderKeyInt_toNat b
  rw [UInt64.lt_iff_toNat_lt, Int64.lt_iff_toInt_lt, tableKey_eq, tableKey_eq]
  omega

private theorem tableKey_lookup (key : Key) : tableKey (key ^^^ tableKey 0).toInt64 = key := by
  have zero : tableKey 0 = (1 : UInt64) <<< 63 := by decide
  rw [zero, tableKey, UInt64.toUInt64_toInt64, UInt64.xor_assoc, UInt64.xor_self,
    UInt64.xor_zero]

private theorem toList_find? {α : Type} {p : α → Bool} {items : List α}
    (single : items.Pairwise fun a b => p a = true → p b = false) :
    (items.find? p).toList = items.filter p := by
  induction items with
  | nil => rfl
  | cons item items ih =>
    obtain ⟨first, rest⟩ := List.pairwise_cons.mp single
    cases found : p item with
    | true =>
      have none_ : items.filter p = [] := List.filter_eq_nil_iff.mpr fun other here => by
        simp [first other here found]
      rw [List.find?_cons_of_pos found, List.filter_cons_of_pos found, none_]
      rfl
    | false =>
      rw [List.find?_cons_of_neg (by simp [found]), List.filter_cons_of_neg (by simp [found]),
        ih rest]

/-- The search by key finds the rows with that key. -/
theorem byKey_toList (key : Key) : (table.byKey (key ^^^ tableKey 0)).toList =
    table.rows.filter (IndexWalk.between 0 key key) := by
  rw [table.searched, toList_find?]
  · refine List.filter_congr fun row member => ?_
    rw [tableKey_lookup, IndexWalk.between, orderKey_key member, (table.keyed row member).1,
      Bool.eq_iff_iff]
    simp only [decide_eq_true_eq, Bool.not_false, Bool.true_and, Bool.and_eq_true]
    constructor
    · intro same
      rw [same]
      exact ⟨UInt64.le_refl _, UInt64.le_refl _⟩
    · rintro ⟨le, ge⟩
      exact UInt64.le_antisymm ge le
  · refine table.ascending.imp fun {a b} less => ?_
    rw [tableKey_lookup, decide_eq_true_eq, decide_eq_false_iff_not]
    rintro rfl same
    exact absurd (tableKey_lt.mpr less) (by rw [same]; exact UInt64.lt_irrefl _)

/-- A walk through the table's own tree comes in key order. -/
theorem walk_keyOrder (indexed : table.indexed 0 = true) (lo hi : Key) :
    KeyOrder ((table.index 0).rows lo hi) := by
  have walked := table.walked 0 indexed
  have perm := walked.found lo hi
  have distinct : ((table.index 0).rows lo hi).Pairwise fun a b =>
      (Row.at a 0).i64 ≠ (Row.at b 0).i64 := by
    refine perm.symm.pairwise ?_ fun different => different.symm
    exact (table.ascending.sublist List.filter_sublist).imp fun less => Int64.ne_of_lt less
  refine ((walked.ordered lo hi).and distinct).imp_of_mem ?_
  intro a b aIn bIn ⟨le, different⟩
  have aMember := (List.mem_filter.mp (perm.mem_iff.mp aIn)).1
  have bMember := (List.mem_filter.mp (perm.mem_iff.mp bIn)).1
  rw [orderKey_key aMember, orderKey_key bMember] at le
  refine Int64.lt_of_le_of_ne (Int64.not_lt.mp fun greater => ?_) different
  exact UInt64.not_lt.mpr le (tableKey_lt.mpr greater)

/-- The operator that reads the table hands out the rows that the candidate holds. -/
theorem accessSource_delivers {schema : OutSchema} {picked : Option Candidate}
    (indexed : ∀ k, picked = some k → table.indexed k.col = true) :
    ∃ rows, (accessSource table schema picked).Delivers rows ∧
      rows.Perm (table.rows.filter fun row => picked.all (·.holdsRow row)) ∧
      (keyOrdered picked = true → KeyOrder rows) := by
  cases picked with
  | none =>
    refine ⟨table.rows, Plan.seqScan_delivers, ?_, fun _ => table.ascending⟩
    simp
  | some k =>
    have isIndexed := indexed k rfl
    rw [accessSource]
    by_cases point : k.col = 0 ∧ k.lo = k.hi
    · rw [if_pos point]
      refine ⟨_, Plan.indexLookup_delivers, ?_, fun _ => ?_⟩
      · rw [Option.bind_some, byKey_toList]
        simp only [Option.all_some, Candidate.holdsRow, point.1, ← point.2]
        exact .refl _
      · rw [Option.bind_some, byKey_toList]
        exact table.ascending.sublist List.filter_sublist
    · rw [if_neg point]
      refine ⟨_, Plan.indexScan_delivers, ?_, fun key => ?_⟩
      · simp only [Option.all_some]
        split
        · rename_i crossed
          have none_ : table.rows.filter k.holdsRow = [] := by
            refine List.filter_eq_nil_iff.mpr fun row _ holds => ?_
            simp only [Candidate.holdsRow, IndexWalk.between, Bool.and_eq_true,
              decide_eq_true_eq] at holds
            exact UInt64.not_lt.mpr (UInt64.le_trans holds.1.2 holds.2) crossed
          rw [none_]
        · exact (table.walked k.col isIndexed).found k.lo k.hi
      · have zero : k.col = 0 := of_decide_eq_true key
        split
        · exact List.Pairwise.nil
        · rw [zero] at isIndexed ⊢
          exact walk_keyOrder isIndexed k.lo k.hi

end Source

section Order

variable {table : Table} {ref : TableRef} {rows : List Row}

/-- A table's rows can be put in order by any columns. -/
theorem sortable_of_typed {schema : OutSchema} (typed : ∀ row ∈ rows, TypedRow schema row)
    (noDouble : ∀ position, typeAt schema position ≠ .kDouble) (keys : List SortKey) :
    Sortable keys rows := by
  have type : ∀ row ∈ rows, ∀ col, (Row.at row col).type = typeAt schema col :=
    fun row member col => (typed row member).type_at col
  intro key _ x xIn y yIn
  refine ⟨?_, ?_, ?_⟩
  · rw [type x xIn, type y yIn]
  · exact fun double => absurd (type x xIn _ ▸ double) (noDouble _)
  · exact fun double => absurd (type y yIn _ ▸ double) (noDouble _)

/-- Rows in key order are in the order of any keys of which column 0 is the first. -/
theorem keyOrder_sorted (members : ∀ row ∈ rows, row ∈ table.rows) (inOrder : KeyOrder rows)
    {keys : List SortKey} (first : keys.head? = some { col := 0 }) :
    rows.Pairwise fun x y => rowLe keys x y = true := by
  cases keys with
  | nil => cases first
  | cons key rest =>
    cases first
    refine inOrder.imp_of_mem ?_
    intro x y xIn yIn less
    have xKey := table.keyed x (members x xIn)
    have yKey := table.keyed y (members y yIn)
    have order : SortKey.order { col := 0 } x y = .lt := by
      simp only [SortKey.order, xKey.1, yKey.1, Bool.false_eq_true, if_false]
      simp only [compareValues, compareFields, xKey.2, yKey.2, reduceCtorEq, decide_false,
        Bool.or_self, Bool.false_eq_true, if_false]
      exact Std.compare_eq_lt.mpr less
    rw [rowLe, rowOrder, order]
    rfl

end Order

section Picked

variable {table : Table} {ref : TableRef} {bound : List BoundComparison}
  {picked : Option Candidate} {rows : List Row} {row : Row}

/-- A candidate that was picked is one of an indexed column. -/
def Picked (table : Table) (ref : TableRef) (bound : List BoundComparison)
    (picked : Option Candidate) : Prop :=
  ∀ k, picked = some k → table.indexed k.col = true ∧
    k.col < (tableSchema table.schema ref).length ∧
    candidate (tableSchema table.schema ref) bound k.col = some k

private theorem candidate_col {schema : OutSchema} {col : Nat} {k : Candidate}
    (found : candidate schema bound col = some k) : k.col = col := by
  unfold candidate at found
  dsimp only at found
  split at found
  · cases found
  · split at found
    · cases found
      rfl
    · cases found
      rfl

private theorem picked_candidates (choice : Option Nat) : Picked table ref bound
    (choice.bind ((candidates table (tableSchema table.schema ref) bound)[·]?)) := by
  intro k isPicked
  obtain ⟨i, -, found⟩ := Option.bind_eq_some_iff.mp isPicked
  obtain ⟨col, here, isCandidate⟩ := List.mem_filterMap.mp (List.mem_of_getElem? found)
  obtain ⟨inside, indexed⟩ := List.mem_filter.mp here
  rw [candidate_col isCandidate]
  exact ⟨indexed, List.mem_range.mp inside, isCandidate⟩

/-- The range and the terms left to check say together what all the terms say. -/
theorem tested (terms : TableTerms table ref bound) (isPicked : Picked table ref bound picked)
    (member : row ∈ table.rows) :
    (picked.all (·.holdsRow row) &&
        (bound.filter fun b =>
          !consumed (tableSchema table.schema ref) picked b).all (eval · row)) =
      bound.all (eval · row) := by
  rw [Bool.eq_iff_iff, Bool.and_eq_true, List.all_eq_true, List.all_eq_true]
  constructor
  · rintro ⟨holdsRow, rest⟩ b here
    cases consumes : consumed (tableSchema table.schema ref) picked b with
    | false => exact rest b (List.mem_filter.mpr ⟨here, by rw [consumes]; rfl⟩)
    | true =>
      cases picked with
      | none => cases consumes
      | some k =>
        obtain ⟨-, inside, isCandidate⟩ := isPicked k rfl
        exact consumed_of_holdsRow terms inside isCandidate member holdsRow here consumes
  · intro all
    refine ⟨?_, fun b here => all b (List.mem_filter.mp here).1⟩
    cases picked with
    | none => rfl
    | some k =>
      obtain ⟨-, inside, isCandidate⟩ := isPicked k rfl
      exact holdsRow_of_all terms inside isCandidate member (List.all_eq_true.mpr all)

/-- A filter that is left out has nothing to check. -/
theorem filtered_delivers {source : Plan} (preds : List BoundComparison)
    (delivers : source.Delivers rows) :
    (if preds = [] then source else .filter source preds).Delivers
      (rows.filter fun row => preds.all (eval · row)) := by
  split
  · rename_i none_
    subst none_
    simpa using delivers
  · exact Plan.filter_delivers preds delivers

end Picked

theorem accessSource_schema (table : Table) (schema : OutSchema) (picked : Option Candidate) :
    (accessSource table schema picked).schema = schema := by
  unfold accessSource
  split
  · rfl
  · split <;> rfl

/-- The rows of an access path. -/
theorem planAccess_delivers {toChars : Double → Text} {pick : List Candidate → Option Nat}
    {table : Table} {ref : TableRef} {terms : List Comparison} {access : Access}
    (ops : ∀ c ∈ terms, c.op.IsOp = true)
    (planned : planAccess toChars pick table (tableSchema table.schema ref) terms = .ok access) :
    access.op.schema = tableSchema table.schema ref ∧
      ∃ bound rows, terms.mapM (bind toChars (tableSchema table.schema ref)) = .ok bound ∧
        access.op.Delivers rows ∧
        rows.Perm (table.rows.filter fun row => bound.all (eval · row)) ∧
        (access.keyOrder = true → KeyOrder rows) := by
  obtain ⟨bound, bound_eq, planned⟩ := ok_of_bind planned
  have tableTerms : TableTerms table ref bound := by
    intro b here
    obtain ⟨c, inTerms, isBound⟩ := mem_mapM bound_eq here
    exact ⟨c, bind_bound isBound, ops c inTerms⟩
  have isPicked := @picked_candidates table ref bound
    (pick (candidates table (tableSchema table.schema ref) bound))
  dsimp only at planned
  generalize (pick (candidates table (tableSchema table.schema ref) bound)).bind
    ((candidates table (tableSchema table.schema ref) bound)[·]?) = picked at planned isPicked
  cases planned
  obtain ⟨source, delivers, perm, inOrder⟩ := @accessSource_delivers table
    (tableSchema table.schema ref) picked fun k found => (isPicked k found).1
  let preds := bound.filter fun b => !consumed (tableSchema table.schema ref) picked b
  have filtered := filtered_delivers preds delivers
  have rows : (source.filter fun row => preds.all (eval · row)).Perm
      (table.rows.filter fun row => bound.all (eval · row)) := by
    refine (perm.filter _).trans (.of_eq ?_)
    rw [List.filter_filter]
    refine List.filter_congr fun row member => ?_
    rw [← tested tableTerms isPicked member, Bool.and_comm]
  have ordered : keyOrdered picked = true →
      KeyOrder (source.filter fun row => preds.all (eval · row)) := fun isOrdered =>
    (inOrder isOrdered).sublist List.filter_sublist
  refine ⟨?_, bound, _, bound_eq, filtered, rows, ordered⟩
  dsimp only
  split
  · exact accessSource_schema _ _ _
  · exact accessSource_schema _ _ _

/-- Comparisons that can be bound can be read by a scan. -/
theorem planAccess_scan {toChars : Double → Text} {table : Table} {schema : OutSchema}
    {terms : List Comparison} {bound : List BoundComparison}
    (bound_eq : terms.mapM (bind toChars schema) = .ok bound) :
    ∃ access, planAccess toChars (fun _ => none) table schema terms = .ok access ∧
      access.keyOrder = true := by
  unfold planAccess
  rw [bound_eq]
  exact ⟨_, rfl, rfl⟩

/-- Three rows of a key and a name, both indexed. -/
def people : Table :=
  .ofRows ⟨[⟨bytes "id", .kInt64, false⟩, ⟨bytes "name", .kText, true⟩]⟩ (fun _ => true)
    [[.ofInt64 (-4), .ofText (bytes "Ada")], [.ofInt64 2, .null .kText],
      [.ofInt64 7, .ofText (bytes "Ada Lovelace")]]
    (fun ref row here => TypedRow.relabel {} ref (by revert row; decide)) (by decide) (by decide)
    (by decide)

end Labdb.Query
