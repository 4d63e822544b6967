import Labdb.Query.JoinHash
import Labdb.Query.Probe
import Labdb.Query.Table

/-! The three join algorithms on the row path. -/

namespace Labdb.Query

/-- The joined row of two rows that satisfy every comparison. -/
def pair (on : List BoundComparison) (nleft : Nat) (l r : Row) : Option Row :=
  if on.all (evalPair · l r nleft) then some (joinRows l r) else none

/-- The loop over the right rows from number `j` on, up to the first that matches. -/
def pairUp (on : List BoundComparison) (nleft : Nat) (outer : Row) :
    List Row → Nat → Option Row × Nat
  | [], j => (none, j)
  | inner :: rest, j =>
    match pair on nleft outer inner with
    | some row => (some row, j + 1)
    | none => pairUp on nleft outer rest (j + 1)

private theorem pairUp_some {on : List BoundComparison} {nleft : Nat} {outer row : Row}
    {inner : List Row} {j after : Nat} (found : pairUp on nleft outer inner j = (some row, after)) :
    j < after ∧ after ≤ j + inner.length := by
  induction inner generalizing j with
  | nil => cases found
  | cons first rest ih =>
    unfold pairUp at found
    rw [List.length_cons]
    split at found
    · cases found
      omega
    · have later := ih found
      omega

/-- For each left row, the right rows kept in memory are gone through. -/
def nestedLoopProbe (on : List BoundComparison) (nleft : Nat) (inner : List Row) : Probe where
  Search := Nat
  start _ := some 0
  advance outer j := pairUp on nleft outer (inner.drop j) j
  left j := inner.length - j
  most := inner.length
  start_le := by
    rintro _ _ ⟨⟩
    exact Nat.le_refl _
  lowers := by
    intro outer j row after found
    have moved := pairUp_some found
    rw [List.length_drop] at moved
    omega

/-- `NestedLoopJoin`, opened: the right input is read once and kept. -/
def nestedLoopJoin (left right : RowPath) (on : List BoundComparison) (nleft : Nat) : RowPath where
  source := (nestedLoopProbe on nleft right.rows).run left.source
  state := ({ input := left.state } : Probe.State _ _)

/-- A key of a hash join: a column of each side, and whether they hold text. -/
structure JoinKey where
  l : Nat
  r : Nat
  text : Bool
  deriving DecidableEq, Repr

structure HashJoin where
  keys : List JoinKey
  residual : List BoundComparison := []
  mix : UInt64 → UInt64 := mix64
  buildLeft : Bool := false
  nleft : Nat

namespace HashJoin

/-- The keys of the constructor, typed by the left schema. -/
def keysOf (left : OutSchema) (keys : List (Nat × Nat)) : List JoinKey :=
  keys.map fun (l, r) => ⟨l, r, typeAt left l = .kText⟩

variable (join : HashJoin)

def lkeys : List Nat := join.keys.map JoinKey.l

def rkeys : List Nat := join.keys.map JoinKey.r

/-- What a key column puts into the hash. -/
def keyValue (text : Bool) (field : Field) : UInt64 :=
  if text then fnv1a field.text else field.i64.toUInt64

/-- The values of the key columns as one hash. -/
def mixValues : List UInt64 → UInt64
  | [] => 0
  | first :: rest => rest.foldl (fun hash value => (hash * 0x9E3779B97F4A7C15) ^^^ value) first

def keyHash (row : Row) (cols : List Nat) : UInt64 :=
  mixValues (cols.zipWith (fun col key => keyValue key.text (Row.at row col)) join.keys)

def nullKey (row : Row) (cols : List Nat) : Bool := cols.any fun col => (Row.at row col).isNull

def keysEqual (l r : Row) : Bool :=
  join.keys.all fun key =>
    if key.text then (Row.at l key.l).text = (Row.at r key.r).text
    else (Row.at l key.l).i64 = (Row.at r key.r).i64

def bkeys : List Nat := if join.buildLeft then join.lkeys else join.rkeys

def pkeys : List Nat := if join.buildLeft then join.rkeys else join.lkeys

/-- A row of the build side is filed unless its key is NULL. -/
def file (table : JoinHashTable) (row : Row) : JoinHashTable :=
  if nullKey row join.bkeys then table else table.add (join.keyHash row join.bkeys) row

def build (rows : List Row) : JoinHashTable := (rows.foldl join.file { mix := join.mix }).finish

/-- A probe row and a built one, the row of the left input first. -/
def sides (outer inner : Row) : Row × Row :=
  if join.buildLeft then (inner, outer) else (outer, inner)

/-- The joined row of a row in the bucket, if it stands every test. -/
def joinId (table : JoinHashTable) (outer : Row) (hash : UInt64) (id : Nat) : Option Row :=
  let (l, r) := join.sides outer (table.row id)
  if table.hashOf id ≠ hash then none
  else if !join.keysEqual l r then none
  else if !join.residual.all (evalPair · l r join.nleft) then none
  else some (joinRows l r)

/-- The walk through a bucket, `left` positions of it to go. -/
def seek (table : JoinHashTable) (outer : Row) (hash : UInt64) :
    Nat → Nat → Option Row × Nat
  | 0, position => (none, position)
  | left + 1, position =>
    match join.joinId table outer hash (table.idAt position) with
    | some row => (some row, position + 1)
    | none => seek table outer hash left (position + 1)

private theorem seek_some {table : JoinHashTable} {outer row : Row} {hash : UInt64}
    {left position after : Nat}
    (found : join.seek table outer hash left position = (some row, after)) :
    position < after ∧ after ≤ position + left := by
  induction left generalizing position with
  | zero => cases found
  | succ left ih =>
    unfold seek at found
    split at found
    · cases found
      omega
    · have later := ih found
      omega

/-- A probe under way: the hash looked for, and the positions of the bucket. -/
structure Search where
  hash : UInt64
  position : Nat
  end_ : Nat

/-- Each probe row is hashed and compared only with the rows in its bucket. -/
def probe (table : JoinHashTable) : Probe where
  Search := Search
  start outer :=
    if nullKey outer join.pkeys then none
    else
      let hash := join.keyHash outer join.pkeys
      let (position, end_) := table.bucketRange hash
      some { hash, position, end_ }
  advance outer search :=
    let (found, position) :=
      join.seek table outer search.hash (search.end_ - search.position) search.position
    (found, { search with position })
  left search := search.end_ - search.position
  most := table.offset.sum
  start_le := by
    intro outer search started
    split at started
    · cases started
    · cases started
      exact Nat.le_trans (Nat.sub_le _ _) (JoinHashTable.end_le_sum _)
  lowers := by
    intro outer search row after found
    rcases sought : join.seek table outer search.hash (search.end_ - search.position)
      search.position with ⟨joined, position⟩
    rw [sought] at found
    cases found
    have moved := join.seek_some sought
    dsimp only
    omega

/-- `HashJoin`, opened. -/
def run (left right : RowPath) : RowPath :=
  let table := join.build (if join.buildLeft then left else right).rows
  let outer := if join.buildLeft then right else left
  { source := (join.probe table).run outer.source
    state := ({ input := outer.state } : Probe.State _ _) }

end HashJoin

structure IndexNestedLoopJoin where
  outerCol : Nat
  innerCol : Nat
  innerFilter : List BoundComparison := []
  residual : List BoundComparison := []
  innerFirst : Bool := false
  textKey : Bool

namespace IndexNestedLoopJoin

/-- Whether a column of the inner table is TEXT, as the constructor sets `text_key_`. -/
def textKeyOf (inner : OutSchema) (innerCol : Nat) : Bool := typeAt inner innerCol = .kText

variable (join : IndexNestedLoopJoin)

def joined (outer inner : Row) : Row :=
  if join.innerFirst then joinRows inner outer else joinRows outer inner

/-- The joined row of a row that a search found, if it stands every test. -/
def joinFound (outer inner : Row) : Option Row :=
  if join.textKey && (Row.at inner join.innerCol).text ≠ (Row.at outer join.outerCol).text then none
  else if !join.innerFilter.all (eval · inner) then none
  else if !join.residual.all (eval · (join.joined outer inner)) then none
  else some (join.joined outer inner)

/-- The rows that a search found, up to the first that joins. -/
def sift (outer : Row) : List Row → Option Row × List Row
  | [] => (none, [])
  | inner :: rest =>
    match join.joinFound outer inner with
    | some row => (some row, rest)
    | none => sift outer rest

private theorem sift_some {outer row : Row} {inner after : List Row}
    (found : join.sift outer inner = (some row, after)) : after.length < inner.length := by
  induction inner with
  | nil => cases found
  | cons first rest ih =>
    unfold sift at found
    rw [List.length_cons]
    split at found
    · cases found
      exact Nat.lt_succ_self _
    · exact Nat.lt_succ_of_lt (ih found)

/-- The key of each outer row is searched for in the inner table's index. -/
def probe (index : IndexWalk) : Probe where
  Search := List Row
  start outer :=
    if (Row.at outer join.outerCol).isNull then none
    else
      let key := orderKey (Row.at outer join.outerCol)
      some (index.rows key key)
  advance := join.sift
  left := List.length
  most := index.entries
  start_le := by
    intro outer search started
    split at started
    · cases started
    · cases started
      exact index.within _ _
  lowers := join.sift_some

/-- `IndexNestedLoopJoin`, opened. -/
def run (outer : RowPath) (index : IndexWalk) : RowPath where
  source := (join.probe index).run outer.source
  state := ({ input := outer.state } : Probe.State _ _)

end IndexNestedLoopJoin

end Labdb.Query
