import Labdb.Data.Parsing
import Labdb.Sql.Grammar
import Labdb.Sql.Parser

/-! The parser accepts exactly its grammar, rule by rule. -/

namespace Labdb.Sql

open Labdb.Data Labdb.Data.Rule Labdb.Query
open Labdb.Data.Parser (Implements implements_pure implements_token implements_expect)
open Grammar (word identifier columnRef literal)

/-- The end of the tokens. -/
def isEnd (t : Token) : Prop := t.type = .kEnd

instance (t : Token) : Decidable (isEnd t) := inferInstanceAs (Decidable (t.type = .kEnd))

/-- The tokens that may follow a word: all but some. -/
def noneOf (types : List TokenType) (t : Token) : Prop := t.type ∉ types

theorem noneOf_mono {few many : List TokenType} (fewer : ∀ type ∈ few, type ∈ many) (t : Token)
    (isNone : noneOf many t) : noneOf few t := fun member => isNone (fewer t.type member)

/-- A token of another type is none of some. -/
theorem noneOf_of {types : List TokenType} {type : TokenType} (other : type ∉ types) (t : Token)
    (isType : t.type = type) : noneOf types t := fun member => other (isType ▸ member)

section Tokens

variable {α : Type} {stop mid : Token → Prop} {type : TokenType}

theorem notEnd_of_is (notEnd : type ≠ .kEnd) (t : Token) (isType : is type t = true) : ¬ isEnd t := by
  intro end_
  exact notEnd ((is_iff.mp isType).symm.trans end_)

private theorem implements_word (what : String) (notEnd : type ≠ .kEnd) :
    Implements isEnd stop (expect type what) (word type) :=
  implements_expect (notEnd_of_is notEnd)

private theorem implements_switch {cases_ : Token → Option α} {message : String}
    (notEnd : ∀ t a, cases_ t = some a → ¬ isEnd t) :
    Implements isEnd stop (switch cases_ message) (token cases_) := by
  refine @implements_token _ _ _ isEnd stop _ _ (fun t => ⟨bytes message, t.line, t.col⟩)
    (fun t rest => ?_) rfl notEnd
  unfold switch
  rw [Parser.bind_ok (show Parser.peek (t :: rest) = some (.ok t, t :: rest) from rfl)]
  cases cases_ t <;> rfl

/-- Where a token of one type begins the one rule and not the other, it tells them apart. -/
theorem implements_check {yes : Token → Parse α} {no : Parse α} {rule : Token → Rule Token α}
    {other : Rule Token α} (notEnd : type ≠ .kEnd)
    (isYes : ∀ t, Implements isEnd stop (yes t) (rule t)) (isNo : Implements isEnd stop no other)
    (begins : Begins other (fun t => t.type ≠ type) stop) :
    Implements isEnd stop (do if ← check type then Parser.advance >>= yes else no)
      (either (word type >>= rule) other) := by
  unfold check
  rw [Parser.check_advance yes (expectedError "")]
  refine Implements.branch ((implements_word "" notEnd).then_ isYes) isNo ?_ ?_
  · exact begins_first (begins_terminal fun t passes => passes)
  · exact begins.mono fun t differs => decide_eq_false differs

private theorem implements_list {item : Parse α} {rule : Rule Token α}
    (implements : Implements isEnd mid item rule) (goesOn : ∀ t, t.type = .kComma → mid t)
    (stops : ∀ t, stop t → mid t ∧ t.type ≠ .kComma) :
    Implements isEnd stop (commaList item) (Grammar.list rule) :=
  Parser.implements_separated implements (notEnd_of_is (by decide))
    (fun t isComma => goesOn t (is_iff.mp isComma))
    fun t isStop => ⟨(stops t isStop).1, decide_eq_false (stops t isStop).2⟩

end Tokens

/-- The same where the token looked at is left to the rules. -/
theorem implements_branch {α : Type} {stop : Token → Prop} {type : TokenType} {yes no : Parse α}
    {rule other : Rule Token α} (isYes : Implements isEnd stop yes rule)
    (isNo : Implements isEnd stop no other) (begins : Begins rule (fun t => t.type = type) stop)
    (begins' : Begins other (fun t => t.type ≠ type) stop) :
    Implements isEnd stop (do if ← check type then yes else no) (either rule other) :=
  Implements.branch isYes isNo (begins.mono fun _ same => decide_eq_true same)
    (begins'.mono fun _ differs => decide_eq_false differs)

private theorem implements_fail {α : Type} {stop : Token → Prop} (message : Token → Text) :
    Implements isEnd stop (fail message : Parse α) nothing := by
  refine ⟨?_, fun _ _ _ derives => derives.elim, ?_⟩
  · intro word a rest ran
    cases word <;> cases ran
  · intro word ends
    obtain ⟨t, rest, rfl, -⟩ := ends.cons
    exact ⟨_, _, rfl, ends, List.suffix_rfl⟩

private theorem begins_word {stop starts : Token → Prop} {type : TokenType}
    (each : ∀ t, t.type = type → starts t) : Begins (word type) starts stop :=
  begins_terminal fun t passes => each t (is_iff.mp passes)

private theorem begins_keyword {α : Type} {stop starts : Token → Prop} {type : TokenType}
    {rest : Token → Rule Token α} (each : ∀ t, t.type = type → starts t) :
    Begins (word type >>= rest) starts stop :=
  begins_first (begins_word each)

private theorem implements_identifier {α : Type} {stop : Token → Prop} {what : String}
    {next : Token → Parse α} {rest : Text → Rule Token α}
    (later : ∀ t, Implements isEnd stop (next t) (rest t.text)) :
    Implements isEnd stop (expect .kIdentifier what >>= next) (identifier >>= rest) := by
  unfold identifier
  rw [Rule.bind_assoc]
  refine (implements_word what (by decide)).then_ fun t => ?_
  rw [Rule.pure_bind]
  exact later t

theorem begins_identifier {α : Type} {stop starts : Token → Prop} {rest : Text → Rule Token α}
    (each : ∀ t, t.type = .kIdentifier → starts t) : Begins (identifier >>= rest) starts stop :=
  begins_first (begins_keyword each)

section Rules

variable {stop : Token → Prop}

private theorem implements_columnRef (what : String) :
    Implements isEnd (noneOf [.kDot]) (parseColumnRef what) columnRef := by
  refine implements_identifier fun first => ?_
  refine implements_check (by decide) (fun _ => ?_) (implements_pure _) (begins_pure fun t => ?_)
  · exact implements_identifier fun column => implements_pure _
  · simp [noneOf]

private theorem implements_literal : Implements isEnd stop parseLiteral literal := by
  refine implements_switch fun t a isCase end_ => ?_
  rw [end_] at isCase
  cases isCase

private theorem implements_op : Implements isEnd stop parseOp Grammar.op := by
  refine implements_switch fun t a isCase end_ => ?_
  rw [end_] at isCase
  cases isCase

private theorem implements_argument (func : AggFunc) :
    Implements isEnd (noneOf [.kDot]) (parseArgument func) (Grammar.argument func) := by
  have isRef : Implements isEnd (noneOf [.kDot])
      (do
        let ref ← parseColumnRef "a column name"
        pure { toColumnRef := ref, func } : Parse SelectItem)
      (do
        let ref ← columnRef
        pure { toColumnRef := ref, func }) :=
    (implements_columnRef _).bind (fun _ => implements_pure _) fun _ => begins_pure fun _ => id
  have begins : Begins (do
      let ref ← columnRef
      pure { toColumnRef := ref, func } : Rule Token SelectItem)
      (fun t => t.type ≠ .kStar) (noneOf [.kDot]) :=
    begins_first (begins_identifier fun t isName => by rw [isName]; decide)
  unfold parseArgument Grammar.argument
  by_cases count : func = .kCount
  · rw [if_pos count, if_neg (not_not.mpr count)]
    exact implements_check (by decide) (fun _ => implements_pure _) isRef begins
  · rw [if_neg count, if_pos count]
    exact implements_branch (implements_fail _) isRef begins_nothing begins

private theorem implements_parenthesized {α : Type} {mid : Token → Prop} {inner : Parse α}
    {rule : Rule Token α} (opens closes : String) (implements : Implements isEnd mid inner rule)
    (closed : ∀ t, t.type = .kRParen → mid t) :
    Implements isEnd stop
      (do
        let _ ← expect .kLParen opens
        let a ← inner
        let _ ← expect .kRParen closes
        pure a)
      (Grammar.parenthesized rule) := by
  refine (implements_word opens (by decide)).then_ fun _ => ?_
  refine implements.bind (fun a => ?_) fun a => begins_keyword closed
  exact (implements_word closes (by decide)).then_ fun _ => implements_pure a

/-- What follows the name of an aggregate. -/
def parseArguments (func : AggFunc) : Parse SelectItem := do
  let _ ← expect .kLParen "'('"
  let v ← parseArgument func
  let _ ← expect .kRParen "')' after the aggregate's argument"
  pure v

private theorem implements_arguments (func : AggFunc) : Implements isEnd stop (parseArguments func)
    (Grammar.parenthesized (Grammar.argument func)) :=
  implements_parenthesized _ _ (implements_argument func) fun t closes => by
    simp [noneOf, closes]

private theorem parseAggregate_cons (t : Token) (rest : List Token) : parseAggregate (t :: rest) =
    match aggregateOf t.text with
    | some func => parseArguments func rest
    | none => some (.error ⟨bytes "unknown function '" ++ t.text ++
        bytes "' (the aggregates are COUNT, SUM, AVG, MIN and MAX)", t.line, t.col⟩, t :: rest) := by
  unfold parseAggregate
  rw [Parser.bind_ok (show Parser.peek (t :: rest) = some (.ok t, t :: rest) from rfl)]
  cases aggregateOf t.text <;> rfl

/-- A value that is a column. -/
def parseColumn (what : String) : Parse SelectItem := do
  let ref ← parseColumnRef what
  pure { toColumnRef := ref }

def column : Rule Token SelectItem := do
  let ref ← columnRef
  pure { toColumnRef := ref }

private theorem implements_column (what : String) :
    Implements isEnd (noneOf [.kDot]) (parseColumn what) column :=
  (implements_columnRef what).bind (fun _ => implements_pure _) fun _ => begins_pure fun _ => id

private theorem parseValue_one (what : String) (t : Token) :
    parseValue what [t] = (if is .kIdentifier t && is .kLParen t then parseAggregate
      else parseColumn what) [t] := rfl

private theorem parseValue_cons (what : String) (t u : Token) (rest : List Token) :
    parseValue what (t :: u :: rest) = (if is .kIdentifier t && is .kLParen u then parseAggregate
      else parseColumn what) (t :: u :: rest) := rfl

/-- No function call is next. -/
def NoCall : List Token → Prop
  | [] => False
  | [_] => True
  | t :: u :: _ => ¬ (t.type = .kIdentifier ∧ u.type = .kLParen)

private theorem parseValue_column (what : String) {word : List Token} (noCall : NoCall word) :
    parseValue what word = parseColumn what word := by
  match word, noCall with
  | [t], _ =>
    have not : ¬ (is .kIdentifier t && is .kLParen t) = true := by
      rw [Bool.and_eq_true, is_iff, is_iff]
      rintro ⟨isName, opens⟩
      cases isName.symm.trans opens
    rw [parseValue_one, if_neg not]
  | t :: u :: rest, noCall =>
    rw [parseValue_cons, if_neg]
    rwa [Bool.and_eq_true, is_iff, is_iff]

private theorem functionName_iff {t : Token} {func : AggFunc} : Grammar.functionName t = some func ↔
    t.type = .kIdentifier ∧ aggregateOf t.text = some func := by
  rw [Grammar.functionName, Option.ite_none_right_eq_some, is_iff]
  rfl

/-- What follows a column, which no parenthesis does. -/
theorem column_noCall {used rest : List Token} {v : SelectItem} (derives : column used v)
    (follows : Next (noneOf [.kDot, .kLParen]) rest) : NoCall (used ++ rest) := by
  obtain ⟨_, _, ref, rfl, ⟨_, back, name, rfl, ⟨_, _, first, rfl, isName, rfl, rfl⟩, qualified⟩,
    rfl, rfl⟩ := derives
  obtain ⟨rfl, -⟩ := Parser.terminal_iff.mp isName
  rw [List.append_nil, List.append_nil]
  rcases qualified with ⟨_, _, dot, rfl, isDot, -⟩ | ⟨rfl, -⟩
  · obtain ⟨rfl, dotIs⟩ := Parser.terminal_iff.mp isDot
    rintro ⟨-, opens⟩
    cases (is_iff.mp dotIs).symm.trans opens
  · obtain ⟨t, more, rfl, isNone⟩ := follows
    rintro ⟨-, opens⟩
    exact isNone (by simp [opens])

private theorem implements_value (what : String) :
    Implements isEnd (noneOf [.kDot, .kLParen]) (parseValue what) Grammar.value := by
  have isColumn := implements_column what
  refine ⟨?_, ?_, ?_⟩
  · intro word v rest ran
    by_cases noCall : NoCall word
    · rw [parseValue_column what noCall] at ran
      obtain ⟨used, split, derives⟩ := isColumn.sound word v rest ran
      exact ⟨used, split, .inr derives⟩
    · match word, noCall with
      | [], _ => cases ran
      | [t], noCall => exact absurd trivial noCall
      | t :: u :: more, noCall =>
        obtain ⟨isName, opens⟩ := not_not.mp noCall
        rw [parseValue_cons, if_pos (by simp [is, isName, opens]), parseAggregate_cons] at ran
        cases func : aggregateOf t.text with
        | none =>
          rw [func] at ran
          cases ran
        | some func' =>
          rw [func] at ran
          obtain ⟨used, split, derives⟩ := (@implements_arguments isEnd func').sound _ v rest ran
          refine ⟨t :: used, by rw [split]; rfl, .inl ⟨[t], used, func', rfl, ⟨t, rfl, ?_⟩, derives⟩⟩
          exact functionName_iff.mpr ⟨isName, func⟩
  · rintro used v rest (⟨_, back, func, rfl, ⟨t, rfl, name⟩, derives⟩ | derives) follows
    · obtain ⟨isName, func_eq⟩ := functionName_iff.mp name
      obtain ⟨u, more, same, opens⟩ := begins_keyword (fun t isOpen => isOpen) back v rest derives follows
      have ran := (@implements_arguments (fun _ => True) func).complete back v rest derives
        (follows.imp fun _ _ => trivial)
      rw [List.singleton_append, List.cons_append, same] at *
      rw [parseValue_cons, if_pos (by simp [is, isName, opens]), parseAggregate_cons, func_eq]
      exact ran
    · rw [parseValue_column what (column_noCall derives follows)]
      exact isColumn.complete used v rest derives (follows.imp (noneOf_mono (by decide)))
  · intro word ends
    by_cases noCall : NoCall word
    · rw [parseValue_column what noCall]
      exact isColumn.stays word ends
    · match word, noCall, ends with
      | [], _, ends => cases ends
      | [t], noCall, _ => exact absurd trivial noCall
      | t :: u :: more, noCall, ends =>
        obtain ⟨isName, opens⟩ := not_not.mp noCall
        rw [parseValue_cons, if_pos (by simp [is, isName, opens]), parseAggregate_cons]
        cases func : aggregateOf t.text with
        | none => exact ⟨_, _, rfl, ends, List.suffix_rfl⟩
        | some func' =>
          cases ends with
          | more _ later =>
            obtain ⟨result, rest, ran, ends', suffix⟩ :=
              (@implements_arguments isEnd func').stays _ later
            exact ⟨result, rest, ran, ends', suffix.trans (List.suffix_cons t _)⟩

theorem begins_value {starts : Token → Prop} (each : ∀ t, t.type = .kIdentifier → starts t) :
    Begins Grammar.value starts stop := by
  have isCall : Begins Grammar.aggregate starts stop :=
    begins_first (begins_token fun t func name => each t (functionName_iff.mp name).1)
  refine begins_either isCall ?_
  exact begins_first (begins_identifier each)

private theorem implements_comparison :
    Implements isEnd (noneOf [.kDot]) parseComparison Grammar.comparison := by
  refine (implements_value _).bind (fun left => ?_) fun left => ?_
  · refine implements_op.then_ fun op => ?_
    refine implements_branch ?_ (implements_literal.then_ fun _ => implements_pure _) ?_ ?_
    · exact (implements_columnRef _).bind (fun _ => implements_pure _) fun _ =>
        begins_pure fun _ => id
    · exact begins_first (begins_identifier fun t isName => isName)
    · refine begins_first (begins_token fun t a isLiteral => ?_)
      intro isName
      rw [Grammar.literalOf, isName] at isLiteral
      cases isLiteral
  · refine begins_first (begins_token fun t op isOp => ?_)
    have isOp := (Option.ite_none_right_eq_some.mp isOp).1
    refine fun member => ?_
    rcases List.mem_pair.mp member with same | same <;> rw [same] at isOp <;> cases isOp

private theorem implements_condition :
    Implements isEnd (noneOf [.kDot, .kAnd]) parseCondition Grammar.condition := by
  refine Parser.implements_separated implements_comparison (notEnd_of_is (by decide)) ?_ ?_
  · exact fun t isAnd => noneOf_of (by decide) t (is_iff.mp isAnd)
  · intro t isStop
    exact ⟨noneOf_mono (by decide) t isStop, decide_eq_false fun same => isStop (by simp [same])⟩

private theorem implements_tableRef :
    Implements isEnd (noneOf [.kAs, .kIdentifier]) parseTableRef Grammar.tableRef := by
  refine implements_identifier fun name => ?_
  refine implements_check (by decide) (fun _ => ?_) ?_ ?_
  · exact implements_identifier fun _ => implements_pure _
  · unfold identifier
    rw [Rule.bind_assoc]
    refine implements_check (by decide) (fun t => ?_) (implements_pure _) (begins_pure fun t => ?_)
    · rw [Rule.pure_bind]
      exact implements_pure _
    · exact fun isStop same => isStop (by simp [same])
  · refine begins_either (begins_identifier fun t isName => ?_) (begins_pure fun t isStop => ?_)
    · rw [isName]
      decide
    · exact fun same => isStop (by simp [same])

private theorem implements_skip {type : TokenType} (notEnd : type ≠ .kEnd)
    (isStop : ∀ t, stop t → t.type ≠ type) : Implements isEnd stop (skip type)
      (Grammar.optional
        (do
          let _ ← word type
          pure ())
        ()) :=
  implements_check notEnd (fun _ => implements_pure _) (implements_pure _) (begins_pure isStop)

theorem implements_join : Implements isEnd (noneOf [.kDot, .kAnd]) parseJoin Grammar.join := by
  have skips := @implements_skip (fun t => t.type ≠ .kInner) .kInner (by decide) fun _ => id
  refine skips.bind (fun _ => ?_) fun _ => begins_keyword fun t isJoin => by rw [isJoin]; decide
  refine (implements_word _ (by decide)).then_ fun _ => ?_
  refine implements_tableRef.bind (fun table => ?_) fun _ =>
    begins_keyword (noneOf_of (by decide))
  refine (implements_word _ (by decide)).then_ fun _ => ?_
  exact implements_condition.bind (fun _ => implements_pure _) fun _ => begins_pure fun _ => id

theorem begins_join : Begins Grammar.join (fun t => (is .kJoin t || is .kInner t) = true) stop := by
  refine begins_bind ?_ fun _ => begins_keyword fun _ => id
  refine begins_either (begins_keyword fun t isInner => ?_) (begins_pure fun t isJoin => ?_)
  · simp [is, isInner]
  · simp [is, isJoin]

private theorem consumes_join : Consumes Grammar.join := by
  refine consumes_later fun _ => consumes_bind ?_
  exact consumes_token

theorem implements_joins : Implements isEnd (noneOf [.kDot, .kAnd, .kJoin, .kInner]) parseJoins
    (repeated Grammar.join) := by
  refine Parser.implements_while implements_join ?_ ?_ begins_join consumes_join
  · intro t isJoin
    rw [Bool.or_eq_true, is_iff, is_iff] at isJoin
    exact isJoin.elim (noneOf_of (by decide) t) (noneOf_of (by decide) t)
  · intro t isStop
    refine ⟨noneOf_mono (by decide) t isStop, ?_⟩
    rw [Bool.or_eq_false_iff]
    exact ⟨decide_eq_false fun same => isStop (by simp [same]),
      decide_eq_false fun same => isStop (by simp [same])⟩

private theorem implements_item :
    Implements isEnd (noneOf [.kDot, .kLParen, .kAs]) parseItem Grammar.item := by
  refine (implements_value _).bind (fun value => ?_) fun value => ?_
  · refine implements_check (by decide) (fun _ => ?_) (implements_pure _) (begins_pure fun t => ?_)
    · exact implements_identifier fun _ => implements_pure _
    · exact fun isStop same => isStop (by simp [same])
  · refine begins_either (begins_keyword (noneOf_of (by decide))) (begins_pure ?_)
    exact noneOf_mono (by decide)

private theorem implements_orderItem :
    Implements isEnd (noneOf [.kDot, .kLParen, .kAsc, .kDesc]) parseOrderItem Grammar.orderItem := by
  refine (implements_value _).bind (fun value => ?_) fun value => ?_
  · refine implements_check (by decide) (fun _ => implements_pure _) ?_ ?_
    · refine implements_check (by decide) (fun _ => implements_pure _) (implements_pure _)
        (begins_pure fun t => ?_)
      exact fun isStop same => isStop (by simp [same])
    · refine begins_either (begins_keyword fun t isDesc => ?_) (begins_pure fun t isStop => ?_)
      · rw [isDesc]
        decide
      · exact fun same => isStop (by simp [same])
  · refine begins_either (begins_keyword (noneOf_of (by decide))) ?_
    refine begins_either (begins_keyword (noneOf_of (by decide))) (begins_pure ?_)
    exact noneOf_mono (by decide)

private theorem implements_selectList : Implements isEnd (noneOf [.kDot, .kLParen, .kAs, .kComma])
    parseSelectList Grammar.selectList := by
  refine implements_check (by decide) (fun _ => implements_pure _) ?_ ?_
  · have items : Implements isEnd (noneOf [.kDot, .kLParen, .kAs, .kComma]) (commaList parseItem)
        (Grammar.list Grammar.item) := by
      refine implements_list implements_item (noneOf_of (by decide)) fun t isStop => ?_
      exact ⟨noneOf_mono (by decide) t isStop, fun same => isStop (by simp [same])⟩
    exact items.bind (fun _ => implements_pure _) fun _ => begins_pure fun _ => id
  · refine begins_first (begins_first (begins_first (begins_value fun t isName => ?_)))
    rw [isName]
    decide

private theorem implements_clause {α : Type} {keyword : TokenType} {rest : Parse (List α)}
    {rule : Rule Token (List α)} (notEnd : keyword ≠ .kEnd) (implements : Implements isEnd stop rest rule)
    (isStop : ∀ t, stop t → t.type ≠ keyword) :
    Implements isEnd stop (parseClause keyword rest) (Grammar.clause keyword rule) :=
  implements_check notEnd (fun _ => implements) (implements_pure _) (begins_pure isStop)

/-- What the clauses after an optional one may begin with, it may. -/
theorem begins_clause {α β : Type} {starts : Token → Prop} {keyword : TokenType}
    {rule : Rule Token (List α)} {rest : List α → Rule Token β}
    (each : ∀ t, t.type = keyword → starts t) (later : ∀ all, Begins (rest all) starts stop) :
    Begins (Grammar.clause keyword rule >>= rest) starts stop :=
  begins_bind (begins_either (begins_keyword each) (begins_pure fun _ => id)) later

private theorem implements_groupBy :
    Implements isEnd (noneOf [.kDot, .kComma]) parseGroupBy (Grammar.byList columnRef) := by
  refine (implements_word _ (by decide)).then_ fun _ => ?_
  refine implements_list (implements_columnRef _) (noneOf_of (by decide)) fun t isStop => ?_
  exact ⟨noneOf_mono (by decide) t isStop, fun same => isStop (by simp [same])⟩

theorem implements_orderBy : Implements isEnd (noneOf [.kDot, .kLParen, .kAsc, .kDesc, .kComma])
    parseOrderBy (Grammar.byList Grammar.orderItem) := by
  refine (implements_word _ (by decide)).then_ fun _ => ?_
  refine implements_list implements_orderItem (noneOf_of (by decide)) fun t isStop => ?_
  exact ⟨noneOf_mono (by decide) t isStop, fun same => isStop (by simp [same])⟩

private theorem implements_rowCount : Implements isEnd stop parseRowCount Grammar.rowCount := by
  have taken := @implements_word stop .kIntLiteral "a row count after LIMIT" (by decide)
  refine ⟨?_, ?_, ?_⟩
  · intro word count rest ran
    obtain ⟨n, middle, first, ran⟩ := Parser.ok_of_bind ran
    obtain ⟨used, split, derives⟩ := taken.sound word n middle first
    obtain ⟨rfl, isInt⟩ := Parser.terminal_iff.mp derives
    by_cases negative : n.intVal < 0
    · rw [if_pos negative] at ran
      cases ran
    · rw [if_neg negative] at ran
      cases ran
      exact ⟨[n], split, n, rfl, if_pos ⟨isInt, Int64.not_lt.mp negative⟩⟩
  · rintro used count rest ⟨n, rfl, isCount⟩ follows
    obtain ⟨⟨isInt, positive⟩, same⟩ := Option.ite_none_right_eq_some.mp isCount
    cases same
    have first := taken.complete [n] n rest (Parser.terminal_iff.mpr ⟨rfl, isInt⟩) follows
    unfold parseRowCount
    rw [Parser.bind_ok first, if_neg (Int64.not_lt.mpr positive)]
    rfl
  · intro word ends
    obtain ⟨result, rest, ran, ends', suffix⟩ := taken.stays word ends
    unfold parseRowCount
    cases result with
    | error e => exact ⟨.error e, rest, Parser.bind_error ran, ends', suffix⟩
    | ok n =>
      rw [Parser.bind_ok ran]
      split
      · exact ⟨_, rest, rfl, ends', suffix⟩
      · exact ⟨_, rest, rfl, ends', suffix⟩

theorem implements_limit : Implements isEnd (noneOf [.kLimit]) parseLimit Grammar.limit := by
  refine implements_check (by decide) (fun _ => ?_) (implements_pure _) (begins_pure fun t => ?_)
  · exact implements_rowCount.then_ fun _ => implements_pure _
  · exact fun isStop same => isStop (by simp [same])

/-- What may follow a statement: no token that could go on with it. -/
def statementStop : Token → Prop :=
  noneOf [.kDot, .kLParen, .kAs, .kIdentifier, .kComma, .kAnd, .kJoin, .kInner, .kWhere, .kGroup,
    .kHaving, .kOrder, .kAsc, .kDesc, .kLimit]

/-- What the end of a statement may begin with. -/
theorem begins_end {types : List TokenType} {s : Option Int64 → Statement}
    (isLimit : TokenType.kLimit ∉ types) (fewer : ∀ type ∈ types, type ∈
      [TokenType.kDot, .kLParen, .kAs, .kIdentifier, .kComma, .kAnd, .kJoin, .kInner, .kWhere,
        .kGroup, .kHaving, .kOrder, .kAsc, .kDesc, .kLimit]) :
    Begins (do
      let limit ← Grammar.limit
      pure (s limit)) (noneOf types) statementStop := by
  refine begins_bind (begins_either (begins_keyword (noneOf_of isLimit)) (begins_pure fun _ => id)) ?_
  exact fun _ => begins_pure (noneOf_mono fewer)

private theorem implements_select : Implements isEnd statementStop parseSelect Grammar.select := by
  have clauseStop : ∀ {few : List TokenType} {keyword : TokenType}, keyword ∈ few →
      ∀ t, noneOf few t → t.type ≠ keyword := fun member t isStop same => isStop (same ▸ member)
  refine (implements_word _ (by decide)).then_ fun _ => ?_
  refine implements_selectList.bind ?_ fun _ => begins_keyword (noneOf_of (by decide))
  rintro ⟨star, columns⟩
  refine (implements_word _ (by decide)).then_ fun _ => ?_
  have where_ : Implements isEnd (noneOf [.kDot, .kAnd, .kWhere]) (parseClause .kWhere parseCondition)
      (Grammar.clause .kWhere Grammar.condition) :=
    implements_clause (by decide) (implements_condition.mono (noneOf_mono (by decide)))
      (clauseStop (by decide))
  have groupBy : Implements isEnd (noneOf [.kDot, .kComma, .kGroup])
      (parseClause .kGroup parseGroupBy) (Grammar.clause .kGroup (Grammar.byList columnRef)) :=
    implements_clause (by decide) (implements_groupBy.mono (noneOf_mono (by decide)))
      (clauseStop (by decide))
  have having : Implements isEnd (noneOf [.kDot, .kAnd, .kHaving])
      (parseClause .kHaving parseCondition) (Grammar.clause .kHaving Grammar.condition) :=
    implements_clause (by decide) (implements_condition.mono (noneOf_mono (by decide)))
      (clauseStop (by decide))
  have orderBy : Implements isEnd (noneOf [.kDot, .kLParen, .kAsc, .kDesc, .kComma, .kOrder])
      (parseClause .kOrder parseOrderBy)
      (Grammar.clause .kOrder (Grammar.byList Grammar.orderItem)) :=
    implements_clause (by decide) (implements_orderBy.mono (noneOf_mono (by decide)))
      (clauseStop (by decide))
  refine implements_tableRef.bind (fun from_ => ?_) fun _ => ?_
  · refine implements_joins.bind (fun joins => ?_) fun _ => ?_
    · refine where_.bind (fun where_ => ?_) fun _ => ?_
      · refine groupBy.bind (fun groupBy => ?_) fun _ => ?_
        · refine having.bind (fun having => ?_) fun _ => ?_
          · refine orderBy.bind (fun orderBy => ?_) fun _ => ?_
            · refine implements_limit.bind (fun limit => implements_pure _) fun _ => ?_
              exact begins_pure (noneOf_mono (by decide))
            · exact begins_end (by decide) (by decide)
          · exact begins_clause (noneOf_of (by decide)) fun _ => begins_end (by decide) (by decide)
        · refine begins_clause (noneOf_of (by decide)) fun _ => ?_
          exact begins_clause (noneOf_of (by decide)) fun _ => begins_end (by decide) (by decide)
      · refine begins_clause (noneOf_of (by decide)) fun _ => ?_
        refine begins_clause (noneOf_of (by decide)) fun _ => ?_
        exact begins_clause (noneOf_of (by decide)) fun _ => begins_end (by decide) (by decide)
    · refine begins_clause (noneOf_of (by decide)) fun _ => ?_
      refine begins_clause (noneOf_of (by decide)) fun _ => ?_
      refine begins_clause (noneOf_of (by decide)) fun _ => ?_
      exact begins_clause (noneOf_of (by decide)) fun _ => begins_end (by decide) (by decide)
  · have joins : Begins (repeated Grammar.join) (noneOf [.kAs, .kIdentifier])
        (noneOf [.kAs, .kIdentifier]) := by
      refine begins_repeated (begins_join.mono fun t isJoin => ?_) fun _ => id
      rw [Bool.or_eq_true, is_iff, is_iff] at isJoin
      exact isJoin.elim (noneOf_of (by decide) t) (noneOf_of (by decide) t)
    refine begins_bind joins fun _ => ?_
    refine begins_clause (noneOf_of (by decide)) fun _ => ?_
    refine begins_clause (noneOf_of (by decide)) fun _ => ?_
    refine begins_clause (noneOf_of (by decide)) fun _ => ?_
    exact begins_clause (noneOf_of (by decide)) fun _ => begins_end (by decide) (by decide)

private theorem implements_columnDef :
    Implements isEnd (noneOf [.kNot, .kNull]) parseColumnDef Grammar.columnDef := by
  refine implements_identifier fun name => ?_
  have isType : ∀ {stop}, Implements isEnd stop parseType (token Grammar.columnType) := by
    intro stop
    refine implements_switch fun t a isCase end_ => ?_
    rw [end_] at isCase
    cases isCase
  refine isType.then_ fun type => ?_
  refine implements_check (by decide) (fun _ => ?_) ?_ ?_
  · exact (implements_word _ (by decide)).then_ fun _ => implements_pure _
  · refine implements_check (by decide) (fun _ => implements_pure _) (implements_pure _)
      (begins_pure fun t => ?_)
    exact fun isStop same => isStop (by simp [same])
  · refine begins_either (begins_keyword fun t isNull => ?_) (begins_pure fun t isStop => ?_)
    · rw [isNull]
      decide
    · exact fun same => isStop (by simp [same])

private theorem implements_parens {α β : Type} {mid : Token → Prop} {inner : Parse α}
    {rule : Rule Token α} {next : α → Parse β} {rest : α → Rule Token β} (opens closes : String)
    (implements : Implements isEnd mid inner rule) (closed : ∀ t, t.type = .kRParen → mid t)
    (later : ∀ a, Implements isEnd stop (next a) (rest a)) :
    Implements isEnd stop
      (do
        let _ ← expect .kLParen opens
        let a ← inner
        let _ ← expect .kRParen closes
        next a)
      (Grammar.parenthesized rule >>= rest) := by
  unfold Grammar.parenthesized
  rw [Rule.bind_assoc]
  refine (implements_word opens (by decide)).then_ fun _ => ?_
  rw [Rule.bind_assoc]
  refine implements.bind (fun a => ?_) fun a => ?_
  · rw [Rule.bind_assoc]
    refine (implements_word closes (by decide)).then_ fun _ => ?_
    rw [Rule.pure_bind]
    exact later a
  · rw [Rule.bind_assoc]
    exact begins_keyword closed

private theorem implements_createTable : Implements isEnd stop
    (do
      let _ ← expect .kTable "TABLE or INDEX"
      let table ← expect .kIdentifier "a table name"
      let _ ← expect .kLParen "'(' before the column list"
      let columns ← commaList parseColumnDef
      let _ ← expect .kRParen "')' after the column list"
      pure (.kCreate { table := table.text, schema := { columns } }))
    Grammar.createTable := by
  refine (implements_word _ (by decide)).then_ fun _ => ?_
  refine implements_identifier fun table => ?_
  have columns : Implements isEnd (noneOf [.kNot, .kNull, .kComma]) (commaList parseColumnDef)
      (Grammar.list Grammar.columnDef) := by
    refine implements_list implements_columnDef (noneOf_of (by decide)) fun t isStop => ?_
    exact ⟨noneOf_mono (by decide) t isStop, fun same => isStop (by simp [same])⟩
  exact implements_parens _ _ columns (noneOf_of (by decide)) fun _ => implements_pure _

private theorem implements_createIndex :
    Implements isEnd stop parseCreateIndex Grammar.createIndex := by
  refine (implements_word _ (by decide)).then_ fun _ => ?_
  refine (implements_word _ (by decide)).then_ fun _ => ?_
  refine implements_identifier fun table => ?_
  unfold Grammar.parenthesized
  rw [Rule.bind_assoc]
  refine (implements_word _ (by decide)).then_ fun _ => ?_
  rw [Rule.bind_assoc]
  refine implements_identifier fun column => ?_
  rw [Rule.bind_assoc]
  refine (implements_word _ (by decide)).then_ fun _ => ?_
  rw [Rule.pure_bind]
  exact implements_pure _

private theorem implements_create : Implements isEnd stop parseCreate Grammar.create := by
  refine (implements_word _ (by decide)).then_ fun _ => ?_
  refine implements_branch implements_createIndex implements_createTable (begins_keyword fun _ => id)
    (begins_keyword fun t isTable => ?_)
  rw [isTable]
  decide

private theorem implements_insert : Implements isEnd stop parseInsert Grammar.insert := by
  refine (implements_word _ (by decide)).then_ fun _ => ?_
  refine (implements_word _ (by decide)).then_ fun _ => ?_
  refine implements_identifier fun table => ?_
  refine (implements_word _ (by decide)).then_ fun _ => ?_
  have values : Implements isEnd (noneOf [.kComma]) (commaList parseLiteral)
      (Grammar.list literal) := by
    refine implements_list implements_literal (fun _ _ => trivial) fun t isStop => ?_
    exact ⟨trivial, fun same => isStop (by simp [same])⟩
  exact implements_parens _ _ values (noneOf_of (by decide)) fun _ => implements_pure _

private theorem implements_bound : Implements isEnd stop parseBound (token Grammar.boundOf) := by
  refine implements_switch fun t a isCase end_ => ?_
  rw [end_] at isCase
  cases isCase

theorem implements_statement : Implements isEnd statementStop parseStatement Grammar.statement := by
  have bound : ∀ {type : TokenType}, (∀ t : Token, t.type = type → Grammar.boundOf t = none) →
      Begins (token Grammar.boundOf) (fun t => t.type ≠ type) statementStop := by
    intro type none_
    refine begins_token fun t s isBound same => ?_
    rw [none_ t same] at isBound
    cases isBound
  have other : ∀ {type type' : TokenType}, type' ≠ type → ∀ t : Token, t.type = type' →
      t.type ≠ type := fun differ t same isType => differ (same.symm.trans isType)
  refine implements_branch implements_create ?_ (begins_keyword fun _ => id) ?_
  · refine implements_branch implements_insert ?_ (begins_keyword fun _ => id) ?_
    · refine implements_branch implements_select implements_bound (begins_keyword fun _ => id) ?_
      exact bound fun t same => by rw [Grammar.boundOf, same]
    · refine begins_either (begins_keyword (other (by decide))) ?_
      exact bound fun t same => by rw [Grammar.boundOf, same]
  · refine begins_either (begins_keyword (other (by decide))) ?_
    refine begins_either (begins_keyword (other (by decide))) ?_
    exact bound fun t same => by rw [Grammar.boundOf, same]

/-- A statement and perhaps a semicolon, before the end is looked for. -/
def parseSemicolon : Parse Statement := do
  let s ← parseStatement
  let _ ← skip .kSemicolon
  pure s

private theorem implements_single : Implements isEnd isEnd parseSemicolon Grammar.single := by
  refine implements_statement.bind (fun s => ?_) fun s => ?_
  · have skips := @implements_skip isEnd .kSemicolon (by decide) fun t end_ same => by
      cases end_.symm.trans same
    exact skips.bind (fun _ => implements_pure _) fun _ => begins_pure fun _ => id
  · refine begins_bind (begins_either (begins_keyword (noneOf_of (by decide)))
      (begins_pure fun _ => id)) fun _ => begins_pure ?_
    exact fun t end_ => noneOf_of (by decide) t end_

def parseEnd (s : Statement) : Parse Statement := do
  if ← check .kEnd then pure s
  else fail fun t => bytes "expected the end of the statement, found '" ++ t.text ++ bytes "'"

private theorem parseSingle_eq : parseSingle = parseSemicolon >>= parseEnd := by
  unfold parseSemicolon
  simp only [Parser.bind_assoc, Parser.pure_bind]
  rfl

/-- At the end the statement is returned, elsewhere there is an error. -/
theorem parseSingle_ok {tokens rest : List Token} {s : Statement} {t : Token}
    (ran : parseSemicolon tokens = some (.ok s, t :: rest)) :
    parseSingle tokens = if t.type = .kEnd then some (.ok s, t :: rest) else
      some (.error ⟨bytes "expected the end of the statement, found '" ++ t.text ++ bytes "'", t.line,
        t.col⟩, t :: rest) := by
  rw [parseSingle_eq, Parser.bind_ok ran]
  unfold parseEnd check
  rw [Parser.bind_ok (Parser.check_cons _ t)]
  by_cases end_ : t.type = .kEnd
  · rw [if_pos (is_iff.mpr end_), if_pos end_]
    rfl
  · rw [if_neg (mt is_iff.mp end_), if_neg end_]
    rfl

/-- Tokens that are parsed are a derivation's, and the end. -/
theorem derives_of_parseSingle {tokens rest : List Token} {s : Statement} (ends : Ends isEnd tokens)
    (accepted : parseSingle tokens = some (.ok s, rest)) :
    ∃ word last, tokens = word ++ [last] ∧ Grammar.single word s := by
  obtain ⟨result, left, ran, ends', -⟩ := implements_single.stays tokens ends
  cases result with
  | error e =>
    rw [parseSingle_eq, Parser.bind_error ran] at accepted
    cases accepted
  | ok s' =>
    obtain ⟨t, more, rfl, -⟩ := ends'.cons
    rw [parseSingle_ok ran] at accepted
    split at accepted
    · rename_i end_
      cases accepted
      obtain rfl := ends'.tail end_
      obtain ⟨used, split, derives⟩ := implements_single.sound tokens s _ ran
      exact ⟨used, t, split, derives⟩
    · cases accepted

/-- A derivation's tokens and the end are parsed to what the derivation describes. -/
theorem parseSingle_of_derives {word : List Token} {s : Statement} {last : Token}
    (derives : Grammar.single word s) (end_ : last.type = .kEnd) :
    parseSingle (word ++ [last]) = some (.ok s, [last]) := by
  have ran := implements_single.complete word s [last] derives ⟨last, [], rfl, end_⟩
  rw [parseSingle_ok ran]
  exact if_pos end_

end Rules

/-- On tokens that end in their one `kEnd`, `parse_single` comes to a result, with the `kEnd`
not taken; and it is a statement when the grammar derives the tokens before the end, the
one that the derivation describes. -/
theorem parse_single_accepts {tokens : List Token} (ends : Ends isEnd tokens) :
    (∃ result rest, parseSingle tokens = some (result, rest) ∧ Ends isEnd rest ∧ rest <:+ tokens) ∧
      ∀ s, (∃ rest, parseSingle tokens = some (.ok s, rest)) ↔
        ∃ word last, tokens = word ++ [last] ∧ Grammar.single word s := by
  obtain ⟨result, left, ran, ends', suffix⟩ := implements_single.stays tokens ends
  refine ⟨?_, fun s => ⟨fun ⟨rest, accepted⟩ => derives_of_parseSingle ends accepted, ?_⟩⟩
  · cases result with
    | error e => exact ⟨_, left, by rw [parseSingle_eq, Parser.bind_error ran], ends', suffix⟩
    | ok s =>
      obtain ⟨t, more, rfl, -⟩ := ends'.cons
      rw [parseSingle_ok ran]
      split
      · exact ⟨_, _, rfl, ends', suffix⟩
      · exact ⟨_, _, rfl, ends', suffix⟩
  · rintro ⟨word, last, rfl, derives⟩
    exact ⟨[last], parseSingle_of_derives derives (ends.last rfl)⟩

/-- `SELECT COUNT(*), t.v FROM s t LIMIT 5;` -/
theorem parse_single_accepts_limit :
    let token := fun type text => ({ type, text := bytes text } : Token)
    let tokens := [token .kSelect "SELECT", token .kIdentifier "Count", token .kLParen "(",
      token .kStar "*", token .kRParen ")", token .kComma ",", token .kIdentifier "t",
      token .kDot ".", token .kIdentifier "v", token .kFrom "FROM", token .kIdentifier "s",
      token .kIdentifier "t", token .kLimit "LIMIT", { type := .kIntLiteral, intVal := 5 },
      token .kSemicolon ";"]
    Grammar.single tokens (.kSelect {
      columns := [{ func := .kCount, star := true }, { table := bytes "t", column := bytes "v" }]
      from_ := { name := bytes "s", alias_ := bytes "t" }
      limit := some 5 }) := by
  intro token tokens
  let last : Token := { type := .kEnd }
  have ends : Ends isEnd (tokens ++ [last]) := by
    repeat refine .more (by decide) ?_
    exact .one rfl
  obtain ⟨word, last', split, derives⟩ := ((parse_single_accepts ends).2 _).mp ⟨_, rfl⟩
  obtain ⟨same, -⟩ := List.append_inj' split rfl
  rw [same]
  exact derives

end Labdb.Sql
