import Labdb.Sql.Accepts
import Labdb.Sql.Printing

/-! A statement that was read is printed as text that is read as the same statement. -/

namespace Labdb.Sql

open Labdb.Data Labdb.Query Labdb.Data.Rule
open Grammar (word identifier columnRef literal literalOf)

variable {fromChars : Text → Double} {toChars : Double → Text}

section Separators

private theorem separates_comma : Separates fromChars (bytes ", ") (is .kComma) :=
  ⟨fun _ => opens_cons (by decide), fun later =>
    prints_symbol "," (fun _ => rfl) (by decide) (by decide) later⟩

private theorem separates_and : Separates fromChars (bytes " AND ") (is .kAnd) :=
  ⟨fun _ => opens_cons (by decide), fun later => prints_keyword "AND" (by decide) (by decide) later⟩

end Separators

section Literals

private theorem literal_notEnd (t : Token) (isLiteral : (literalOf t).isSome) : t.type ≠ .kEnd := by
  intro end_
  rw [literalOf, end_] at isLiteral
  cases isLiteral

private theorem prints_keywordLiteral {text : Text} {type : TokenType} {field : Field}
    (keyword : (text, type) ∈ keywords) (means : ∀ t : Token, t.type = type → literalOf t = some field) :
    Prints fromChars Clear text literal field := by
  refine prints_token literal_notEnd fun rest pos clear => ?_
  obtain ⟨t, pos', found, isType⟩ := reads_keyword keyword rest pos clear.names
  exact ⟨t, pos', found, means t isType⟩

private theorem prints_intText (value : Int64) :
    Prints fromChars Clear (intText value.toInt) literal (.ofInt64 value) := by
  obtain ⟨sign, whole, text_eq, isSign, isWhole, fits⟩ := intText_spec value
  rw [text_eq]
  refine prints_token literal_notEnd fun rest pos clear => ?_
  obtain ⟨t, pos', found, isType, value_eq⟩ := next_integer isSign isWhole fits clear.digits
    clear.noFraction
  exact ⟨t, pos', found, by rw [literalOf, isType, value_eq]⟩

theorem prints_quoted (text : Text) : Prints fromChars Clear (quoted text) literal (.ofText text) := by
  refine prints_token literal_notEnd fun rest pos clear => ?_
  obtain ⟨t, pos', found, isType, text_eq⟩ := next_string clear.strings
  exact ⟨t, pos', found, by rw [literalOf, isType, text_eq]⟩

private theorem IsInteger.noPoint {text : Text} (isInteger : IsInteger text) : dot ∉ text := by
  obtain ⟨sign, whole, rfl, isSign, isWhole⟩ := isInteger
  intro member
  rcases List.mem_append.mp member with inSign | inWhole
  · rcases isSign with rfl | rfl
    · cases inSign
    · revert inSign
      decide
  · exact (isDigit_facts (isWhole.digits dot inWhole)).2.2.2.1 rfl

/-- A point is printed where the digits have none. -/
theorem decimalText_spec (floats : FloatText toChars fromChars) {value : Double}
    (finite : value.exponent ≠ 2047) :
    IsDecimal (decimalText toChars value) ∧ fromChars (decimalText toChars value) = value := by
  have undoes := floats.undoes value finite
  unfold decimalText
  dsimp only
  rcases floats.digits value finite with isInteger | isDecimal
  · rw [if_neg isInteger.noPoint]
    exact ⟨⟨toChars value, bytes "0", rfl, isInteger, by decide +kernel, by decide +kernel⟩,
      (floats.fraction _ isInteger).trans undoes⟩
  · have point : dot ∈ toChars value := by
      obtain ⟨integer, fraction, text_eq, -⟩ := isDecimal
      rw [text_eq]
      exact List.mem_append_right _ List.mem_cons_self
    rw [if_pos point]
    exact ⟨isDecimal, undoes⟩

private theorem prints_decimalText (floats : FloatText toChars fromChars) {value : Double}
    (finite : value.exponent ≠ 2047) :
    Prints fromChars Clear (decimalText toChars value) literal (.ofDouble value) := by
  obtain ⟨isDecimal, value_eq⟩ := decimalText_spec floats finite
  refine prints_token literal_notEnd fun rest pos clear => ?_
  obtain ⟨t, pos', found, isType, float_eq⟩ := next_decimal isDecimal clear.digits
  exact ⟨t, pos', found, by rw [literalOf, isType, float_eq, value_eq]⟩

private theorem shows_literal (floats : FloatText toChars fromChars) :
    Shows fromChars literal (literalSql toChars) := by
  rintro _ field ⟨t, rfl, isLiteral⟩ readable
  have readable := readable t (List.mem_singleton_self t)
  unfold literalOf at isLiteral
  split at isLiteral
  · cases isLiteral
    exact prints_intText t.intVal
  · cases isLiteral
    exact prints_quoted t.text
  · rename_i isType
    cases isLiteral
    obtain ⟨text, isDecimal, value_eq⟩ := readable.decimal isType
    have finite := floats.finite text isDecimal
    rw [← value_eq] at finite
    exact prints_decimalText floats finite
  · cases isLiteral
    exact @prints_keywordLiteral fromChars (bytes "TRUE") .kTrue (.ofBool true) (by decide)
      fun t isType => by rw [literalOf, isType]
  · cases isLiteral
    exact @prints_keywordLiteral fromChars (bytes "FALSE") .kFalse (.ofBool false) (by decide)
      fun t isType => by rw [literalOf, isType]
  · cases isLiteral
    exact @prints_keywordLiteral fromChars (bytes "NULL") .kNull (.null .kInt64) (by decide)
      fun t isType => by rw [literalOf, isType]
  · cases isLiteral

end Literals

section Columns

private theorem shows_columnRef : Shows fromChars columnRef columnRefSql := by
  rintro _ ref ⟨front, _, first, rfl, isFirst, rest⟩ readable
  have name := identifier_name isFirst fun t member => readable t (List.mem_append_left _ member)
  rcases rest with ⟨_, _, t, rfl, isDot, used, _, column, rfl, isColumn, rfl, rfl⟩ | ⟨rfl, rfl⟩
  · have name' := identifier_name isColumn fun t member => readable t (by simp [member])
    have print_eq : columnRefSql { table := first, column } = first ++ (bytes "." ++ column) := by
      rw [columnRefSql, if_neg name.some_, List.append_assoc]
    rw [print_eq]
    refine (prints_identifier name).bind (Prints.one ?_) fun rest clear char here => ?_
    · refine prints_symbol "." (fun _ => rfl) (by decide) (by decide) fun _ => ?_
      exact ((prints_identifier name').mono fun rest clear => clear.names).map _
    · cases here
      decide
  · have print_eq : columnRefSql { column := first } = first ++ [] := by
      rw [List.append_nil]
      rfl
    rw [print_eq]
    exact (prints_identifier name).bind prints_pure.other fun rest clear => clear.names

/-- What is printed of the functions is what they are called. -/
theorem prints_functionName {func : AggFunc} (some_ : func ≠ .kNone) :
    Prints fromChars (Stops identCont) (aggName func) (token Grammar.functionName) func := by
  have name : IsName (aggName func) ∧ Grammar.aggFunc (aggName func) = some func := by
    cases func with
    | kNone => exact absurd rfl some_
    | _ => exact ⟨⟨⟨by decide +kernel, by decide +kernel⟩, by decide +kernel⟩, by decide +kernel⟩
  refine prints_token (fun t isName => ?_) fun rest pos stops => ?_
  · intro end_
    rw [Grammar.functionName, if_neg (by rw [is_iff, end_]; decide)] at isName
    cases isName
  · obtain ⟨t, pos', found, isType, text_eq⟩ := next_word name.1.1 stops
    refine ⟨t, pos', found, ?_⟩
    rw [Grammar.functionName, if_pos (is_iff.mpr (isType.trans name.1.2)), text_eq, name.2]

private theorem some_of_functionName {t : Token} {func : AggFunc}
    (isFunc : Grammar.functionName t = some func) : func ≠ .kNone := by
  rintro rfl
  have isFunc := (Option.ite_none_right_eq_some.mp isFunc).2
  unfold Grammar.aggFunc at isFunc
  repeat' split at isFunc
  all_goals cases isFunc

/-- What is printed between an aggregate's parentheses. -/
def argumentSql (v : SelectItem) : Text := if v.star then bytes "*" else columnRefSql v.toColumnRef

private theorem argument_func {func : AggFunc} {used : List Token} {v : SelectItem}
    (derives : Grammar.argument func used v) : v.func = func := by
  rcases derives with isStar | ⟨_, _, ref, rfl, -, rfl, rfl⟩
  · split at isStar
    · obtain ⟨_, _, _, rfl, -, rfl, rfl⟩ := isStar
      rfl
    · cases isStar
  · rfl

theorem shows_argument (func : AggFunc) : Shows fromChars (Grammar.argument func) argumentSql := by
  rintro _ v (isStar | ⟨used, _, ref, rfl, isRef, rfl, rfl⟩) readable
  · split at isStar
    · rename_i isCount
      obtain ⟨_, _, _, rfl, -, rfl, rfl⟩ := isStar
      unfold Grammar.argument
      rw [if_pos isCount]
      have print_eq : argumentSql { func, star := true } = bytes "*" ++ [] := rfl
      rw [print_eq]
      exact (prints_symbol "*" (fun _ => rfl) (by decide) (by decide) fun _ => prints_pure).one
    · cases isStar
  · exact ((shows_columnRef used ref isRef fun t member =>
      readable t (List.mem_append_left _ member)).map _).other

private theorem shows_value : Shows fromChars Grammar.value valueSql := by
  rintro _ v (⟨_, _, func, rfl, ⟨t, rfl, isFunc⟩, _, _, opens, rfl, isOpen, inside, _, _, rfl,
    isArgument, _, _, closes, rfl, isClose, rfl, rfl⟩ | ⟨used, _, ref, rfl, isRef, rfl, rfl⟩) readable
  · have isSome := some_of_functionName isFunc
    have func_eq := argument_func isArgument
    have prints := shows_argument func inside v isArgument fun t member => readable t (by simp [member])
    have print_eq : valueSql v = aggName func ++ (bytes "(" ++ (argumentSql v ++ (bytes ")" ++ []))) := by
      rw [valueSql, if_neg (by rwa [func_eq]), func_eq, List.append_nil, List.append_assoc,
        List.append_assoc]
      rfl
    rw [print_eq]
    refine ((prints_functionName isSome).bind ?_ ?_).one
    · refine prints_symbol "(" (fun _ => rfl) (by decide) (by decide) fun _ => ?_
      refine prints.bind ?_ (opens_cons (by decide))
      exact prints_symbol ")" (fun _ => rfl) (by decide) (by decide) fun _ => prints_pure
    · intro rest clear char here
      cases here
      decide
  · exact ((shows_columnRef used ref isRef fun t member =>
      readable t (List.mem_append_left _ member)).map _).other

/-- An operator before a space. -/
theorem prints_op {op : TokenType} (isOp : op.IsOp = true) :
    Prints fromChars (fun rest => rest.head? = some space) (opSymbol op) Grammar.op op := by
  refine prints_token (fun t isSome => ?_) fun rest pos spaced => ?_
  · intro end_
    rw [end_] at isSome
    cases isSome
  · obtain ⟨after, rfl⟩ : ∃ after, rest = space :: after := by
      cases rest with
      | nil => cases spaced
      | cons char after => exact ⟨after, by cases spaced; rfl⟩
    have first : operators.find? (fun entry => entry.1.isPrefixOf (opSymbol op ++ space :: after)) =
        some (opSymbol op, op) := by
      cases op with
      | kEq | kNe | kLt | kLe | kGt | kGe => rfl
      | _ => cases isOp
    obtain ⟨t, pos', found, isType⟩ := next_symbol first
    exact ⟨t, pos', found, by rw [isType, if_pos isOp]⟩

private theorem shows_comparison (floats : FloatText toChars fromChars) :
    Shows fromChars Grammar.comparison (comparisonSql toChars) := by
  rintro _ c ⟨front, _, left, rfl, isLeft, _, back, op, rfl, ⟨t, rfl, isOp⟩, right⟩ readable
  have left_prints := shows_value front left isLeft fun t member => readable t (by simp [member])
  obtain ⟨passes, same⟩ := Option.ite_none_right_eq_some.mp isOp
  cases same
  have prints_with : ∀ {text : Text}, Prints fromChars Clear text (either
        (do
          let right ← columnRef
          pure { left, op := t.type, right := some right })
        (do
          let literal ← literal
          pure { left, op := t.type, literal })) c →
      Prints fromChars Clear (valueSql left ++ (space :: opSymbol t.type ++ (space :: text)))
        Grammar.comparison c := by
    intro text prints
    refine left_prints.bind ?_ fun _ _ => clear_cons (by decide)
    exact (prints_op passes).spaced.bind prints.spaced fun rest _ => rfl
  have print_eq : ∀ text, valueSql left ++ bytes " " ++ opSymbol t.type ++ bytes " " ++ text =
      valueSql left ++ (space :: opSymbol t.type ++ (space :: text)) := by
    intro text
    simp [bytes, space]
  rcases right with ⟨used, _, ref, rfl, isRef, rfl, rfl⟩ | ⟨used, _, field, rfl, isLiteral, rfl, rfl⟩
  · have prints := shows_columnRef used ref isRef fun t member => readable t (by simp [member])
    change Prints fromChars Clear (valueSql left ++ bytes " " ++ opSymbol t.type ++ bytes " " ++
      columnRefSql ref) _ _
    rw [print_eq]
    exact prints_with (prints.map _).one
  · have prints := shows_literal floats used field isLiteral fun t member => readable t (by simp [member])
    change Prints fromChars Clear (valueSql left ++ bytes " " ++ opSymbol t.type ++ bytes " " ++
      literalSql toChars field) _ _
    rw [print_eq]
    exact prints_with (prints.map _).other

private theorem shows_condition (floats : FloatText toChars fromChars) :
    Shows fromChars Grammar.condition (conditionSql toChars) :=
  shows_separated separates_and (shows_comparison floats)

end Columns

section Items

theorem prints_name {text : Text} (name : IsName text) : Prints fromChars Clear text identifier text :=
  (prints_identifier name).mono fun _ clear => clear.names

private theorem shows_tableRef : Shows fromChars Grammar.tableRef tableRefSql := by
  rintro _ table ⟨front, _, name, rfl, isTable, rest⟩ readable
  have name_ := identifier_name isTable fun t member => readable t (List.mem_append_left _ member)
  have aliased : ∀ {alias_ : Text}, IsName alias_ → Prints fromChars Clear
      (tableRefSql { name, alias_ }) Grammar.tableRef { name, alias_ } := by
    intro alias_ aliasName
    rw [tableRefSql, if_neg aliasName.some_, List.append_assoc]
    refine (prints_name name_).bind (Prints.other ?_) fun _ _ => clear_cons (by decide)
    exact (Prints.one ((prints_name aliasName).map _)).spaced
  rcases rest with ⟨_, _, _, rfl, -, used, _, alias_, rfl, isAlias, rfl, rfl⟩ |
      ⟨used, _, alias_, rfl, isAlias, rfl, rfl⟩ | ⟨rfl, rfl⟩
  · exact aliased (identifier_name isAlias fun t member => readable t (by simp [member]))
  · exact aliased (identifier_name isAlias fun t member => readable t (by simp [member]))
  · have print_eq : tableRefSql { name } = name ++ [] := by
      rw [List.append_nil]
      rfl
    rw [print_eq]
    exact (prints_name name_).bind prints_pure.other.other fun _ => id

private theorem shows_join (floats : FloatText toChars fromChars) :
    Shows fromChars Grammar.join (joinClauseSql toChars) := by
  rintro _ join ⟨_, _, _, rfl, -, _, _, _, rfl, -, used, _, table, rfl, isTable, _, _, _, rfl, -,
    used', _, on, rfl, isOn, rfl, rfl⟩ readable
  have prints := shows_tableRef used table isTable fun t member => readable t (by simp [member])
  have prints' := shows_condition floats used' on isOn fun t member => readable t (by simp [member])
  have print_eq : joinClauseSql toChars { table, on } =
      [] ++ (bytes " JOIN " ++ (tableRefSql table ++ (bytes " ON " ++ conditionSql toChars on))) := by
    rw [joinClauseSql, List.nil_append, List.append_assoc, List.append_assoc]
  rw [print_eq]
  refine (Prints.other prints_pure).bind ?_ fun _ _ => clear_cons (by decide)
  refine prints_keyword "JOIN" (by decide) (by decide) fun _ => ?_
  refine prints.bind ?_ fun _ _ => clear_cons (by decide)
  exact prints_keyword "ON" (by decide) (by decide) fun _ => prints'.map _

private theorem argument_alias {func : AggFunc} {used : List Token} {v : SelectItem}
    (derives : Grammar.argument func used v) : v.alias_ = [] := by
  rcases derives with isStar | ⟨_, _, ref, rfl, -, rfl, rfl⟩
  · split at isStar
    · obtain ⟨_, _, _, rfl, -, rfl, rfl⟩ := isStar
      rfl
    · cases isStar
  · rfl

private theorem value_alias {used : List Token} {v : SelectItem} (derives : Grammar.value used v) :
    v.alias_ = [] := by
  rcases derives with ⟨_, _, func, rfl, -, _, _, _, rfl, -, _, _, _, rfl, isArgument, _, _, _, rfl,
    -, rfl, rfl⟩ | ⟨_, _, _, rfl, -, rfl, rfl⟩
  · exact argument_alias isArgument
  · rfl

private theorem shows_item : Shows fromChars Grammar.item selectItemSql := by
  rintro _ v ⟨used, _, value, rfl, isValue, rest⟩ readable
  have prints := shows_value used value isValue fun t member => readable t (by simp [member])
  rcases rest with ⟨_, _, _, rfl, -, used', _, alias_, rfl, isAlias, rfl, rfl⟩ | ⟨rfl, rfl⟩
  · have name := identifier_name isAlias fun t member => readable t (by simp [member])
    have print_eq : selectItemSql { value with alias_ } = valueSql value ++ (bytes " AS " ++ alias_) := by
      rw [selectItemSql, if_neg name.some_]
      rfl
    rw [print_eq]
    refine prints.bind (Prints.one ?_) fun _ _ => clear_cons (by decide)
    exact prints_keyword "AS" (by decide) (by decide) fun _ => (prints_name name).map _
  · have print_eq : selectItemSql v = valueSql v ++ [] := by
      rw [selectItemSql, if_pos (value_alias isValue)]
    rw [print_eq]
    exact prints.bind prints_pure.other fun _ => id

private theorem shows_orderItem : Shows fromChars Grammar.orderItem orderItemSql := by
  rintro _ item ⟨used, _, value, rfl, isValue, rest⟩ readable
  have prints := shows_value used value isValue fun t member => readable t (by simp [member])
  have ascending : Prints fromChars Clear (valueSql value ++ []) Grammar.orderItem { value } :=
    prints.bind prints_pure.other.other fun _ => id
  rcases rest with ⟨_, _, _, rfl, -, rfl, rfl⟩ | ⟨_, _, _, rfl, -, rfl, rfl⟩ | ⟨rfl, rfl⟩
  · exact ascending
  · have print_eq : orderItemSql { value, desc := true } =
        valueSql value ++ (space :: bytes "DESC" ++ []) := rfl
    rw [print_eq]
    refine prints.bind (Prints.other (Prints.one (Prints.spaced ?_))) fun _ _ => clear_cons (by decide)
    exact prints_word (reads_keyword (by decide)) (by decide) (fun _ => prints_pure)
      fun _ clear => clear.names
  · exact ascending

theorem prints_columnType {t : Token} {type : ColType} (isType : Grammar.columnType t = some type) :
    Prints fromChars Clear (typeKeyword type) (token Grammar.columnType) type := by
  obtain ⟨keyword, isKeyword, means⟩ : ∃ keyword, (typeKeyword type, keyword) ∈ keywords ∧
      ∀ t : Token, t.type = keyword → Grammar.columnType t = some type := by
    have means : ∀ t' : Token, t'.type = t.type → Grammar.columnType t' = some type := by
      intro t' same
      rw [← isType, Grammar.columnType, Grammar.columnType, same]
    refine ⟨t.type, ?_, means⟩
    clear means
    unfold Grammar.columnType at isType
    split at isType
    all_goals
      rename_i type_eq
      cases isType
      try rw [type_eq]
      try decide
  refine prints_token (fun t isSome end_ => ?_) fun rest pos clear => ?_
  · rw [Grammar.columnType, end_] at isSome
    cases isSome
  · obtain ⟨t, pos', found, type_eq⟩ := reads_keyword isKeyword rest pos clear.names
    exact ⟨t, pos', found, means t type_eq⟩

private theorem shows_columnDef : Shows fromChars Grammar.columnDef columnSql := by
  rintro _ column ⟨used, _, name, rfl, isName, _, _, type, rfl, ⟨t, rfl, isType⟩, rest⟩ readable
  have name_ := identifier_name isName fun t member => readable t (by simp [member])
  have nullable : Prints fromChars Clear (name ++ (space :: typeKeyword type ++ []))
      Grammar.columnDef { name, type } := by
    refine (prints_name name_).bind ?_ fun _ _ => clear_cons (by decide)
    exact (prints_columnType isType).spaced.bind prints_pure.other.other fun _ => id
  have print_eq : columnSql { name, type } = name ++ (space :: typeKeyword type ++ []) := by
    simp [columnSql, bytes, space]
  rcases rest with ⟨_, _, _, rfl, -, _, _, _, rfl, -, rfl, rfl⟩ | ⟨_, _, _, rfl, -, rfl, rfl⟩ |
      ⟨rfl, rfl⟩
  · have print_eq : columnSql { name, type, nullable := false } =
        name ++ (space :: typeKeyword type ++ (bytes " NOT " ++ (bytes "NULL" ++ []))) := by
      simp [columnSql, bytes, space]
    rw [print_eq]
    refine (prints_name name_).bind ?_ fun _ _ => clear_cons (by decide)
    refine (prints_columnType isType).spaced.bind (Prints.one ?_) fun _ _ => clear_cons (by decide)
    refine prints_keyword "NOT" (by decide) (by decide) fun _ => ?_
    exact prints_word (reads_keyword (by decide)) (by decide) (fun _ => prints_pure)
      fun _ clear => clear.names
  · exact print_eq ▸ nullable
  · exact print_eq ▸ nullable

end Items

section Clauses

variable {α : Type} {rule : Rule Token (List α)} {item : Rule Token α} {print : α → Text}
  {between : Text}

theorem opens_clause {keyword : Text} {texts : List Text} (opens : ∀ rest, Clear (keyword ++ rest)) :
    Opens (clause keyword between texts) := by
  intro rest clear
  unfold clause
  split
  · exact clear
  · rw [List.append_assoc]
    exact opens _

/-- A clause is printed where the list is not empty, which it is not in one that was read. -/
theorem shows_clause (name : String) {keyword : Text} {type : TokenType}
    (isKeyword : (bytes name, type) ∈ keywords) (spaced : keyword = space :: bytes name ++ [space])
    (shows_ : Shows fromChars rule fun all => joined between (all.map print))
    (some_ : ∀ used all, rule used all → all ≠ []) :
    Shows fromChars (Grammar.clause type rule) fun all => clause keyword between (all.map print) := by
  rintro _ all (⟨_, used, _, rfl, -, derives⟩ | ⟨rfl, rfl⟩) readable
  · have isSome : all.map print ≠ [] := by simpa using some_ used all derives
    have prints := shows_ used all derives fun t member => readable t (by simp [member])
    change Prints fromChars Clear (clause keyword between (all.map print)) _ _
    rw [clause, if_neg isSome]
    exact (prints_keyword name isKeyword (.inr spaced) fun _ => prints).one
  · exact prints_pure.other

private theorem separated_some {test : Token → Bool} {used : List Token} {all : List α}
    (derives : separated test item used all) : all ≠ [] := by
  obtain ⟨_, _, first, rfl, -, _, _, rest, rfl, -, rfl, rfl⟩ := derives
  exact List.cons_ne_nil _ _

/-- A list after BY, which is printed with the keyword before it. -/
theorem shows_byClause (name : String) {keyword : Text} {type : TokenType}
    (isKeyword : (bytes name, type) ∈ keywords)
    (spaced : keyword = space :: bytes name ++ [space] ++ bytes "BY ")
    (shows_ : Shows fromChars item print) :
    Shows fromChars (Grammar.clause type (Grammar.byList item)) fun all =>
      clause keyword (bytes ", ") (all.map print) := by
  have shows_list := shows_separated separates_comma shows_
  rintro _ all (⟨_, _, _, rfl, -, _, used, _, rfl, -, derives⟩ | ⟨rfl, rfl⟩) readable
  · have isSome : all.map print ≠ [] := by simpa using separated_some derives
    have prints := shows_list used all derives fun t member => readable t (by simp [member])
    change Prints fromChars Clear (clause keyword (bytes ", ") (all.map print)) _ _
    rw [clause, if_neg isSome, spaced, List.append_assoc]
    refine (prints_keyword name isKeyword (.inr rfl) fun _ => ?_).one
    exact prints_keyword "BY" (by decide) (by decide) fun _ => prints
  · exact prints_pure.other

end Clauses

section Statements

def limitSql : Option Int64 → Text
  | some limit => bytes " LIMIT " ++ intText limit.toInt
  | none => []

private theorem shows_limit : Shows fromChars Grammar.limit limitSql := by
  rintro _ limit (⟨_, _, _, rfl, -, _, _, count, rfl, ⟨t, rfl, isCount⟩, rfl, rfl⟩ | ⟨rfl, rfl⟩) readable
  · obtain ⟨⟨-, positive⟩, same⟩ := Option.ite_none_right_eq_some.mp isCount
    cases same
    refine (prints_keyword "LIMIT" (by decide) (by decide) fun _ => Prints.map ?_ _).one
    obtain ⟨sign, whole, text_eq, isSign, isWhole, fits⟩ := intText_spec t.intVal
    rw [text_eq]
    refine prints_token (fun t isSome end_ => ?_) fun rest pos clear => ?_
    · rw [if_neg fun ⟨isInt, _⟩ => by rw [is_iff, end_] at isInt; cases isInt] at isSome
      cases isSome
    · obtain ⟨t', pos', found, isType, value_eq⟩ := next_integer isSign isWhole fits clear.digits
        clear.noFraction
      exact ⟨t', pos', found, by rw [value_eq, if_pos ⟨is_iff.mpr isType, positive⟩]⟩
  · exact prints_pure.other

def selectListSql (list : Bool × List SelectItem) : Text :=
  if list.1 then bytes "*" else joined (bytes ", ") (list.2.map selectItemSql)

private theorem shows_selectList : Shows fromChars Grammar.selectList selectListSql := by
  rintro _ list (⟨_, _, _, rfl, -, rfl, rfl⟩ | ⟨used, _, items, rfl, isItems, rfl, rfl⟩) readable
  · have print_eq : selectListSql (true, []) = bytes "*" ++ [] := rfl
    rw [print_eq]
    exact (prints_symbol "*" (fun _ => rfl) (by decide) (by decide) fun _ => prints_pure).one
  · have prints := shows_separated separates_comma shows_item used items isItems fun t member =>
      readable t (by simp [member])
    exact (prints.map _).other

private theorem opens_limit (limit : Option Int64) : Opens (limitSql limit) := by
  cases limit with
  | none => exact opens_nil
  | some _ => exact opens_cons (by decide)

private theorem shows_select (floats : FloatText toChars fromChars) :
    Shows fromChars Grammar.select (unparse toChars) := by
  rintro _ s ⟨_, _, _, rfl, -, used₁, _, ⟨star, columns⟩, rfl, isList, _, _, _, rfl, -,
    used₂, _, from_, rfl, isFrom, used₃, _, joins, rfl, isJoins, used₄, _, where_, rfl, isWhere,
    used₅, _, groupBy, rfl, isGroup, used₆, _, having, rfl, isHaving,
    used₇, _, orderBy, rfl, isOrder, used₈, _, limit, rfl, isLimit, rfl, rfl⟩ readable
  have list := shows_selectList used₁ _ isList fun t member => readable t (by simp [member])
  have table := shows_tableRef used₂ from_ isFrom fun t member => readable t (by simp [member])
  have opens_join : ∀ join, Opens (joinClauseSql toChars join) := fun _ => opens_cons (by decide)
  have join := shows_repeated (shows_join floats) opens_join used₃ joins isJoins fun t member =>
    readable t (by simp [member])
  have condition_some : ∀ used all, Grammar.condition used all → all ≠ [] := fun _ _ => separated_some
  have filters := shows_clause "WHERE" (by decide) rfl (shows_condition floats) condition_some used₄
    where_ isWhere fun t member => readable t (by simp [member])
  have groups := shows_byClause "GROUP" (by decide) rfl shows_columnRef used₅ groupBy isGroup
    fun t member => readable t (by simp [member])
  have having_ := shows_clause "HAVING" (by decide) rfl (shows_condition floats) condition_some used₆
    having isHaving fun t member => readable t (by simp [member])
  have order := shows_byClause "ORDER" (by decide) rfl shows_orderItem used₇ orderBy isOrder
    fun t member => readable t (by simp [member])
  have limits := shows_limit used₈ limit isLimit fun t member => readable t (by simp [member])
  have opens₈ := opens_limit limit
  have opens₇ : Opens (clause (bytes " ORDER BY ") (bytes ", ") (orderBy.map orderItemSql) ++
      limitSql limit) := opens_append (opens_clause fun _ => clear_cons (by decide)) opens₈
  have opens₆ := opens_append (@opens_clause (bytes " AND ") (bytes " HAVING ")
    (having.map (comparisonSql toChars)) fun _ => clear_cons (by decide)) opens₇
  have opens₅ := opens_append (@opens_clause (bytes ", ") (bytes " GROUP BY ")
    (groupBy.map columnRefSql) fun _ => clear_cons (by decide)) opens₆
  have opens₄ := opens_append (@opens_clause (bytes " AND ") (bytes " WHERE ")
    (where_.map (comparisonSql toChars)) fun _ => clear_cons (by decide)) opens₅
  have opens₃ := opens_append (opens_flatMap opens_join joins) opens₄
  have print_eq : unparse toChars (.kSelect
      { star, columns, from_, joins, where_, groupBy, having, orderBy, limit }) =
      bytes "SELECT " ++ (selectListSql (star, columns) ++ (bytes " FROM " ++ (tableRefSql from_ ++
        (joins.flatMap (joinClauseSql toChars) ++
        (clause (bytes " WHERE ") (bytes " AND ") (where_.map (comparisonSql toChars)) ++
        (clause (bytes " GROUP BY ") (bytes ", ") (groupBy.map columnRefSql) ++
        (clause (bytes " HAVING ") (bytes " AND ") (having.map (comparisonSql toChars)) ++
        (clause (bytes " ORDER BY ") (bytes ", ") (orderBy.map orderItemSql) ++
          limitSql limit)))))))) := by
    simp only [unparse, selectSql, selectListSql, List.append_assoc]
    rfl
  rw [print_eq]
  refine prints_keyword "SELECT" (by decide) (by decide) fun _ => ?_
  refine list.bind ?_ fun _ _ => clear_cons (by decide)
  refine prints_keyword "FROM" (by decide) (by decide) fun _ => ?_
  refine table.bind ?_ opens₃
  refine join.bind ?_ opens₄
  refine filters.bind ?_ opens₅
  refine groups.bind ?_ opens₆
  refine having_.bind ?_ opens₇
  exact order.bind (limits.map _) opens₈

private theorem shows_parenthesized {α : Type} {rule : Rule Token α} {text before : Text} {a : α}
    (spaced : before = bytes "(" ∨ before = space :: bytes "(" ∨ before = bytes "(" ++ [space])
    (prints : Prints fromChars Clear text rule a) :
    Prints fromChars Clear (before ++ (text ++ bytes ")")) (Grammar.parenthesized rule) a := by
  refine prints_symbol "(" (fun _ => rfl) (by decide) spaced fun _ => ?_
  refine prints.bind ?_ fun _ _ => clear_cons (by decide)
  rw [← List.append_nil (bytes ")")]
  exact prints_symbol ")" (fun _ => rfl) (by decide) (by decide) fun _ => prints_pure

private theorem shows_create : Shows fromChars Grammar.create (unparse toChars) := by
  rintro _ s ⟨_, _, _, rfl, -, ⟨_, _, _, rfl, -, _, _, _, rfl, -, used, _, table, rfl, isTable, _, _,
      column, rfl, ⟨_, _, _, rfl, -, used', _, _, rfl, isColumn, _, _, _, rfl, -, rfl, rfl⟩, rfl, rfl⟩ |
    ⟨_, _, _, rfl, -, used, _, table, rfl, isTable, _, _, columns, rfl,
      ⟨_, _, _, rfl, -, used', _, _, rfl, isColumns, _, _, _, rfl, -, rfl, rfl⟩, rfl, rfl⟩⟩ readable
  · have table_ := identifier_name isTable fun t member => readable t (by simp [member])
    have column_ := identifier_name isColumn fun t member => readable t (by simp [member])
    have print_eq : unparse toChars (.kCreateIndex { table, column }) = bytes "CREATE " ++
        (bytes "INDEX " ++ (bytes "ON " ++ (table ++ (bytes " (" ++ (column ++ bytes ")"))))) := by
      simp only [unparse, List.append_assoc]
      rfl
    rw [print_eq]
    refine prints_keyword "CREATE" (by decide) (by decide) fun _ => Prints.one ?_
    refine prints_keyword "INDEX" (by decide) (by decide) fun _ => ?_
    refine prints_keyword "ON" (by decide) (by decide) fun _ => ?_
    refine (prints_name table_).bind ?_ fun _ _ => clear_cons (by decide)
    exact (shows_parenthesized (by decide) (prints_name column_)).map _
  · have table_ := identifier_name isTable fun t member => readable t (by simp [member])
    have prints := shows_separated separates_comma shows_columnDef used' columns isColumns
      fun t member => readable t (by simp [member])
    have print_eq : unparse toChars (.kCreate { table, schema := { columns } }) = bytes "CREATE " ++
        (bytes "TABLE " ++ (table ++ (bytes " (" ++ (joined (bytes ", ") (columns.map columnSql) ++
          bytes ")")))) := by
      simp only [unparse, List.append_assoc]
      rfl
    rw [print_eq]
    refine prints_keyword "CREATE" (by decide) (by decide) fun _ => Prints.other ?_
    refine prints_keyword "TABLE" (by decide) (by decide) fun _ => ?_
    refine (prints_name table_).bind ?_ fun _ _ => clear_cons (by decide)
    exact (shows_parenthesized (by decide) prints).map _

private theorem shows_insert (floats : FloatText toChars fromChars) :
    Shows fromChars Grammar.insert (unparse toChars) := by
  rintro _ s ⟨_, _, _, rfl, -, _, _, _, rfl, -, used, _, table, rfl, isTable, _, _, _, rfl, -, _, _,
    values, rfl, ⟨_, _, _, rfl, -, used', _, _, rfl, isValues, _, _, _, rfl, -, rfl, rfl⟩, rfl, rfl⟩
    readable
  have table_ := identifier_name isTable fun t member => readable t (by simp [member])
  have prints := shows_separated separates_comma (shows_literal floats) used' values isValues
    fun t member => readable t (by simp [member])
  have print_eq : unparse toChars (.kInsert { table, values }) = bytes "INSERT " ++
      (bytes "INTO " ++ (table ++ (bytes " VALUES " ++ (bytes "(" ++
        (joined (bytes ", ") (values.map (literalSql toChars)) ++ bytes ")"))))) := by
    simp only [unparse, List.append_assoc]
    rfl
  rw [print_eq]
  refine prints_keyword "INSERT" (by decide) (by decide) fun _ => ?_
  refine prints_keyword "INTO" (by decide) (by decide) fun _ => ?_
  refine (prints_name table_).bind ?_ fun _ _ => clear_cons (by decide)
  refine prints_keyword "VALUES" (by decide) (by decide) fun _ => ?_
  exact (shows_parenthesized (by decide) prints).map _

private theorem shows_bound : Shows fromChars (token Grammar.boundOf) (unparse toChars) := by
  rintro _ s ⟨t, rfl, isBound⟩ -
  have means : ∀ t' : Token, t'.type = t.type → Grammar.boundOf t' = some s := by
    intro t' same
    rw [← isBound, Grammar.boundOf, Grammar.boundOf, same]
  have isKeyword : (unparse toChars s, t.type) ∈ keywords := by
    clear means
    unfold Grammar.boundOf at isBound
    split at isBound
    all_goals
      rename_i type_eq
      cases isBound
      try rw [type_eq]
      try exact (by decide : (bytes "BEGIN", TokenType.kBegin) ∈ keywords)
      try exact (by decide : (bytes "COMMIT", TokenType.kCommit) ∈ keywords)
      try exact (by decide : (bytes "ROLLBACK", TokenType.kRollback) ∈ keywords)
  refine prints_token (fun t isSome end_ => ?_) fun rest pos clear => ?_
  · rw [Grammar.boundOf, end_] at isSome
    cases isSome
  · obtain ⟨t', pos', found, isType⟩ := reads_keyword isKeyword rest pos clear.names
    exact ⟨t', pos', found, means t' isType⟩

private theorem shows_statement (floats : FloatText toChars fromChars) :
    Shows fromChars Grammar.statement (unparse toChars) := by
  rintro used s (isCreate | isInsert | isSelect | isBound) readable
  · exact (shows_create used s isCreate readable).one
  · exact (shows_insert floats used s isInsert readable).one.other
  · exact (shows_select floats used s isSelect readable).one.other.other
  · exact (shows_bound used s isBound readable).other.other.other

private theorem shows_single (floats : FloatText toChars fromChars) :
    Shows fromChars Grammar.single (unparse toChars) := by
  rintro _ s ⟨used, _, s', rfl, derives, _, _, _, rfl, -, rfl, rfl⟩ readable
  have prints := shows_statement floats used s derives fun t member => readable t (by simp [member])
  have printed : Prints fromChars Clear (unparse toChars s ++ ([] ++ [])) Grammar.single s := by
    refine prints.bind ?_ fun _ => id
    exact (Prints.other prints_pure).bind prints_pure fun _ => id
  rwa [List.append_nil, List.append_nil] at printed

private theorem parseSource_ok {source : Text} {s : Statement} :
    parseSource fromChars source = some (.ok s) ↔ ∃ tokens rest,
      Lexes fromChars source {} tokens ∧ parseSingle tokens = some (.ok s, rest) := by
  constructor
  · intro accepted
    unfold parseSource at accepted
    split at accepted
    · cases accepted
    · cases accepted
    · rename_i tokens isLexed
      split at accepted
      · cases accepted
      · cases accepted
      · rename_i s' rest parsed
        cases accepted
        exact ⟨tokens, rest, tokenize_iff.mp isLexed, parsed⟩
  · rintro ⟨tokens, rest, lexes, parsed⟩
    rw [parseSource, tokenize_iff.mpr lexes]
    dsimp only
    rw [parsed]

end Statements

/-- A statement that was read from some text is printed as text that is read as the same
statement. -/
theorem unparse_parses (floats : FloatText toChars fromChars) {source : Text} {s : Statement}
    (accepted : parseSource fromChars source = some (.ok s)) :
    parseSource fromChars (unparse toChars s) = some (.ok s) := by
  obtain ⟨tokens, rest, lexes, parsed⟩ := parseSource_ok.mp accepted
  have ends := lexes.ends
  obtain ⟨word, last, rfl, derives⟩ := derives_of_parseSingle ends parsed
  have readable : ∀ t ∈ word, Readable fromChars t := fun t member =>
    lexes.readable t (List.mem_append_left _ member) (ends.front rfl t member)
  obtain ⟨word', pos', derives', reads⟩ := shows_single floats word s derives readable [] {} clear_nil
  have end_ : next fromChars [] pos' = .ok ⟨{ line := pos'.line, col := pos'.col }, [], pos'⟩ := rfl
  have lexes' := reads _ (.done end_ rfl)
  rw [List.append_nil] at lexes'
  exact parseSource_ok.mpr ⟨_, _, lexes', parseSingle_of_derives derives' rfl⟩

section Sample

/-- A library that knows one decimal, and else takes numbers for their bits. -/
def sampleFromChars (text : Text) : Double :=
  if text = bytes "2.5" then ⟨0x4004000000000000⟩
  else
    let value : Double := ⟨.ofNat 64 (digitsValue (text.takeWhile isDigit))⟩
    if value.exponent = 2047 then ⟨0⟩ else value

def sampleToChars (value : Double) : Text :=
  if value = ⟨0x4004000000000000⟩ then bytes "2.5" else digitsText value.bits.toNat

private theorem sample_floatText : FloatText sampleToChars sampleFromChars := by
  have noPoint : ∀ text, dot ∉ text → text ≠ bytes "2.5" := by
    rintro _ none_ rfl
    exact none_ (by decide)
  have isInteger : ∀ value, IsInteger (digitsText value) := fun value =>
    ⟨[], _, rfl, .inl rfl, digitsText_isDigits value⟩
  refine ⟨fun text _ => ?_, fun value _ => ?_, fun value finite => ?_, fun text integer => ?_⟩
  · unfold sampleFromChars
    split
    · decide
    · dsimp only
      split
      · decide
      · assumption
  · unfold sampleToChars
    split
    · have isWhole : IsDigits (bytes "2") := ⟨by decide +kernel, by decide +kernel⟩
      have isFraction : IsDigits (bytes "5") := ⟨by decide +kernel, by decide +kernel⟩
      exact .inr ⟨bytes "2", bytes "5", rfl, ⟨[], bytes "2", rfl, .inl rfl, isWhole⟩, isFraction⟩
    · exact .inl (isInteger _)
  · unfold sampleToChars
    split
    · rename_i same
      rw [same]
      rfl
    · have all := (digitsText_isDigits value.bits.toNat).digits
      rw [sampleFromChars, if_neg (noPoint _ (isInteger _).noPoint), List.takeWhile_eq_self_iff.mpr all,
        digitsValue_digitsText, BitVec.ofNat_toNat, BitVec.setWidth_eq]
      exact if_neg finite
  · have other : text ++ bytes ".0" ≠ bytes "2.5" := by
      intro same
      have last := congrArg List.getLast? same
      rw [List.getLast?_append] at last
      cases last
    have same : (text ++ bytes ".0").takeWhile isDigit = text.takeWhile isDigit := by
      obtain ⟨sign, whole, rfl, rfl | rfl, isWhole⟩ := integer
      · have stops : Stops isDigit (bytes ".0") := by
          intro char here
          cases here
          decide
        rw [List.nil_append, (span_append isWhole.digits stops).1,
          List.takeWhile_eq_self_iff.mpr isWhole.digits]
      · rfl
    rw [sampleFromChars, sampleFromChars, if_neg other, if_neg (noPoint _ integer.noPoint), same]

end Sample

/-- The optional words and the semicolon are not printed, and the rest is as it was. -/
theorem unparse_parses_join :
    let column := fun table column => ({ table := bytes table, column := bytes column } : ColumnRef)
    let s : Statement := .kSelect {
      columns := [{ toColumnRef := column "x" "a", alias_ := bytes "b" }, { func := .kCount, star := true }]
      from_ := { name := bytes "t", alias_ := bytes "x" }
      joins := [{
        table := { name := bytes "u" }
        on := [{ left := { toColumnRef := column "x" "k" }, right := some (column "u" "k") }] }]
      where_ := [{ left := { toColumnRef := column "" "s" }, literal := .ofText (bytes "O'Brien") },
        { left := { toColumnRef := column "" "a" }, op := .kGt, literal := .ofDouble ⟨0x4004000000000000⟩ }]
      limit := some 3 }
    unparse sampleToChars s = bytes
        "SELECT x.a AS b, COUNT(*) FROM t x JOIN u ON x.k = u.k WHERE s = 'O''Brien' AND a > 2.5 LIMIT 3" ∧
      parseSource sampleFromChars (unparse sampleToChars s) = some (.ok s) := by
  intro column s
  have accepted : parseSource sampleFromChars (bytes
      "select x.a AS b, Count ( * ) from t as x inner join u on x.k=u.k where s='O''Brien' and a>2.5 limit 3;") =
      some (.ok s) := by
    decide +kernel
  exact ⟨by decide +kernel, unparse_parses sample_floatText accepted⟩

end Labdb.Sql
