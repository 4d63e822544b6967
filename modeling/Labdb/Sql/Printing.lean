import Labdb.Sql.Grammar
import Labdb.Sql.Lexing
import Mathlib.Data.Nat.Digits.Lemmas

/-! What printed text is read as: a text prints a rule where the lexer makes of it a word
that the rule derives, and then goes on with whatever follows. -/

namespace Labdb.Sql

open Labdb.Data Labdb.Query Labdb.Data.Rule
open Grammar (word identifier)

/-- What the C++ library promises of decimals: `from_chars` leaves a finite number, which is
zero where the decimal is out of range; `to_chars` prints a finite number in digits, which
`from_chars` undoes; and a fraction of zero changes nothing. -/
structure FloatText (toChars : Double → Text) (fromChars : Text → Double) : Prop where
  finite : ∀ text, IsDecimal text → (fromChars text).exponent ≠ 2047
  digits : ∀ value : Double, value.exponent ≠ 2047 →
    IsInteger (toChars value) ∨ IsDecimal (toChars value)
  undoes : ∀ value : Double, value.exponent ≠ 2047 → fromChars (toChars value) = value
  fraction : ∀ text, IsInteger text → fromChars (text ++ bytes ".0") = fromChars text

section Numbers

theorem toNat_digit {digit : Nat} (small : digit < 10) : ((48 + digit).toUInt8).toNat = 48 + digit := by
  rw [Nat.toUInt8, UInt8.toNat_ofNat']
  omega

theorem isDigit_digit {digit : Nat} (small : digit < 10) : isDigit (48 + digit).toUInt8 = true := by
  have same := toNat_digit small
  refine decide_eq_true ⟨UInt8.le_iff_toNat_le.mpr ?_, UInt8.le_iff_toNat_le.mpr ?_⟩
  · rw [same]
    exact Nat.le_add_right 48 digit
  · rw [same]
    change 48 + digit ≤ 57
    omega

theorem digitsText_isDigits (value : Nat) : IsDigits (digitsText value) := by
  unfold digitsText
  split
  · exact ⟨by decide +kernel, by decide +kernel⟩
  · rename_i positive
    constructor
    · simp [Nat.digits_ne_nil_iff_ne_zero.mpr positive]
    · intro char member
      obtain ⟨digit, isOne, rfl⟩ := List.mem_map.mp member
      exact isDigit_digit (Nat.digits_lt_base (by decide) (List.mem_reverse.mp isOne))

theorem digitsValue_digitsText (value : Nat) : digitsValue (digitsText value) = value := by
  unfold digitsText
  split
  · rename_i zero
    rw [zero]
    rfl
  · have small : ∀ digit ∈ Nat.digits 10 value, digit < 10 := fun _ =>
      Nat.digits_lt_base (by decide)
    rw [digitsValue, List.foldl_map, List.foldl_reverse]
    calc (Nat.digits 10 value).foldr (fun digit value =>
          value * 10 + ((48 + digit).toUInt8.toNat - 48)) 0
        = (Nat.digits 10 value).foldr (fun digit value => digit + 10 * value) 0 := by
          refine List.foldr_ext _ _ _ fun digit member value => ?_
          rw [toNat_digit (small digit member)]
          omega
      _ = value := by
          have back := Nat.ofDigits_digits 10 value
          rwa [Nat.ofDigits_eq_foldr] at back

/-- An integer's text is read as that integer. -/
theorem intText_spec (value : Int64) : ∃ sign whole, intText value.toInt = sign ++ whole ∧
    (sign = [] ∨ sign = [minus]) ∧ IsDigits whole ∧
      fromCharsInt (sign = [minus]) whole = some value := by
  have least := value.le_toInt
  have most := value.toInt_lt
  have back : Int64.ofInt value.toInt = value := Int64.ofInt_toInt value
  have fits : (if -2 ^ 63 ≤ value.toInt ∧ value.toInt < 2 ^ 63 then some (Int64.ofInt value.toInt)
      else none) = some value := by
    rw [if_pos ⟨least, most⟩, back]
  unfold intText
  split
  · rename_i negative
    refine ⟨[minus], digitsText value.toInt.natAbs, rfl, .inr rfl, digitsText_isDigits _, ?_⟩
    have same : -(value.toInt.natAbs : Int) = value.toInt := by omega
    rw [fromCharsInt, digitsValue_digitsText, decide_eq_true rfl, if_pos rfl, same]
    exact fits
  · rename_i positive
    refine ⟨[], digitsText value.toInt.natAbs, rfl, .inl rfl, digitsText_isDigits _, ?_⟩
    have same : (value.toInt.natAbs : Int) = value.toInt := by omega
    rw [fromCharsInt, digitsValue_digitsText, decide_eq_false nofun, if_neg Bool.false_ne_true, same]
    exact fits

end Numbers

variable {fromChars : Text → Double} {α β : Type} {stop mid : Text → Prop}

/-- The text is read as a word of the rule, with that meaning, where it is followed by a
`stop`. -/
def Prints (fromChars : Text → Double) (stop : Text → Prop) (text : Text) (rule : Rule Token α)
    (a : α) : Prop :=
  ∀ rest pos, stop rest → ∃ word pos', rule word a ∧
    ∀ more, Lexes fromChars rest pos' more → Lexes fromChars (text ++ rest) pos (word ++ more)

/-- The text is one token of a type. -/
def Reads (fromChars : Text → Double) (stop : Text → Prop) (text : Text) (type : TokenType) : Prop :=
  ∀ rest pos, stop rest → ∃ t pos', next fromChars (text ++ rest) pos = .ok ⟨t, rest, pos'⟩ ∧
    t.type = type

/-- A character that goes on with a name, a number or a string before it. -/
def sticks (char : UInt8) : Bool := identCont char || decide (char = dot) || decide (char = quote)

/-- What follows goes on with no token before it. -/
def Clear : Text → Prop := Stops sticks

section Clear

variable {rest : Text}

theorem Clear.names (clear : Clear rest) : Stops identCont rest := fun char here => by
  have not := clear char here
  simp only [sticks, Bool.or_eq_false_iff] at not
  exact not.1.1

theorem Clear.digits (clear : Clear rest) : Stops isDigit rest := fun char here => by
  have not := clear char here
  simp only [sticks, Bool.or_eq_false_iff, identCont] at not
  exact not.1.1.1.2

theorem Clear.noFraction (clear : Clear rest) :
    ¬ (rest.head? = some dot ∧ rest.tail.head?.any isDigit = true) := by
  rintro ⟨point, -⟩
  cases clear dot point

theorem Clear.strings (clear : Clear rest) : Stops (· = quote) rest := fun char here => by
  have not := clear char here
  simp only [sticks, Bool.or_eq_false_iff] at not
  exact not.2

theorem clear_nil : Clear [] := nofun

theorem clear_cons {char : UInt8} (clear : sticks char = false) : Clear (char :: rest) := by
  intro char' here
  cases here
  exact clear

/-- A text that ends what is before it, or is nothing. -/
def Opens (text : Text) : Prop := ∀ rest, Clear rest → Clear (text ++ rest)

theorem opens_nil : Opens [] := fun _ => id

theorem opens_cons {char : UInt8} {text : Text} (clear : sticks char = false) :
    Opens (char :: text) := fun _ _ => clear_cons clear

theorem opens_append {text text' : Text} (one : Opens text) (two : Opens text') :
    Opens (text ++ text') := by
  intro rest clear
  rw [List.append_assoc]
  exact one _ (two rest clear)

end Clear

section Prints

variable {text text' before : Text} {rule rule' : Rule Token α} {more : α → Rule Token β} {a : α}
  {b : β} {type : TokenType}

theorem prints_pure : Prints fromChars stop [] (pure a : Rule Token α) a :=
  fun _ pos _ => ⟨[], pos, ⟨rfl, rfl⟩, fun _ lexes => lexes⟩

theorem Prints.bind (first : Prints fromChars mid text rule a)
    (later : Prints fromChars stop text' (more a) b) (follows : ∀ rest, stop rest → mid (text' ++ rest)) :
    Prints fromChars stop (text ++ text') (rule >>= more) b := by
  intro rest pos isStop
  obtain ⟨word, pos', derives, reads⟩ := first (text' ++ rest) pos (follows rest isStop)
  obtain ⟨word', pos'', derives', reads'⟩ := later rest pos' isStop
  refine ⟨word ++ word', pos'', ⟨word, word', a, rfl, derives, derives'⟩, fun tokens lexes => ?_⟩
  rw [List.append_assoc, List.append_assoc]
  exact reads _ (reads' tokens lexes)

theorem Prints.mono (prints : Prints fromChars mid text rule a) (implies : ∀ rest, stop rest → mid rest) :
    Prints fromChars stop text rule a := fun rest pos isStop => prints rest pos (implies rest isStop)

theorem Prints.map (first : Prints fromChars stop text rule a) (f : α → β) :
    Prints fromChars stop text (rule >>= fun a => pure (f a)) (f a) := by
  have mapped : Prints fromChars stop (text ++ []) (rule >>= fun a => pure (f a)) (f a) :=
    first.bind prints_pure fun _ => id
  rwa [List.append_nil] at mapped

theorem Prints.one (prints : Prints fromChars stop text rule a) :
    Prints fromChars stop text (either rule rule') a := by
  intro rest pos isStop
  obtain ⟨word, pos', derives, reads⟩ := prints rest pos isStop
  exact ⟨word, pos', .inl derives, reads⟩

theorem Prints.other (prints : Prints fromChars stop text rule' a) :
    Prints fromChars stop text (either rule rule') a := by
  intro rest pos isStop
  obtain ⟨word, pos', derives, reads⟩ := prints rest pos isStop
  exact ⟨word, pos', .inr derives, reads⟩

theorem Prints.spaced (prints : Prints fromChars stop text rule a) :
    Prints fromChars stop (space :: text) rule a := by
  intro rest pos isStop
  obtain ⟨word, pos', derives, reads⟩ := prints rest (pos.advance space) isStop
  exact ⟨word, pos', derives, fun tokens lexes => (reads tokens lexes).of_next (next_space (by decide))⟩

theorem prints_token {means : Token → Option α} (notEnd : ∀ t, (means t).isSome → t.type ≠ .kEnd)
    (reads : ∀ rest pos, stop rest → ∃ t pos', next fromChars (text ++ rest) pos = .ok ⟨t, rest, pos'⟩ ∧
      means t = some a) : Prints fromChars stop text (token means) a := by
  intro rest pos isStop
  obtain ⟨t, pos', found, isMeaning⟩ := reads rest pos isStop
  refine ⟨[t], pos', ⟨t, rfl, isMeaning⟩, fun tokens lexes => ?_⟩
  exact .more found (notEnd t (by rw [isMeaning]; rfl)) lexes

/-- A word whose token says nothing. -/
theorem prints_word {more : Token → Rule Token β} (reads : Reads fromChars mid text type)
    (notEnd : type ≠ .kEnd) (later : ∀ t, Prints fromChars stop text' (more t) b)
    (follows : ∀ rest, stop rest → mid (text' ++ rest)) :
    Prints fromChars stop (text ++ text') (word type >>= more) b := by
  intro rest pos isStop
  obtain ⟨t, pos', found, isType⟩ := reads (text' ++ rest) pos (follows rest isStop)
  obtain ⟨word', pos'', derives, reads'⟩ := later t rest pos' isStop
  refine ⟨t :: word', pos'', ⟨[t], word', t, rfl, ⟨t, rfl, if_pos (is_iff.mpr isType)⟩, derives⟩, ?_⟩
  intro tokens lexes
  rw [List.append_assoc]
  exact .more found (by rwa [isType]) (reads' tokens lexes)

theorem reads_keyword (keyword : (text, type) ∈ keywords) :
    Reads fromChars (Stops identCont) text type := by
  have all : ∀ entry ∈ keywords, keywordOrIdentifier entry.1 = entry.2 ∧
      entry.1.head?.any identStart = true ∧ ∀ char ∈ entry.1, identCont char = true := by
    decide +kernel
  obtain ⟨isType, start, cont⟩ := all _ keyword
  intro rest pos stops
  obtain ⟨t, pos', found, type_eq, -⟩ := next_word ⟨start, cont⟩ stops
  exact ⟨t, pos', found, type_eq.trans isType⟩

/-- A keyword and a space, and perhaps a space before it. -/
theorem prints_keyword (name : String) {more : Token → Rule Token β}
    (keyword : (bytes name, type) ∈ keywords)
    (spaced : before = bytes name ++ [space] ∨ before = space :: bytes name ++ [space])
    (later : ∀ t, Prints fromChars stop text (more t) b) :
    Prints fromChars stop (before ++ text) (word type >>= more) b := by
  have notEnd : type ≠ .kEnd := by
    have all : ∀ entry ∈ keywords, entry.2 ≠ .kEnd := by decide
    exact all _ keyword
  have prints : Prints fromChars stop (bytes name ++ (space :: text)) (word type >>= more) b := by
    refine prints_word (reads_keyword keyword) notEnd (fun t => (later t).spaced) ?_
    rintro rest - char here
    cases here
    decide
  rcases spaced with rfl | rfl
  · rwa [List.append_assoc]
  · rw [List.cons_append, List.cons_append, List.append_assoc]
    exact prints.spaced

/-- An operator, and perhaps a space before or after it. -/
theorem prints_symbol (name : String) {more : Token → Rule Token β}
    (isSymbol : ∀ rest, operators.find? (fun entry => entry.1.isPrefixOf (bytes name ++ rest)) =
      some (bytes name, type)) (notEnd : type ≠ .kEnd)
    (spaced : before = bytes name ∨ before = space :: bytes name ∨ before = bytes name ++ [space])
    (later : ∀ t, Prints fromChars stop text (more t) b) :
    Prints fromChars stop (before ++ text) (word type >>= more) b := by
  have reads : Reads fromChars (fun _ => True) (bytes name) type :=
    fun rest _ _ => next_symbol (isSymbol rest)
  rcases spaced with rfl | rfl | rfl
  · exact prints_word reads notEnd later fun _ _ => trivial
  · exact (prints_word reads notEnd later fun _ _ => trivial).spaced
  · rw [List.append_assoc]
    exact prints_word reads notEnd (fun t => (later t).spaced) fun _ _ => trivial

/-- A name, which is no keyword. -/
def IsName (text : Text) : Prop := IsWord text ∧ keywordOrIdentifier text = .kIdentifier

theorem IsName.some_ (name : IsName text) : text ≠ [] := by
  rintro rfl
  cases name.1.start

theorem identifier_name {used : List Token} (derives : identifier used text)
    (readable : ∀ t ∈ used, Readable fromChars t) : IsName text := by
  obtain ⟨_, _, t, rfl, isName, rfl, rfl⟩ := derives
  obtain ⟨_, rfl, passes⟩ := isName
  obtain ⟨isName, same⟩ := Option.ite_none_right_eq_some.mp passes
  cases same
  exact (readable t (List.mem_singleton_self t)).name (is_iff.mp isName)

theorem prints_identifier (name : IsName text) :
    Prints fromChars (Stops identCont) text identifier text := by
  intro rest pos stops
  obtain ⟨t, pos', found, isType, text_eq⟩ := next_word name.1 stops
  have isName : t.type = .kIdentifier := isType.trans name.2
  refine ⟨[t], pos', ⟨[t], [], t, rfl, ⟨t, rfl, if_pos (is_iff.mpr isName)⟩, rfl, text_eq.symm⟩, ?_⟩
  intro tokens lexes
  exact .more found (by rw [isName]; exact nofun) lexes

end Prints

/-- The texts that are printed of what a rule derives are read as the same. -/
def Shows (fromChars : Text → Double) (rule : Rule Token α) (print : α → Text) : Prop :=
  ∀ used a, rule used a → (∀ t ∈ used, Readable fromChars t) →
    Prints fromChars Clear (print a) rule a

section Shows

variable {rule : Rule Token α} {print : α → Text} {test : Token → Bool} {between : Text}

/-- A separator is printed before an item. -/
def Separates (fromChars : Text → Double) (between : Text) (test : Token → Bool) : Prop :=
  (∀ text, Opens (between ++ text)) ∧ ∀ {β : Type} {more : Token → Rule Token β} {text : Text} {b : β},
    (∀ t, Prints fromChars Clear text (more t) b) →
      Prints fromChars Clear (between ++ text) (terminal test >>= more) b

theorem opens_flatMap (opens : ∀ a, Opens (print a)) (all : List α) : Opens (all.flatMap print) := by
  induction all with
  | nil => exact opens_nil
  | cons a all ih => exact opens_append (opens a) ih

theorem shows_repeated (shows_ : Shows fromChars rule print) (opens : ∀ a, Opens (print a)) :
    Shows fromChars (repeated rule) fun all => all.flatMap print := by
  intro used all derives readable
  induction derives with
  | done => exact fun rest pos _ => ⟨[], pos, .done, fun _ lexes => lexes⟩
  | @more front back a rest first later ih =>
    have prints := shows_ front a first fun t member => readable t (List.mem_append_left _ member)
    have prints' := ih fun t member => readable t (List.mem_append_right _ member)
    intro after pos clear
    obtain ⟨word, pos', derives, reads⟩ := prints (rest.flatMap print ++ after) pos
      (opens_flatMap opens rest after clear)
    obtain ⟨word', pos'', derives', reads'⟩ := prints' after pos' clear
    refine ⟨word ++ word', pos'', .more derives derives', fun tokens lexes => ?_⟩
    change Lexes fromChars (List.flatMap print (a :: rest) ++ after) pos _
    rw [List.flatMap_cons, List.append_assoc, List.append_assoc]
    exact reads _ (reads' tokens lexes)

private theorem joined_cons (text : Text) (texts : List Text) :
    joined between (text :: texts) = text ++ texts.flatMap fun later => between ++ later := by
  induction texts generalizing text with
  | nil => simp [joined, List.intercalate]
  | cons next texts ih =>
    have split : joined between (text :: next :: texts) =
        text ++ between ++ joined between (next :: texts) := by simp [joined, List.intercalate]
    rw [split, ih, List.flatMap_cons, List.append_assoc, List.append_assoc]

theorem shows_separated (separates : Separates fromChars between test)
    (shows_ : Shows fromChars rule print) :
    Shows fromChars (separated test rule) fun all => joined between (all.map print) := by
  rintro used all ⟨front, _, a, rfl, first, back, _, rest, rfl, later, rfl, rfl⟩ readable
  have readable' : ∀ t ∈ back, Readable fromChars t := fun t member =>
    readable t (List.mem_append_right _ (List.mem_append_left _ member))
  have shows_next : Shows fromChars (do
      let _ ← terminal test
      rule) fun a => between ++ print a := by
    rintro _ b ⟨_, back, t, rfl, isSeparator, derives⟩ readable
    exact separates.2 fun _ => shows_ back b derives fun t member =>
      readable t (List.mem_append_right _ member)
  have prints := shows_repeated shows_next (fun a => separates.1 (print a)) back rest later readable'
  have print_eq : joined between ((a :: rest).map print) =
      print a ++ rest.flatMap fun a => between ++ print a := by
    rw [List.map_cons, joined_cons, List.flatMap_map]
  change Prints fromChars Clear (joined between ((a :: rest).map print)) _ _
  rw [print_eq]
  exact (shows_ front a first fun t member => readable t (List.mem_append_left _ member)).bind
    (prints.map _) (opens_flatMap (fun a => separates.1 (print a)) rest)

end Shows

end Labdb.Sql
