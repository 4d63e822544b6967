import Labdb.Data.Parsing
import Labdb.Sql.Lexer
import Labdb.Sql.Unparse
import Mathlib.Data.List.TakeWhile

/-! What the lexer makes of a text, piece by piece: a word, a number, a string or an operator
at the front of it is one token, and the lexer goes on after it. -/

namespace Labdb.Sql

open Labdb.Data Labdb.Query

variable {fromChars : Text → Double}

/-- The tokens of a text, from a position on. -/
inductive Lexes (fromChars : Text → Double) : Text → Pos → List Token → Prop where
  | done {text : Text} {pos : Pos} {lexed : Lexed} (found : next fromChars text pos = .ok lexed)
      (end_ : lexed.token.type = .kEnd) : Lexes fromChars text pos [lexed.token]
  | more {text : Text} {pos : Pos} {lexed : Lexed} {tokens : List Token}
      (found : next fromChars text pos = .ok lexed) (notEnd : lexed.token.type ≠ .kEnd)
      (later : Lexes fromChars lexed.rest lexed.pos tokens) :
      Lexes fromChars text pos (lexed.token :: tokens)

/-- The end of the tokens. -/
theorem Lexes.ends {text : Text} {pos : Pos} {tokens : List Token}
    (lexes : Lexes fromChars text pos tokens) : Ends (fun t => t.type = .kEnd) tokens := by
  induction lexes with
  | done _ end_ => exact .one end_
  | more _ notEnd _ ih => exact .more notEnd ih

/-- Tokens depend on the text by what the lexer finds in it. -/
theorem Lexes.of_next {text text' : Text} {pos pos' : Pos} {tokens : List Token}
    (lexes : Lexes fromChars text' pos' tokens)
    (same : next fromChars text pos = next fromChars text' pos') :
    Lexes fromChars text pos tokens := by
  cases lexes with
  | done found end_ => exact .done (same.trans found) end_
  | more found notEnd later => exact .more (same.trans found) notEnd later

section Span

variable {test : UInt8 → Bool} {front rest : Text}

/-- What follows does not go on with characters of a kind. -/
def Stops (test : UInt8 → Bool) (rest : Text) : Prop := ∀ char, rest.head? = some char → test char = false

theorem span_append (all : ∀ char ∈ front, test char = true) (stops : Stops test rest) :
    (front ++ rest).takeWhile test = front ∧ (front ++ rest).dropWhile test = rest := by
  have here : rest.takeWhile test = [] ∧ rest.dropWhile test = rest := by
    cases rest with
    | nil => exact ⟨rfl, rfl⟩
    | cons char tail =>
      have not := stops char rfl
      rw [List.takeWhile_cons_of_neg (by simp [not]), List.dropWhile_cons_of_neg (by simp [not])]
      exact ⟨rfl, rfl⟩
  rw [List.takeWhile_append_of_pos all, List.dropWhile_append_of_pos all, here.1, here.2]
  exact ⟨List.append_nil front, rfl⟩

end Span

/-- One of the words that identifiers and keywords are. -/
structure IsWord (word : Text) : Prop where
  start : word.head?.any identStart = true
  cont : ∀ char ∈ word, identCont char = true

/-- Digits, at least one. -/
structure IsDigits (text : Text) : Prop where
  some_ : text ≠ []
  digits : ∀ char ∈ text, isDigit char = true

/-- Digits, and perhaps a sign before them. -/
def IsInteger (text : Text) : Prop :=
  ∃ sign whole, text = sign ++ whole ∧ (sign = [] ∨ sign = [minus]) ∧ IsDigits whole

/-- An integer, a point and digits. -/
def IsDecimal (text : Text) : Prop :=
  ∃ integer fraction, text = integer ++ dot :: fraction ∧ IsInteger integer ∧ IsDigits fraction

section Kinds

/-- What holds of all the bytes. -/
theorem forall_byte {holds : UInt8 → Bool} (all : (List.range 256).all (holds ·.toUInt8) = true)
    (char : UInt8) : holds char = true := by
  have inside := List.all_eq_true.mp all char.toNat (List.mem_range.mpr char.toNat_lt)
  rwa [Nat.toUInt8, UInt8.ofNat_toNat] at inside

private theorem identStart_facts {char : UInt8} (start : identStart char = true) :
    isSpace char = false ∧ identCont char = true := by
  have all := @forall_byte (fun char => !identStart char || !isSpace char && identCont char)
    (by decide +kernel) char
  simpa [start] using all

theorem isDigit_facts {char : UInt8} (digit : isDigit char = true) :
    isSpace char = false ∧ identStart char = false ∧ char ≠ minus ∧ char ≠ dot ∧
      48 ≤ char.toNat ∧ char.toNat < 58 := by
  have all := @forall_byte (fun char => !isDigit char ||
    !isSpace char && !identStart char && char != minus && char != dot &&
      decide (48 ≤ char.toNat) && decide (char.toNat < 58)) (by decide +kernel) char
  simpa [digit, and_assoc] using all

end Kinds

section Next

variable {rest : Text} {pos : Pos}

theorem next_space {char : UInt8} (isBlank : isSpace char = true) :
    next fromChars (char :: rest) pos = next fromChars rest (pos.advance char) := by
  unfold next
  rw [List.takeWhile_cons_of_pos isBlank, List.dropWhile_cons_of_pos isBlank]
  rfl

theorem next_cons {char : UInt8} (notSpace : isSpace char = false) :
    next fromChars (char :: rest) pos =
      if identStart char then .ok (lexWord (char :: rest) pos)
      else if isDigit char ∨ char = minus ∧ rest.head?.any isDigit then
        lexNumber fromChars (char :: rest) pos
      else if char = quote then lexString (char :: rest) pos
      else lexOperator (char :: rest) pos := by
  unfold next
  rw [List.takeWhile_cons_of_neg (by simp [notSpace]), List.dropWhile_cons_of_neg (by simp [notSpace])]
  rfl

theorem next_word {word : Text} (isWord : IsWord word) (stops : Stops identCont rest) :
    ∃ t pos', next fromChars (word ++ rest) pos = .ok ⟨t, rest, pos'⟩ ∧
      t.type = keywordOrIdentifier word ∧ t.text = word := by
  obtain ⟨taken, left⟩ := span_append isWord.cont stops
  cases word with
  | nil => cases isWord.start
  | cons char tail =>
    have start : identStart char = true := isWord.start
    rw [List.cons_append] at taken left ⊢
    rw [next_cons (identStart_facts start).1, if_pos start, lexWord, taken, left]
    exact ⟨_, _, rfl, rfl, rfl⟩

/-- A number begins with a digit or with a sign before one. -/
theorem next_number {sign whole : Text} (isSign : sign = [] ∨ sign = [minus])
    (isWhole : IsDigits whole) : next fromChars (sign ++ whole ++ rest) pos =
      lexNumber fromChars (sign ++ whole ++ rest) pos := by
  cases whole with
  | nil => exact absurd rfl isWhole.some_
  | cons digit tail =>
    have isDigit' := isWhole.digits digit List.mem_cons_self
    obtain ⟨notSpace, notStart, -⟩ := isDigit_facts isDigit'
    rcases isSign with rfl | rfl
    · rw [List.nil_append, List.cons_append, next_cons notSpace, if_neg (by simp [notStart]),
        if_pos (.inl isDigit')]
    · rw [List.singleton_append, List.cons_append, List.cons_append, next_cons (by decide),
        if_neg (by decide), if_pos (.inr ⟨rfl, isDigit'⟩)]

theorem head_sign {sign whole : Text} (isSign : sign = [] ∨ sign = [minus])
    (isWhole : IsDigits whole) : (sign ++ whole ++ rest).head? = some minus ↔ sign = [minus] := by
  rcases isSign with rfl | rfl
  · cases whole with
    | nil => exact absurd rfl isWhole.some_
    | cons digit tail =>
      have notMinus := (isDigit_facts (isWhole.digits digit List.mem_cons_self)).2.2.1
      simp [notMinus]
  · simp

private theorem sign_cases {sign whole : Text} (isSign : sign = [] ∨ sign = [minus])
    (isWhole : IsDigits whole) :
    (if (sign ++ whole ++ rest).head? = some minus then [minus] else []) = sign := by
  rcases isSign with rfl | rfl
  · rw [if_neg]
    rw [head_sign (.inl rfl) isWhole]
    exact nofun
  · exact if_pos rfl

/-- Digits that no fraction follows are an integer. -/
theorem next_whole {sign whole : Text} (isSign : sign = [] ∨ sign = [minus])
    (isWhole : IsDigits whole) (stops : Stops isDigit rest)
    (noFraction : ¬ (rest.head? = some dot ∧ rest.tail.head?.any isDigit = true)) :
    next fromChars (sign ++ whole ++ rest) pos = lexInteger sign whole rest pos := by
  obtain ⟨taken, left⟩ := span_append isWhole.digits stops
  have sign_eq := @sign_cases rest sign whole isSign isWhole
  rw [next_number isSign isWhole]
  unfold lexNumber
  dsimp only
  rw [sign_eq]
  have drop : (sign ++ whole ++ rest).drop sign.length = whole ++ rest := by
    rw [List.append_assoc, List.drop_left]
  rw [drop, taken, left]
  cases rest with
  | nil => rfl
  | cons char tail =>
    dsimp only
    rw [if_neg]
    rintro ⟨rfl, digit⟩
    exact noFraction ⟨rfl, digit⟩

theorem next_integer {sign whole : Text} {value : Int64} (isSign : sign = [] ∨ sign = [minus])
    (isWhole : IsDigits whole) (fits : fromCharsInt (sign = [minus]) whole = some value)
    (stops : Stops isDigit rest)
    (noFraction : ¬ (rest.head? = some dot ∧ rest.tail.head?.any isDigit = true)) :
    ∃ t pos', next fromChars (sign ++ whole ++ rest) pos = .ok ⟨t, rest, pos'⟩ ∧
      t.type = .kIntLiteral ∧ t.intVal = value := by
  rw [next_whole isSign isWhole stops noFraction, lexInteger, fits]
  exact ⟨_, _, rfl, rfl, rfl⟩

theorem next_decimal {text : Text} (isDecimal : IsDecimal text) (stops : Stops isDigit rest) :
    ∃ t pos', next fromChars (text ++ rest) pos = .ok ⟨t, rest, pos'⟩ ∧
      t.type = .kFloatLiteral ∧ t.floatVal = fromChars text := by
  obtain ⟨_, fraction, rfl, ⟨sign, whole, rfl, isSign, isWhole⟩, isFraction⟩ := isDecimal
  have shape : sign ++ whole ++ dot :: fraction ++ rest = sign ++ whole ++ dot :: (fraction ++ rest) := by
    simp
  have point : Stops isDigit (dot :: (fraction ++ rest)) := by
    intro char here
    cases here
    decide
  obtain ⟨taken, left⟩ := span_append isWhole.digits point
  obtain ⟨taken', left'⟩ := span_append isFraction.digits stops
  have sign_eq := @sign_cases (dot :: (fraction ++ rest)) sign whole isSign isWhole
  rw [shape, next_number isSign isWhole]
  unfold lexNumber
  dsimp only
  rw [sign_eq]
  have drop : (sign ++ whole ++ dot :: (fraction ++ rest)).drop sign.length =
      whole ++ dot :: (fraction ++ rest) := by
    rw [List.append_assoc, List.drop_left]
  have digit : (fraction ++ rest).head?.any isDigit = true := by
    cases fraction with
    | nil => exact absurd rfl isFraction.some_
    | cons first tail => exact isFraction.digits first List.mem_cons_self
  rw [drop, taken, left]
  dsimp only
  rw [if_pos ⟨rfl, digit⟩, taken', left']
  exact ⟨_, _, rfl, rfl, rfl⟩

private theorem stringValue_quoted {text : Text} (stops : Stops (· = quote) rest) :
    stringValue (text.flatMap (fun char => if char = quote then [quote, char] else [char]) ++
      quote :: rest) = some (text, rest) := by
  induction text with
  | nil =>
    cases rest with
    | nil => rfl
    | cons char tail =>
      have notQuote := of_decide_eq_false (stops char rfl)
      rw [List.flatMap_nil, List.nil_append, stringValue.eq_def]
      dsimp only
      rw [if_pos rfl, if_neg notQuote]
  | cons char text ih =>
    rw [List.flatMap_cons]
    by_cases isQuote : char = quote
    · subst isQuote
      rw [if_pos rfl, List.cons_append, List.singleton_append, List.cons_append, List.cons_append,
        stringValue.eq_def]
      dsimp only
      rw [if_pos rfl, if_pos rfl, ih]
      rfl
    · rw [if_neg isQuote, List.singleton_append, List.cons_append, stringValue.eq_def]
      dsimp only
      rw [if_neg isQuote, ih]
      rfl

theorem next_string {text : Text} (stops : Stops (· = quote) rest) :
    ∃ t pos', next fromChars (quoted text ++ rest) pos = .ok ⟨t, rest, pos'⟩ ∧
      t.type = .kStrLiteral ∧ t.text = text := by
  have value := @stringValue_quoted rest text stops
  rw [quoted, List.cons_append, List.cons_append, next_cons (by decide), if_neg (by decide),
    if_neg (by simp [isDigit, quote, minus]), if_pos rfl, lexString]
  rw [List.drop_one, List.tail_cons, List.append_assoc, List.singleton_append, value]
  exact ⟨_, _, rfl, rfl, rfl⟩

/-- An operator is the one that the text is found to begin with. -/
theorem next_symbol {symbol : Text} {type : TokenType}
    (first : operators.find? (fun entry => entry.1.isPrefixOf (symbol ++ rest)) =
      some (symbol, type)) :
    ∃ t pos', next fromChars (symbol ++ rest) pos = .ok ⟨t, rest, pos'⟩ ∧ t.type = type := by
  have all : ∀ entry ∈ operators, entry.1.head?.any (fun char => !isSpace char &&
      !identStart char && !isDigit char && char != minus && char != quote) = true := by decide
  have facts := all _ (List.mem_of_find?_eq_some first)
  cases symbol with
  | nil => cases facts
  | cons char tail =>
    simp only [List.head?_cons, Option.any_some, Bool.and_eq_true, Bool.not_eq_true',
      bne_iff_ne] at facts
    obtain ⟨⟨⟨⟨notSpace, notStart⟩, notDigit⟩, notMinus⟩, notQuote⟩ := facts
    rw [List.cons_append, next_cons notSpace, if_neg (by simp [notStart]),
      if_neg (by simp [notDigit, notMinus]), if_neg notQuote, lexOperator, ← List.cons_append, first]
    dsimp only
    rw [List.drop_left]
    exact ⟨_, _, rfl, rfl⟩

end Next

/-- What a token of the lexer's can be written with. -/
structure Readable (fromChars : Text → Double) (t : Token) : Prop where
  name : t.type = .kIdentifier → IsWord t.text ∧ keywordOrIdentifier t.text = .kIdentifier
  decimal : t.type = .kFloatLiteral → ∃ text, IsDecimal text ∧ t.floatVal = fromChars text

private theorem readable_of_type {t : Token} (notName : t.type ≠ .kIdentifier)
    (notDecimal : t.type ≠ .kFloatLiteral) : Readable fromChars t :=
  ⟨fun name => absurd name notName, fun decimal => absurd decimal notDecimal⟩

section Found

variable {text rest : Text} {char : UInt8} {pos : Pos} {lexed : Lexed}

/-- What the lexer is to do with the token it found. -/
def Fits (fromChars : Text → Double) (text : Text) (lexed : Lexed) : Prop :=
  Readable fromChars lexed.token ∧ lexed.token.type ≠ .kEnd ∧ lexed.rest.length < text.length

private theorem keyword_type (word : Text) :
    keywordOrIdentifier word ≠ .kFloatLiteral ∧ keywordOrIdentifier word ≠ .kEnd := by
  unfold keywordOrIdentifier
  cases found : keywords.find? fun entry => entry.1 = upper word with
  | none => decide
  | some entry =>
    have all : ∀ entry ∈ keywords, entry.2 ≠ .kFloatLiteral ∧ entry.2 ≠ .kEnd := by decide
    exact all entry (List.mem_of_find?_eq_some found)

private theorem lexWord_fits (start : identStart char = true) :
    Fits fromChars (char :: rest) (lexWord (char :: rest) pos) := by
  have cont := (identStart_facts start).2
  refine ⟨⟨fun isName => ⟨⟨?_, ?_⟩, isName⟩, ?_⟩, (keyword_type _).2, ?_⟩
  · change (List.takeWhile identCont (char :: rest)).head?.any identStart = true
    rw [List.takeWhile_cons_of_pos cont]
    exact start
  · exact fun char' member => List.mem_takeWhile_imp member
  · exact fun isDecimal => absurd isDecimal (keyword_type _).1
  · change (List.dropWhile identCont (char :: rest)).length < _
    rw [List.dropWhile_cons_of_pos cont, List.length_cons]
    exact Nat.lt_succ_of_le (List.dropWhile_suffix identCont).length_le

private theorem isDigits_takeWhile {text : Text} (first : text.head?.any isDigit = true) :
    IsDigits (text.takeWhile isDigit) := by
  refine ⟨?_, fun char member => List.mem_takeWhile_imp member⟩
  cases text with
  | nil => cases first
  | cons char rest =>
    rw [@List.takeWhile_cons_of_pos _ isDigit _ _ first]
    exact List.cons_ne_nil _ _

private theorem length_dropWhile {text : Text} (first : text.head?.any isDigit = true) :
    (text.dropWhile isDigit).length < text.length := by
  cases text with
  | nil => cases first
  | cons char rest =>
    rw [@List.dropWhile_cons_of_pos _ isDigit _ _ first, List.length_cons]
    exact Nat.lt_succ_of_le (List.dropWhile_suffix isDigit).length_le

theorem lexInteger_fits {sign whole : Text} (found : lexInteger sign whole rest pos = .ok lexed)
    (shorter : rest.length < text.length) : Fits fromChars text lexed := by
  unfold lexInteger at found
  split at found
  · cases found
    exact ⟨readable_of_type nofun nofun, nofun, shorter⟩
  · cases found

private theorem lexNumber_fits (numeric : text.head?.any isDigit = true ∨
    text.head? = some minus ∧ (text.drop 1).head?.any isDigit = true)
    (found : lexNumber fromChars text pos = .ok lexed) : Fits fromChars text lexed := by
  obtain ⟨sign, sign_eq, isSign⟩ : ∃ sign, (if text.head? = some minus then [minus] else []) = sign ∧
      (sign = [] ∨ sign = [minus]) := by
    refine ⟨_, rfl, ?_⟩
    split
    · exact .inr rfl
    · exact .inl rfl
  have first : (text.drop sign.length).head?.any isDigit = true := by
    rcases numeric with digit | ⟨isMinus, digit⟩
    · have notMinus : text.head? ≠ some minus := by
        intro isMinus
        rw [isMinus] at digit
        revert digit
        decide
      rw [if_neg notMinus] at sign_eq
      rwa [← sign_eq]
    · rw [if_pos isMinus] at sign_eq
      rwa [← sign_eq]
  have whole := isDigits_takeWhile first
  have shorter : ((text.drop sign.length).dropWhile isDigit).length < text.length :=
    (length_dropWhile first).trans_le (List.drop_suffix _ _).length_le
  unfold lexNumber at found
  dsimp only at found
  rw [sign_eq] at found
  split at found
  · rename_i point after dropped
    rw [dropped] at shorter
    split at found
    · rename_i isFraction
      obtain ⟨rfl, digit⟩ := isFraction
      cases found
      refine ⟨⟨nofun, fun _ => ⟨_, ⟨_, _, rfl, ⟨sign, _, rfl, isSign, whole⟩,
        isDigits_takeWhile digit⟩, rfl⟩⟩, nofun, ?_⟩
      exact (length_dropWhile digit).trans (Nat.lt_of_succ_lt shorter)
    · exact lexInteger_fits found shorter
  · rename_i dropped
    rw [dropped] at shorter
    exact lexInteger_fits found shorter

theorem length_stringValue {value after : Text} (found : stringValue text = some (value, after)) :
    after.length < text.length := by
  induction text using stringValue.induct generalizing value with
  | case1 => cases found
  | case2 =>
    cases found
    exact Nat.zero_lt_one
  | case3 rest ih =>
    rw [stringValue.eq_def] at found
    dsimp only at found
    rw [if_pos rfl, if_pos rfl, Option.map_eq_some_iff] at found
    obtain ⟨⟨value', after'⟩, found, same⟩ := found
    cases same
    exact (ih found).trans (Nat.lt_succ_of_lt (Nat.lt_succ_self _))
  | case4 next rest notQuote =>
    rw [stringValue.eq_def] at found
    dsimp only at found
    rw [if_pos rfl, if_neg notQuote] at found
    cases found
    exact Nat.lt_succ_self _
  | case5 char rest notQuote ih =>
    rw [stringValue.eq_def] at found
    dsimp only at found
    rw [if_neg notQuote, Option.map_eq_some_iff] at found
    obtain ⟨⟨value', after'⟩, found, same⟩ := found
    cases same
    exact (ih found).trans (Nat.lt_succ_self _)

private theorem lexString_fits (found : lexString (char :: rest) pos = .ok lexed) :
    Fits fromChars (char :: rest) lexed := by
  unfold lexString at found
  split at found
  · cases found
  · rename_i value after isValue
    cases found
    refine ⟨readable_of_type nofun nofun, nofun, ?_⟩
    exact (length_stringValue isValue).trans (Nat.lt_succ_self _)

private theorem lexOperator_fits (found : lexOperator (char :: rest) pos = .ok lexed) :
    Fits fromChars (char :: rest) lexed := by
  unfold lexOperator at found
  split at found
  · rename_i symbol type isSymbol
    cases found
    have all : ∀ entry ∈ operators, entry.1 ≠ [] ∧ entry.2 ≠ .kIdentifier ∧
      entry.2 ≠ .kFloatLiteral ∧ entry.2 ≠ .kEnd := by decide
    obtain ⟨some_, notName, notDecimal, notEnd⟩ := all _ (List.mem_of_find?_eq_some isSymbol)
    refine ⟨readable_of_type notName notDecimal, notEnd, ?_⟩
    have positive : 0 < symbol.length := List.length_pos_iff.mpr some_
    change (List.drop symbol.length (char :: rest)).length < (char :: rest).length
    rw [List.length_drop, List.length_cons]
    omega
  · cases found

/-- The lexer finds the end, or a token that it takes off the text. -/
theorem next_found (found : next fromChars text pos = .ok lexed) :
    lexed.token.type = .kEnd ∨ Fits fromChars text lexed := by
  induction text generalizing pos with
  | nil =>
    cases found
    exact .inl rfl
  | cons char rest ih =>
    by_cases blank : isSpace char = true
    · rw [next_space blank] at found
      refine (ih found).imp_right fun ⟨readable, notEnd, shorter⟩ => ?_
      exact ⟨readable, notEnd, shorter.trans (Nat.lt_succ_self _)⟩
    · right
      rw [next_cons (Bool.not_eq_true _ ▸ blank)] at found
      split at found
      · rename_i start
        cases found
        exact lexWord_fits start
      · split at found
        · rename_i numeric
          exact lexNumber_fits (numeric.imp id fun ⟨isMinus, digit⟩ => ⟨by rw [isMinus]; rfl, digit⟩)
            found
        · split at found
          · exact lexString_fits found
          · exact lexOperator_fits found

theorem Lexes.readable {tokens : List Token} (lexes : Lexes fromChars text pos tokens) :
    ∀ t ∈ tokens, t.type ≠ .kEnd → Readable fromChars t := by
  induction lexes with
  | done found end_ =>
    intro t member notEnd
    cases List.mem_singleton.mp member
    exact absurd end_ notEnd
  | more found notEnd _ ih =>
    intro t member
    rcases List.mem_cons.mp member with rfl | member
    · exact fun _ => ((next_found found).resolve_left notEnd).1
    · exact ih t member

private theorem lexes_of_rounds {rounds : Nat} {tokens : List Token}
    (ran : tokenizeRounds fromChars rounds text pos = some (.ok tokens)) :
    Lexes fromChars text pos tokens := by
  induction rounds generalizing text pos tokens with
  | zero => cases ran
  | succ rounds ih =>
    rw [tokenizeRounds] at ran
    cases found : next fromChars text pos with
    | error e =>
      rw [found] at ran
      cases ran
    | ok lexed =>
      rw [found] at ran
      dsimp only at ran
      split at ran
      · rename_i end_
        cases ran
        exact .done found end_
      · rename_i notEnd
        obtain ⟨result, ran', same⟩ := Option.map_eq_some_iff.mp ran
        cases result with
        | error e => cases same
        | ok later =>
          cases same
          exact .more found notEnd (ih ran')

private theorem rounds_of_lexes {rounds : Nat} {tokens : List Token}
    (lexes : Lexes fromChars text pos tokens) (enough : text.length < rounds) :
    tokenizeRounds fromChars rounds text pos = some (.ok tokens) := by
  induction lexes generalizing rounds with
  | done found end_ =>
    cases rounds with
    | zero => cases enough
    | succ rounds =>
      rw [tokenizeRounds, found]
      exact if_pos end_
  | more found notEnd _ ih =>
    cases rounds with
    | zero => cases enough
    | succ rounds =>
      have shorter := ((next_found found).resolve_left notEnd).2.2
      rw [tokenizeRounds, found]
      dsimp only
      rw [if_neg notEnd, ih (shorter.trans_le (Nat.le_of_lt_succ enough))]
      rfl

/-- There are always rounds enough, and the tokens are the text's. -/
theorem tokenize_iff {tokens : List Token} :
    tokenize fromChars text = some (.ok tokens) ↔ Lexes fromChars text {} tokens :=
  ⟨lexes_of_rounds, fun lexes => rounds_of_lexes lexes (Nat.lt_succ_self _)⟩

end Found

end Labdb.Sql
