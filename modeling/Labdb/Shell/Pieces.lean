import Labdb.Shell.Lines

/-! The semicolons that end statements are the lexer's: whatever it goes through between two
of them, strings with doubled quotes among it, is in one statement. -/

namespace Labdb.Shell

open Labdb.Query Labdb.Sql

variable {fromChars : Text → Double}

/-- The lexer's way through a text: the pieces between the semicolons that it has found, what
it went through since the last of them, and what it has not read. -/
inductive Found (fromChars : Text → Double) (text : Text) : List Text → Text → Text → Pos → Prop where
  | start : Found fromChars text [] [] text {}
  | token {pieces : List Text} {cur rest front : Text} {pos : Pos} {lexed : Lexed}
      (before : Found fromChars text pieces cur rest pos) (found : next fromChars rest pos = .ok lexed)
      (other : lexed.token.type ≠ .kSemicolon) (took : rest = front ++ lexed.rest) :
      Found fromChars text pieces (cur ++ front) lexed.rest lexed.pos
  | semicolon {pieces : List Text} {cur rest blanks : Text} {pos : Pos} {lexed : Lexed}
      (before : Found fromChars text pieces cur rest pos) (found : next fromChars rest pos = .ok lexed)
      (isSemicolon : lexed.token.type = .kSemicolon)
      (took : rest = blanks ++ [Shell.semicolon] ++ lexed.rest) :
      Found fromChars text (pieces ++ [cur ++ blanks]) [] lexed.rest lexed.pos

section Front

variable {text rest front : Text} {pos : Pos} {lexed : Lexed} {char : UInt8}

/-- The loop of `statements`, outside strings, goes through without an end. -/
def Through (front : Text) : Prop :=
  ∀ cur more, split cur false (front ++ more) = split (cur ++ front) false more

theorem Through.append {more : Text} (one : Through front) (two : Through more) :
    Through (front ++ more) := by
  intro cur rest
  rw [List.append_assoc, one, two, List.append_assoc]

theorem split_plain (notQuote : char ≠ quote) (notEnd : char ≠ semicolon) (cur : Text) (quoted : Bool)
    (more : Text) : split cur quoted (char :: more) = split (cur ++ [char]) quoted more := by
  rw [split, if_neg notQuote]
  exact if_neg fun ends => notEnd ends.1

private theorem split_quote (cur : Text) (quoted : Bool) (more : Text) :
    split cur quoted (quote :: more) = split (cur ++ [quote]) (!quoted) more := by
  rw [split, if_pos rfl]
  exact if_neg fun ends => by cases ends.1

theorem through_plain (plain : ∀ char ∈ front, char ≠ quote ∧ char ≠ semicolon) : Through front := by
  induction front with
  | nil =>
    intro cur more
    rw [List.append_nil]
    rfl
  | cons char front ih =>
    intro cur more
    obtain ⟨notQuote, notEnd⟩ := plain char List.mem_cons_self
    rw [List.cons_append, split_plain notQuote notEnd, ih fun char member =>
      plain char (List.mem_cons_of_mem _ member), List.append_assoc]
    rfl

/-- From inside a string the loop comes out of it where the lexer does. -/
theorem through_stringValue {value after : Text} (found : stringValue text = some (value, after)) :
    ∃ front, text = front ++ after ∧
      ∀ cur more, split cur true (front ++ more) = split (cur ++ front) false more := by
  induction text using stringValue.induct generalizing value with
  | case1 => cases found
  | case2 =>
    cases found
    exact ⟨[quote], rfl, fun cur more => split_quote cur true more⟩
  | case3 rest ih =>
    rw [stringValue.eq_def] at found
    dsimp only at found
    rw [if_pos rfl, if_pos rfl, Option.map_eq_some_iff] at found
    obtain ⟨⟨value', after'⟩, found, same⟩ := found
    cases same
    obtain ⟨front, rfl, through⟩ := ih found
    refine ⟨quote :: quote :: front, rfl, fun cur more => ?_⟩
    rw [List.cons_append, List.cons_append, split_quote, split_quote]
    refine (through (cur ++ [quote] ++ [quote]) more).trans ?_
    simp only [List.append_assoc, List.cons_append, List.nil_append]
  | case4 next rest notQuote =>
    rw [stringValue.eq_def] at found
    dsimp only at found
    rw [if_pos rfl, if_neg notQuote] at found
    cases found
    exact ⟨[quote], rfl, fun cur more => split_quote cur true more⟩
  | case5 char rest notQuote ih =>
    rw [stringValue.eq_def] at found
    dsimp only at found
    rw [if_neg notQuote, Option.map_eq_some_iff] at found
    obtain ⟨⟨value', after'⟩, found, same⟩ := found
    cases same
    obtain ⟨front, rfl, through⟩ := ih found
    refine ⟨char :: front, rfl, fun cur more => ?_⟩
    have step : split cur true (char :: (front ++ more)) = split (cur ++ [char]) true (front ++ more) := by
      rw [split, if_neg notQuote]
      exact if_neg fun ends => by cases ends.2
    rw [List.cons_append, step, through, List.append_assoc]
    rfl

/-- What the lexer takes off a text is gone through, up to a semicolon. -/
def Takes (text : Text) (lexed : Lexed) : Prop :=
  ∃ front, text = front ++ lexed.rest ∧ (lexed.token.type ≠ .kSemicolon → Through front) ∧
    (lexed.token.type = .kSemicolon → ∃ blanks, front = blanks ++ [semicolon] ∧ Through blanks)

theorem takes_plain (other : lexed.token.type ≠ .kSemicolon) (took : text = front ++ lexed.rest)
    (plain : ∀ char ∈ front, char ≠ quote ∧ char ≠ semicolon) : Takes text lexed :=
  ⟨front, took, fun _ => through_plain plain, fun same => absurd same other⟩

theorem identCont_plain (cont : identCont char = true) : char ≠ quote ∧ char ≠ semicolon := by
  constructor
  · rintro rfl
    cases cont
  · rintro rfl
    cases cont

private theorem lexWord_takes : Takes text (lexWord text pos) := by
  have other : keywordOrIdentifier (text.takeWhile identCont) ≠ .kSemicolon := by
    unfold keywordOrIdentifier
    cases found : keywords.find? fun entry => entry.1 = upper (text.takeWhile identCont) with
    | none => decide
    | some entry =>
      have all : ∀ entry ∈ keywords, entry.2 ≠ .kSemicolon := by decide
      exact all entry (List.mem_of_find?_eq_some found)
  exact takes_plain other (List.takeWhile_append_dropWhile).symm fun char member =>
    identCont_plain (List.mem_takeWhile_imp member)

private theorem digits_plain {digits : Text} (isDigits : ∀ char ∈ digits, isDigit char = true) :
    ∀ char ∈ digits, char ≠ quote ∧ char ≠ semicolon := by
  intro char member
  have digit := isDigits char member
  exact identCont_plain (by rw [identCont, digit, Bool.or_true, Bool.true_or])

theorem lexInteger_takes {sign whole : Text} (found : lexInteger sign whole rest pos = .ok lexed)
    (took : text = front ++ rest) (plain : ∀ char ∈ front, char ≠ quote ∧ char ≠ semicolon) :
    Takes text lexed := by
  unfold lexInteger at found
  split at found
  · cases found
    exact takes_plain nofun took plain
  · cases found

theorem lexNumber_takes (found : lexNumber fromChars text pos = .ok lexed) : Takes text lexed := by
  obtain ⟨sign, sign_eq, sign_took, sign_plain⟩ : ∃ sign,
      (if text.head? = some minus then [minus] else []) = sign ∧
        text = sign ++ text.drop sign.length ∧ ∀ char ∈ sign, char ≠ quote ∧ char ≠ semicolon := by
    refine ⟨_, rfl, ?_⟩
    split
    · rename_i isMinus
      cases text with
      | nil => cases isMinus
      | cons char rest =>
        cases isMinus
        exact ⟨rfl, by decide +kernel⟩
    · exact ⟨rfl, by decide +kernel⟩
  unfold lexNumber at found
  dsimp only at found
  rw [sign_eq] at found
  have whole_took : text.drop sign.length = (text.drop sign.length).takeWhile isDigit ++
      (text.drop sign.length).dropWhile isDigit := (List.takeWhile_append_dropWhile).symm
  have whole_plain := @digits_plain ((text.drop sign.length).takeWhile isDigit)
    fun _ => List.mem_takeWhile_imp
  have both_plain : ∀ char ∈ sign ++ (text.drop sign.length).takeWhile isDigit,
      char ≠ quote ∧ char ≠ semicolon := fun char member =>
    (List.mem_append.mp member).elim (sign_plain char) (whole_plain char)
  split at found
  · rename_i point after dropped
    rw [dropped] at whole_took
    have took : text = sign ++ (text.drop sign.length).takeWhile isDigit ++ point :: after := by
      rw [List.append_assoc, ← whole_took]
      exact sign_took
    split at found
    · rename_i isFraction
      obtain ⟨rfl, -⟩ := isFraction
      cases found
      refine @takes_plain _ (sign ++ (text.drop sign.length).takeWhile isDigit ++
        dot :: after.takeWhile isDigit) _ nofun ?_ ?_
      · rw [List.append_assoc, List.cons_append, List.takeWhile_append_dropWhile]
        exact took
      · intro char member
        rcases List.mem_append.mp member with member | member
        · exact both_plain char member
        · rcases List.mem_cons.mp member with rfl | member
          · decide
          · exact digits_plain (fun _ => List.mem_takeWhile_imp) char member
    · exact lexInteger_takes found took both_plain
  · rename_i dropped
    rw [dropped] at whole_took
    refine lexInteger_takes found ?_ both_plain
    rw [List.append_assoc, ← whole_took]
    exact sign_took

private theorem lexString_takes (found : lexString (quote :: rest) pos = .ok lexed) :
    Takes (quote :: rest) lexed := by
  unfold lexString at found
  split at found
  · cases found
  · rename_i value after isValue
    cases found
    obtain ⟨front, took, through⟩ := through_stringValue isValue
    refine ⟨quote :: front, congrArg (quote :: ·) took, fun _ cur more => ?_, nofun⟩
    rw [List.cons_append, split_quote]
    refine (through (cur ++ [quote]) more).trans ?_
    rw [List.append_assoc]
    rfl

theorem lexOperator_takes (found : lexOperator text pos = .ok lexed) : Takes text lexed := by
  unfold lexOperator at found
  split at found
  · rename_i symbol type isSymbol
    cases found
    have took : text = symbol ++ text.drop symbol.length := by
      obtain ⟨after, rfl⟩ := List.isPrefixOf_iff_prefix.mp
        (List.find?_some (p := fun entry : Text × TokenType => entry.1.isPrefixOf text) isSymbol)
      rw [List.drop_left]
    have all : ∀ entry ∈ operators, (entry.2 = .kSemicolon → entry.1 = [semicolon]) ∧
        (entry.2 ≠ .kSemicolon → ∀ char ∈ entry.1, char ≠ quote ∧ char ≠ semicolon) := by
      decide +kernel
    obtain ⟨isEnd, other⟩ := all _ (List.mem_of_find?_eq_some isSymbol)
    refine ⟨symbol, took, fun differs => through_plain (other differs), fun same => ?_⟩
    exact ⟨[], isEnd same, through_plain (by simp)⟩
  · cases found

private theorem next_takes (found : next fromChars text pos = .ok lexed) : Takes text lexed := by
  induction text generalizing pos with
  | nil =>
    cases found
    exact @takes_plain [] [] _ nofun rfl (by simp)
  | cons char rest ih =>
    by_cases blank : isSpace char = true
    · rw [next_space blank] at found
      obtain ⟨front, took, other, isEnd⟩ := ih found
      have plain : Through [char] := by
        refine through_plain fun char' member => ?_
        obtain rfl := List.mem_singleton.mp member
        constructor
        · rintro rfl
          cases blank
        · rintro rfl
          cases blank
      refine ⟨char :: front, congrArg (char :: ·) took, fun differs => plain.append (other differs), ?_⟩
      intro same
      obtain ⟨blanks, rfl, through⟩ := isEnd same
      exact ⟨char :: blanks, rfl, plain.append through⟩
    · rw [next_cons (Bool.not_eq_true _ ▸ blank)] at found
      split at found
      · cases found
        exact lexWord_takes
      · split at found
        · exact lexNumber_takes found
        · split at found
          · rename_i isQuote
            subst isQuote
            exact lexString_takes found
          · exact lexOperator_takes found

/-- As far as the lexer goes, `statements` ends one where the lexer finds a semicolon. -/
theorem split_found {pieces : List Text} {cur : Text}
    (found : Found fromChars text pieces cur rest pos) : split [] false text =
      (pieces ++ (split cur false rest).1, (split cur false rest).2) := by
  induction found with
  | start => rfl
  | token _ found other took ih =>
    obtain ⟨front, took', through, -⟩ := next_takes found
    obtain rfl := List.append_cancel_right (took.symm.trans took')
    rw [ih, took, through other]
  | semicolon _ found same took ih =>
    obtain ⟨front, took', -, isEnd⟩ := next_takes found
    obtain ⟨blanks, rfl, through⟩ := isEnd same
    obtain rfl := List.append_cancel_right (List.append_cancel_right (took.symm.trans took'))
    have ends : ∀ cur more, split cur false (Shell.semicolon :: more) =
        (cur :: (split [] false more).1, (split [] false more).2) := fun cur more => rfl
    rw [ih, took, List.append_assoc, through, List.singleton_append, ends, List.append_assoc]
    rfl

end Front

private theorem noCommand_of_heads {pending : Text} {lines : List Text}
    (heads : ∀ line ∈ lines, line.head? ≠ some dot) : NoCommand pending lines := by
  rintro before line after rfl -
  exact heads line (by simp)

private theorem noneInString_of_take {pending : Text} {lines : List Text}
    (none_ : ∀ n < lines.length, 0 < n → ¬ EndsInString (pending ++ input (lines.take n))) :
    NoneInString pending lines := by
  rintro before line after rfl some_
  have positive := List.length_pos_iff.mpr some_
  have here := none_ (before.length + 1)
    (by rw [List.length_append, List.length_cons]; omega) (Nat.succ_pos _)
  rwa [List.take_length_add_append, List.take_succ_cons, List.take_zero] at here

/-- The shell runs the statements of the whole input if and only if none of the lines but the
last leaves it inside a string with a semicolon as the last visible character; and these are
the pieces between the semicolons that the lexer finds, as far as it goes. -/
theorem shell_reads_whole_iff (fromChars : Text → Double) {lines : List Text}
    (noCommand : NoCommand [] lines) :
    (shell lines = toRun (statements (input lines)) ↔ NoneInString [] lines) ∧
      ∀ pieces cur rest pos, Found fromChars (input lines) pieces cur rest pos →
        split [] false (input lines) = (pieces ++ (split cur false rest).1, (split cur false rest).2) := by
  refine ⟨?_, fun pieces cur rest pos => split_found⟩
  rw [toRun_statements]
  exact readLines_iff rfl noCommand

/-- A string over two lines of which the first ends in a semicolon. -/
theorem shell_splits_string :
    let lines := [bytes "INSERT INTO t VALUES ('a;", bytes "b');"]
    NoCommand [] lines ∧
      toRun (statements (input lines)) = [bytes "INSERT INTO t VALUES ('a;\nb')"] ∧
      shell lines = [bytes "INSERT INTO t VALUES ('a;\n", bytes "b');\n"] ∧
      shell lines ≠ toRun (statements (input lines)) := by
  refine ⟨noCommand_of_heads (by decide), by decide, by decide, by decide⟩

/-- A string over two lines, and two statements on one. -/
theorem shell_reads_whole_string :
    let lines := [bytes "INSERT INTO t VALUES ('a", bytes ";b'); SELECT", bytes " 1"]
    shell lines = toRun (statements (input lines)) := by
  intro lines
  refine ((shell_reads_whole_iff (fun _ => ⟨0⟩) (noCommand_of_heads (by decide))).1).mpr ?_
  exact noneInString_of_take (by decide)

end Labdb.Shell
