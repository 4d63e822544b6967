import Labdb.Shell.Script
import Labdb.Sql.Lexing

/-! Reading line by line runs the statements of the whole input, as long as no line ends in a
semicolon of a string that goes on. -/

namespace Labdb.Shell

open Labdb.Query Labdb.Sql

section Blank

variable {text more : Text}

private theorem lastVisible_append (text more : Text) :
    lastVisible (text ++ more) = (lastVisible more).or (lastVisible text) := by
  rw [lastVisible, List.filter_append, List.getLast?_append]
  rfl

theorem isBlank_append (text more : Text) : isBlank (text ++ more) = (isBlank text && isBlank more) :=
  List.all_append

private theorem lastVisible_none : lastVisible text = none ↔ isBlank text = true := by
  rw [lastVisible, List.getLast?_eq_none_iff, List.filter_eq_nil_iff, isBlank, List.all_eq_true]
  simp

private theorem quotedAfter_append (quoted : Bool) (text more : Text) :
    quotedAfter quoted (text ++ more) = quotedAfter (quotedAfter quoted text) more :=
  List.foldl_append

private theorem quotedAfter_blank (quoted : Bool) (blank : isBlank text = true) :
    quotedAfter quoted text = quoted := by
  induction text with
  | nil => rfl
  | cons char text ih =>
    obtain ⟨isSpace_, blank⟩ := Bool.and_eq_true_iff.mp blank
    have notQuote : char ≠ quote := by
      rintro rfl
      cases isSpace_
    rw [quotedAfter, List.foldl_cons, if_neg notQuote]
    exact ih blank

/-- A text that is not blank is so up to a last visible character. -/
theorem visible_split {char : UInt8} (last : lastVisible text = some char) :
    ∃ front blanks, text = front ++ char :: blanks ∧ isBlank blanks = true := by
  induction text with
  | nil => cases last
  | cons first text ih =>
    by_cases blank : isBlank text = true
    · have none_ := lastVisible_none.mpr blank
      rw [← List.singleton_append, lastVisible_append, none_, Option.none_or] at last
      refine ⟨[], text, ?_, blank⟩
      by_cases isSpace_ : isSpace first = true
      · simp [lastVisible, isSpace_] at last
      · simp only [lastVisible, List.filter_cons, isSpace_, Bool.not_false,
          if_true, List.filter_nil, List.getLast?_singleton, Option.some.injEq] at last
        rw [last]
        rfl
    · obtain ⟨visible, isVisible⟩ := Option.ne_none_iff_exists'.mp (mt lastVisible_none.mp blank)
      have same : lastVisible (first :: text) = lastVisible text := by
        rw [← List.singleton_append, lastVisible_append, isVisible]
        rfl
      obtain ⟨front, blanks, split_, isBlank_⟩ := ih (same ▸ last)
      exact ⟨first :: front, blanks, by rw [split_]; rfl, isBlank_⟩

private theorem dropWhile_append_of_visible (visible : isBlank text = false) (more : Text) :
    (text ++ more).dropWhile isSpace = text.dropWhile isSpace ++ more := by
  induction text with
  | nil => cases visible
  | cons char text ih =>
    by_cases isSpace_ : isSpace char = true
    · rw [List.cons_append, List.dropWhile_cons_of_pos isSpace_, List.dropWhile_cons_of_pos isSpace_]
      refine ih ?_
      rw [isBlank, List.all_cons, isSpace_] at visible
      exact visible
    · rw [List.cons_append, List.dropWhile_cons_of_neg isSpace_, List.dropWhile_cons_of_neg isSpace_]
      rfl

end Blank

section ToRun

variable {parts : List Text} {cur blank : Text}

theorem toRun_append (parts more : List Text) : toRun (parts ++ more) = toRun parts ++ toRun more := by
  rw [toRun, List.filter_append, List.map_append]
  rfl

private theorem toRun_blank (isBlank_ : isBlank cur = true) : toRun [cur] = [] := by
  simp [toRun, isBlank_]

theorem toRun_visible (visible : isBlank cur = false) : toRun [cur] = [cur.dropWhile isSpace] := by
  simp [toRun, visible]

/-- Blanks before a statement are not run. -/
theorem toRun_skip (isBlank_ : isBlank blank = true) (cur : Text) : toRun [blank ++ cur] = toRun [cur] := by
  cases visible : isBlank cur with
  | true =>
    have both : isBlank (blank ++ cur) = true := by rw [isBlank_append, isBlank_, visible]; rfl
    rw [toRun_blank visible, toRun_blank both]
  | false =>
    have both : isBlank (blank ++ cur) = false := by rw [isBlank_append, visible, Bool.and_false]
    rw [toRun_visible visible, toRun_visible both,
      List.dropWhile_append_of_pos (List.all_eq_true.mp isBlank_)]

end ToRun

section Split

variable {cur text more : Text} {quoted : Bool}

/-- The loop stops anywhere and goes on. -/
theorem split_append (cur : Text) (quoted : Bool) (text more : Text) :
    split cur quoted (text ++ more) =
      ((split cur quoted text).1 ++
          (split (split cur quoted text).2 (quotedAfter quoted text) more).1,
        (split (split cur quoted text).2 (quotedAfter quoted text) more).2) := by
  induction text generalizing cur quoted with
  | nil => rfl
  | cons char text ih =>
    rw [List.cons_append, split, split]
    by_cases ends : char = semicolon ∧ (if char = quote then !quoted else quoted) = false
    · rw [if_pos ends, if_pos ends, ih]
      rfl
    · rw [if_neg ends, if_neg ends, ih]
      rfl

/-- A statement that has not ended, with the loop inside a string or not. -/
structure Open (cur : Text) (quoted : Bool) : Prop where
  whole : split [] false cur = ([], cur)
  quoted : quotedAfter false cur = quoted

theorem Open.nil : Open [] false := ⟨rfl, rfl⟩

/-- What the loop is left with has not ended. -/
theorem Open.split (open_ : Open cur quoted) (text : Text) :
    Open (split cur quoted text).2 (quotedAfter quoted text) := by
  induction text generalizing cur quoted with
  | nil => exact open_
  | cons char text ih =>
    rw [Shell.split]
    by_cases ends : char = semicolon ∧ (if char = quote then !quoted else quoted) = false
    · have unquoted : quotedAfter quoted (char :: text) = quotedAfter false text := by
        rw [quotedAfter, List.foldl_cons, ends.2]
        rfl
      rw [if_pos ends, unquoted, ends.2]
      exact ih .nil
    · rw [if_neg ends]
      refine ih ⟨?_, ?_⟩
      · rw [split_append, open_.whole, open_.quoted, Shell.split, if_neg ends]
        rfl
      · rw [quotedAfter_append, open_.quoted]
        rfl

private theorem Open.split_append (open_ : Open cur quoted) (text : Text) :
    Shell.split [] false (cur ++ text) = Shell.split cur quoted text := by
  rw [Shell.split_append, open_.whole, open_.quoted]
  rfl

/-- Outside strings a statement that has not ended has no semicolon at its end. -/
theorem Open.quoted_of_semicolon (open_ : Open cur quoted) (last : lastVisible cur = some semicolon) :
    quoted = true := by
  obtain ⟨front, blanks, rfl, blank⟩ := visible_split last
  have quoted_eq : quoted = quotedAfter false front := by
    rw [← open_.quoted, quotedAfter_append, quotedAfter, List.foldl_cons, if_neg (by decide)]
    exact quotedAfter_blank _ blank
  cases isQuoted : quotedAfter false front with
  | true => rw [quoted_eq, isQuoted]
  | false =>
    have whole := open_.whole
    rw [Shell.split_append, isQuoted, Shell.split, if_pos ⟨rfl, rfl⟩] at whole
    simp at whole

/-- The last visible character is the statement's that is left, or else the semicolon before
it. -/
theorem lastVisible_split (cur : Text) (quoted : Bool) (text : Text) :
    (isBlank (split cur quoted text).2 = false →
      lastVisible (cur ++ text) = lastVisible (split cur quoted text).2) ∧
    (isBlank (split cur quoted text).2 = true → (split cur quoted text).1 ≠ [] →
      lastVisible (cur ++ text) = some semicolon) ∧
    ((split cur quoted text).1 = [] → (split cur quoted text).2 = cur ++ text) := by
  induction text generalizing cur quoted with
  | nil =>
    refine ⟨fun _ => ?_, fun _ some_ => absurd rfl some_, fun _ => ?_⟩
    · rw [List.append_nil]
      rfl
    · rw [List.append_nil]
      rfl
  | cons char text ih =>
    rw [split]
    by_cases ends : char = semicolon ∧ (if char = quote then !quoted else quoted) = false
    · rw [if_pos ends, ends.2]
      obtain ⟨visible, blank, none_⟩ := ih [] false
      rw [List.nil_append] at visible blank none_
      have before : ∀ last, lastVisible text = some last →
          lastVisible (cur ++ char :: text) = some last := by
        intro last isLast
        rw [← List.singleton_append, ← List.append_assoc, lastVisible_append, isLast]
        rfl
      refine ⟨fun isVisible => ?_, fun isBlank_ _ => ?_, nofun⟩
      · obtain ⟨last, isLast⟩ := Option.ne_none_iff_exists'.mp
          (mt lastVisible_none.mp (Bool.eq_false_iff.mp isVisible))
        change lastVisible _ = lastVisible (split [] false text).2
        rw [isLast]
        exact before last ((visible isVisible).trans isLast)
      · by_cases some_ : (split [] false text).1 = []
        · have isBlank_ : isBlank text = true := none_ some_ ▸ isBlank_
          rw [ends.1, ← List.singleton_append, ← List.append_assoc, lastVisible_append,
            lastVisible_none.mpr isBlank_, lastVisible_append]
          rfl
        · exact before _ (blank isBlank_ some_)
    · rw [if_neg ends]
      have goesOn := ih (cur ++ [char]) (if char = quote then !quoted else quoted)
      rwa [List.append_assoc, List.singleton_append] at goesOn

end Split

section Reading

variable {pending line text more : Text} {lines : List Text}

/-- What is run of a text that the loop of `statements` has gone on with. -/
def wanted (cur : Text) (quoted : Bool) (text : Text) : List Text :=
  toRun ((split cur quoted text).1 ++ [(split cur quoted text).2])

theorem toRun_statements (text : Text) : toRun (statements text) = wanted [] false text := by
  rw [wanted, toRun_append, statements]
  dsimp only
  cases blank : isBlank (split [] false text).2 with
  | true => rw [if_pos rfl, toRun_blank blank, List.append_nil]
  | false => rw [if_neg Bool.false_ne_true, toRun_append]

/-- The character ends the statement. -/
def Ends (quoted : Bool) (char : UInt8) : Prop :=
  char = semicolon ∧ (if char = quote then !quoted else quoted) = false

instance (quoted : Bool) (char : UInt8) : Decidable (Ends quoted char) :=
  inferInstanceAs (Decidable (_ ∧ _))

theorem wanted_ends {quoted : Bool} {char : UInt8} (ends : Ends quoted char) (cur text : Text) :
    wanted cur quoted (char :: text) = toRun [cur] ++ wanted [] false text := by
  have step : split cur quoted (char :: text) =
      (cur :: (split [] false text).1, (split [] false text).2) := by
    rw [split, ends.2]
    exact if_pos ⟨ends.1, rfl⟩
  rw [wanted, step, wanted, ← toRun_append]
  rfl

theorem wanted_goes {quoted : Bool} {char : UInt8} (goes : ¬ Ends quoted char) (cur text : Text) :
    wanted cur quoted (char :: text) =
      wanted (cur ++ [char]) (if char = quote then !quoted else quoted) text := by
  have step : split cur quoted (char :: text) =
      split (cur ++ [char]) (if char = quote then !quoted else quoted) text := if_neg goes
  rw [wanted, step, wanted]

/-- Blanks before the statement do not matter. -/
theorem wanted_skip {blank : Text} (isBlank_ : isBlank blank = true) (cur : Text) (quoted : Bool)
    (text : Text) : wanted (blank ++ cur) quoted text = wanted cur quoted text := by
  induction text generalizing cur quoted with
  | nil => exact toRun_skip isBlank_ cur
  | cons char text ih =>
    by_cases ends : Ends quoted char
    · rw [wanted_ends ends, wanted_ends ends, toRun_skip isBlank_]
    · rw [wanted_goes ends, wanted_goes ends, List.append_assoc]
      exact ih (cur ++ [char]) _

/-- What is run of two texts: the statements of the first, and then of what it leaves. -/
theorem wanted_append (text more : Text) : wanted [] false (text ++ more) =
    toRun (split [] false text).1 ++ wanted [] false ((split [] false text).2 ++ more) := by
  have left := (Open.nil.split text).split_append more
  rw [wanted, wanted, left, split_append, List.append_assoc, toRun_append]

/-- A string that goes on is part of what is run next. -/
theorem wanted_head (visible : isBlank pending = false) (quoted : Bool) (text : Text) :
    ∃ more rest, wanted pending quoted text = (pending.dropWhile isSpace ++ more) :: rest := by
  induction text generalizing pending quoted with
  | nil => exact ⟨[], [], by rw [wanted, split, List.nil_append, toRun_visible visible, List.append_nil]⟩
  | cons char text ih =>
    by_cases ends : Ends quoted char
    · refine ⟨[], wanted [] false text, ?_⟩
      rw [wanted_ends ends, toRun_visible visible, List.append_nil]
      rfl
    · have visible' : isBlank (pending ++ [char]) = false := by rw [isBlank_append, visible]; rfl
      obtain ⟨more, rest, head⟩ := ih visible' (if char = quote then !quoted else quoted)
      refine ⟨char :: more, rest, ?_⟩
      rw [wanted_goes ends, head, dropWhile_append_of_visible visible, List.append_assoc]
      rfl

/-- Inside a string nothing ends. -/
theorem wanted_goesOn (visible : isBlank pending = false) (char : UInt8) (text : Text) :
    ∃ more rest, wanted pending true (char :: text) =
      (pending.dropWhile isSpace ++ char :: more) :: rest := by
  have goes : ¬ Ends true char := by
    rintro ⟨rfl, unquoted⟩
    cases unquoted
  have visible' : isBlank (pending ++ [char]) = false := by rw [isBlank_append, visible]; rfl
  obtain ⟨more, rest, head⟩ := wanted_head visible' (if char = quote then !true else true) text
  refine ⟨more, rest, ?_⟩
  rw [wanted_goes goes, head, dropWhile_append_of_visible visible, List.append_assoc]
  rfl

/-- A line more: either the statements are run that have ended, and the rest is pending, or a
string that goes on is run with them. -/
theorem readLine_cases (text_eq : pending ++ line ++ [newline] = text) :
    (¬ EndsInString text ∧ (readLine pending line).1 = toRun (split [] false text).1 ∧
      ((readLine pending line).2 = (split [] false text).2 ∨
        (readLine pending line).2 = [] ∧ isBlank (split [] false text).2 = true)) ∨
    (EndsInString text ∧ isBlank (split [] false text).2 = false ∧
      readLine pending line =
        (toRun (split [] false text).1 ++ toRun [(split [] false text).2], [])) := by
  have open_ := Open.nil.split text
  obtain ⟨visible, blank, none_⟩ := lastVisible_split [] false text
  rw [List.nil_append] at visible blank none_
  unfold readLine
  rw [text_eq]
  dsimp only
  cases isBlank_ : isBlank (split [] false text).2 with
  | true =>
    left
    have unquoted : quotedAfter false text = false := by
      rw [← open_.quoted]
      exact quotedAfter_blank _ isBlank_
    have parts : statements text = (split [] false text).1 := by
      rw [statements]
      exact if_pos isBlank_
    refine ⟨fun inString => ?_, ?_, ?_⟩
    · cases inString.1.symm.trans unquoted
    · rw [parts]
      split
      · rw [List.take_length]
      · rename_i notComplete
        have none' : (Shell.split [] false text).1 = [] := by
          by_contra some_
          exact notComplete (blank isBlank_ some_)
        rw [none']
        rfl
    · right
      rw [parts, if_pos]
      · exact ⟨rfl, rfl⟩
      · by_cases some_ : (Shell.split [] false text).1 = []
        · exact .inr some_
        · exact .inl (blank isBlank_ some_)
  | false =>
    have parts : statements text = (split [] false text).1 ++ [(split [] false text).2] := by
      rw [statements]
      exact if_neg (Bool.eq_false_iff.mp isBlank_)
    have some_ : (split [] false text).1 ++ [(split [] false text).2] ≠ [] :=
      List.append_ne_nil_of_right_ne_nil _ (List.cons_ne_nil _ _)
    rw [parts, visible isBlank_]
    by_cases complete : lastVisible (split [] false text).2 = some semicolon
    · right
      have quoted := open_.quoted_of_semicolon complete
      refine ⟨⟨quoted, (visible isBlank_).trans complete⟩, rfl, ?_⟩
      rw [if_pos complete, if_pos (.inl complete), List.take_length, toRun_append]
    · left
      refine ⟨fun inString => complete ((visible isBlank_).symm.trans inString.2), ?_, .inl ?_⟩
      · rw [if_neg complete, if_neg some_, List.length_append, List.length_singleton,
          Nat.add_sub_cancel, List.take_left]
      · rw [if_neg (not_or.mpr ⟨complete, some_⟩), List.getLastD_concat]

/-- Some lines but the last ones end outside strings, or not in a semicolon. -/
def NoneInString (pending : Text) (lines : List Text) : Prop :=
  ∀ before line after, lines = before ++ line :: after → after ≠ [] →
    ¬ EndsInString (pending ++ input (before ++ [line]))

private theorem endsInString_skip {blank : Text} (isBlank_ : isBlank blank = true) (more : Text) :
    EndsInString (blank ++ more) ↔ EndsInString more := by
  rw [EndsInString, EndsInString, quotedAfter_append, quotedAfter_blank _ isBlank_,
    lastVisible_append, lastVisible_none.mpr isBlank_, Option.or_none]

/-- Whether a text ends in a string is seen in its last statement. -/
theorem endsInString_left (text more : Text) :
    EndsInString (text ++ more) ↔ EndsInString ((split [] false text).2 ++ more) := by
  have open_ := Open.nil.split text
  have quoted_eq : quotedAfter false (text ++ more) =
      quotedAfter false ((split [] false text).2 ++ more) := by
    rw [quotedAfter_append, quotedAfter_append, open_.quoted]
  rw [EndsInString, EndsInString, quoted_eq]
  refine and_congr_right fun quoted => ?_
  rw [lastVisible_append, lastVisible_append]
  cases isBlank_ : isBlank (split [] false text).2 with
  | false =>
    have visible := (lastVisible_split [] false text).1 isBlank_
    rw [List.nil_append] at visible
    rw [visible]
  | true =>
    -- the string has begun in `more`, which is not blank then
    have visible : lastVisible more ≠ none := by
      intro none_
      have blank : isBlank ((split [] false text).2 ++ more) = true := by
        rw [isBlank_append, isBlank_, lastVisible_none.mp none_]
        rfl
      rw [quotedAfter_blank _ blank] at quoted
      cases quoted
    obtain ⟨last, isLast⟩ := Option.ne_none_iff_exists'.mp visible
    rw [isLast]
    rfl

private theorem input_cons (line : Text) (lines : List Text) :
    input (line :: lines) = line ++ [newline] ++ input lines := List.flatMap_cons

/-- After a line that does not end in a string, what is pending stands for the text so far. -/
theorem noneInString_cons {pending' : Text} (text_eq : pending ++ line ++ [newline] = text)
    (outside : ¬ EndsInString text)
    (left : pending' = (split [] false text).2 ∨ pending' = [] ∧ isBlank (split [] false text).2 = true) :
    NoneInString pending (line :: lines) ↔ NoneInString pending' lines := by
  have same : ∀ more, EndsInString (text ++ more) ↔ EndsInString (pending' ++ more) := by
    intro more
    rw [endsInString_left]
    rcases left with rfl | ⟨rfl, blank⟩
    · rfl
    · exact endsInString_skip blank more
  have text_append : ∀ lines, pending ++ input (line :: lines) = text ++ input lines := by
    intro lines
    rw [input_cons, ← text_eq]
    simp only [List.append_assoc]
  constructor
  · intro none_ before line' after split_ some_
    rw [← same, ← text_append]
    exact none_ (line :: before) line' after (by rw [split_]; rfl) some_
  · intro none_ before line' after split_ some_
    cases before with
    | nil =>
      cases split_
      rw [List.nil_append, text_append]
      simpa [input] using outside
    | cons first before =>
      obtain ⟨rfl, rfl⟩ := List.cons.inj split_
      rw [List.cons_append, text_append, same]
      exact none_ before line' after rfl some_

/-- The same for what is run. -/
theorem wanted_left {pending' : Text}
    (left : pending' = (split [] false text).2 ∨ pending' = [] ∧ isBlank (split [] false text).2 = true)
    (more : Text) : wanted [] false ((split [] false text).2 ++ more) = wanted [] false (pending' ++ more) := by
  rcases left with rfl | ⟨rfl, blank⟩
  · rfl
  · have open_ := Open.nil.split text
    have unquoted : quotedAfter false text = false := by
      rw [← open_.quoted]
      exact quotedAfter_blank _ blank
    have skip := wanted_skip blank [] false more
    rw [List.append_nil] at skip
    rw [wanted, open_.split_append, unquoted]
    exact skip

theorem readLines_iff (whole : split [] false pending = ([], pending))
    (noCommand : NoCommand pending lines) :
    readLines pending lines = wanted [] false (pending ++ input lines) ↔
      NoneInString pending lines := by
  induction lines generalizing pending with
  | nil =>
    have run : readLines pending [] = wanted [] false (pending ++ input []) := by
      rw [input, List.flatMap_nil, List.append_nil, wanted, whole]
      rfl
    exact ⟨fun _ before line after split_ => by simp at split_, fun _ => run⟩
  | cons line lines ih =>
    have isLine : ¬ (pending = [] ∧ line.head? = some dot) := fun ⟨none_, command⟩ =>
      noCommand [] line lines rfl none_ command
    have noCommand' : NoCommand (readLine pending line).2 lines := by
      intro before line' after split_ none_
      exact noCommand (line :: before) line' after (by rw [split_]; rfl) none_
    obtain ⟨text, text_eq⟩ : ∃ text, pending ++ line ++ [newline] = text := ⟨_, rfl⟩
    have whole_eq : pending ++ input (line :: lines) = text ++ input lines := by
      rw [input_cons, ← text_eq]
      simp only [List.append_assoc]
    have open_ := Open.nil.split text
    rw [readLines, if_neg isLine, whole_eq, wanted_append]
    rcases readLine_cases text_eq with ⟨outside, ran, left⟩ | ⟨inString, visible, run⟩
    · have whole' : split [] false (readLine pending line).2 = ([], (readLine pending line).2) := by
        rcases left with same | ⟨none_, -⟩
        · rw [same]
          exact open_.whole
        · rw [none_]
          rfl
      rw [noneInString_cons text_eq outside left, ← ih whole' noCommand', wanted_left left, ← ran]
      exact ⟨List.append_cancel_left, fun same => congrArg ((readLine pending line).1 ++ ·) same⟩
    · rw [run]
      change toRun _ ++ toRun [(split [] false text).2] ++ readLines [] lines = _ ↔ _
      rw [List.append_assoc, List.append_cancel_left_eq, toRun_visible visible]
      cases lines with
      | nil =>
        have left : wanted [] false ((split [] false text).2 ++ input []) = toRun [(split [] false text).2] := by
          rw [input, List.flatMap_nil, List.append_nil, wanted, open_.whole]
          rfl
        rw [left, toRun_visible visible]
        refine ⟨fun _ before line' after split_ some_ => ?_, fun _ => rfl⟩
        cases before with
        | nil =>
          cases split_
          exact absurd rfl some_
        | cons first before => simp at split_
      | cons next lines =>
        have goesOn : NoneInString pending (line :: next :: lines) → False := by
          intro none_
          refine none_ [] line (next :: lines) rfl (List.cons_ne_nil _ _) ?_
          rw [List.nil_append, input_cons, ← List.append_assoc, ← List.append_assoc, text_eq]
          simpa [input] using inString
        have quoted : Open (split [] false text).2 true := by
          have same := inString.1
          rw [← same]
          exact open_
        refine ⟨fun same => ?_, fun none_ => (goesOn none_).elim⟩
        obtain ⟨char, more, input_eq⟩ : ∃ char more, input (next :: lines) = char :: more := by
          rw [input_cons]
          cases next with
          | nil => exact ⟨_, _, rfl⟩
          | cons char _ => exact ⟨_, _, rfl⟩
        obtain ⟨more', rest, head⟩ := wanted_goesOn visible char more
        have wanted_eq : wanted [] false ((split [] false text).2 ++ char :: more) =
            wanted (split [] false text).2 true (char :: more) := by
          rw [wanted, quoted.split_append]
          rfl
        rw [input_eq, wanted_eq, head] at same
        have heads := (List.cons.inj same).1
        have longer := congrArg List.length heads
        rw [List.length_append, List.length_cons] at longer
        omega

end Reading

end Labdb.Shell
