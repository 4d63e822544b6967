import Labdb.Sql.Grammar
import Labdb.Sql.Lexing

/-! The numbers that literals stand for: an integer is lexed exactly or refused, a decimal is
the nearest double or else the zero that an out-of-range `from_chars` leaves behind. -/

namespace Labdb.Sql

open Labdb.Query
open Grammar (literalOf)

/-- A numeric literal as it is written: a sign, digits and perhaps a fraction. -/
structure Numeral where
  negative : Bool
  whole : Text
  fraction : Option Text
  wholeDigits : IsDigits whole
  fractionDigits : ∀ digits ∈ fraction, IsDigits digits

/-- A number with its sign. -/
def signed (negative : Bool) (size : Double) : Double :=
  if negative then ⟨size.bits ||| 0x8000000000000000⟩ else size

namespace Numeral

def sign (n : Numeral) : Text := if n.negative then [minus] else []

def text (n : Numeral) : Text :=
  match n.fraction with
  | none => n.sign ++ n.whole
  | some digits => n.sign ++ n.whole ++ dot :: digits

/-- The integer written before the point. -/
def integer (n : Numeral) : Int :=
  if n.negative then -(digitsValue n.whole : Int) else digitsValue n.whole

/-- The digits of the decimal, as a number. -/
def scaled (n : Numeral) : Nat := digitsValue (n.whole ++ n.fraction.getD [])

/-- The double nearest to the decimal written, without its sign. -/
def size (n : Numeral) : Double := .ofRat (n.scaled / (10 ^ (n.fraction.getD []).length : Nat))

/-- The double nearest to the decimal written. -/
def rounded (n : Numeral) : Double := signed n.negative n.size

/-- The nearest double is finite, and zero only where zero is written. -/
def InRange (n : Numeral) : Prop :=
  n.size.exponent ≠ 2047 ∧ (n.size.bits = 0 → n.scaled = 0)

instance (n : Numeral) : Decidable n.InRange := inferInstanceAs (Decidable (_ ∧ _))

/-- The literal's number has a value of its type. -/
def Representable (n : Numeral) : Prop :=
  match n.fraction with
  | none => -2 ^ 63 ≤ n.integer ∧ n.integer < 2 ^ 63
  | some _ => n.InRange

/-- What follows the literal is no part of it. -/
structure Ends (n : Numeral) (rest : Text) : Prop where
  stops : Stops isDigit rest
  point : n.fraction = none → ¬ (rest.head? = some dot ∧ rest.tail.head?.any isDigit = true)

theorem isSign (n : Numeral) : n.sign = [] ∨ n.sign = [minus] := by
  unfold sign
  split
  · exact .inr rfl
  · exact .inl rfl

private theorem sign_iff (n : Numeral) : decide (n.sign = [minus]) = n.negative := by
  unfold sign
  cases n.negative with
  | false => rfl
  | true => rfl

end Numeral

variable {fromChars : Text → Option Double}

/-- What the C++ library promises of a decimal: the nearest double where the decimal is in range,
and else that it is out of range. -/
structure FromChars (fromChars : Text → Option Double) : Prop where
  rounds : ∀ n : Numeral, n.fraction ≠ none → n.InRange → fromChars n.text = some n.rounded
  refuses : ∀ n : Numeral, n.fraction ≠ none → ¬ n.InRange → fromChars n.text = none

/-- `from_chars` into a token's zero, which it does not touch where it is out of range. -/
def leaves (fromChars : Text → Option Double) (text : Text) : Double := (fromChars text).getD ⟨0⟩

/-- A field that holds the number written. -/
def Numeral.Is (n : Numeral) (field : Field) : Prop :=
  match n.fraction with
  | none => ∃ value, field = .ofInt64 value ∧ value.toInt = n.integer
  | some _ => field = .ofDouble n.rounded

/-- The lexer's answer to a literal before some text: the number, to be compared as such, or
an error where it has no value. -/
structure Numeral.Kept (n : Numeral) (rest : Text) (answer : Except LexError Lexed) : Prop where
  read : n.Representable → ∃ t pos field, answer = .ok ⟨t, rest, pos⟩ ∧
    literalOf t = some field ∧ n.Is field
  refused : ¬ n.Representable → ∃ e, answer = .error e

section Kept

variable {n : Numeral} {rest : Text} {pos : Pos}

private theorem fromCharsInt_some (inRange : -2 ^ 63 ≤ n.integer ∧ n.integer < 2 ^ 63) :
    fromCharsInt n.negative n.whole = some (.ofInt n.integer) := by
  unfold fromCharsInt
  exact if_pos inRange

private theorem fromCharsInt_none (outOfRange : ¬ (-2 ^ 63 ≤ n.integer ∧ n.integer < 2 ^ 63)) :
    fromCharsInt n.negative n.whole = none := by
  unfold fromCharsInt
  exact if_neg outOfRange

private theorem integer_kept (noFraction : n.fraction = none) (ends : n.Ends rest) :
    n.Kept rest (next (leaves fromChars) (n.text ++ rest) pos) := by
  have lexed : next (leaves fromChars) (n.text ++ rest) pos = lexInteger n.sign n.whole rest pos := by
    rw [Numeral.text, noFraction]
    exact next_whole n.isSign n.wholeDigits ends.stops (ends.point noFraction)
  have representable : n.Representable ↔ -2 ^ 63 ≤ n.integer ∧ n.integer < 2 ^ 63 := by
    rw [Numeral.Representable, noFraction]
  rw [lexed, lexInteger, n.sign_iff]
  constructor
  · intro inRange
    have inRange := representable.mp inRange
    rw [fromCharsInt_some inRange]
    refine ⟨_, _, _, rfl, rfl, ?_⟩
    rw [Numeral.Is, noFraction]
    exact ⟨_, rfl, Int64.toInt_ofInt_of_le inRange.1 inRange.2⟩
  · intro outOfRange
    rw [fromCharsInt_none (mt representable.mpr outOfRange)]
    exact ⟨_, rfl⟩

theorem decimal_lexed {digits : Text} (isFraction : n.fraction = some digits) (ends : n.Ends rest) :
    ∃ t pos', next (leaves fromChars) (n.text ++ rest) pos = .ok ⟨t, rest, pos'⟩ ∧
      literalOf t = some (.ofDouble (leaves fromChars n.text)) := by
  have isDecimal : IsDecimal n.text := by
    rw [Numeral.text, isFraction]
    exact ⟨n.sign ++ n.whole, digits, rfl, ⟨n.sign, n.whole, rfl, n.isSign, n.wholeDigits⟩,
      n.fractionDigits digits isFraction⟩
  obtain ⟨t, pos', found, isType, value_eq⟩ := next_decimal isDecimal ends.stops
  exact ⟨t, pos', found, by rw [literalOf, isType, value_eq]⟩

end Kept

/-- A literal is lexed to the number written, and refused where there is none, if and only if
it is an integer or its decimal is in range. -/
theorem number_kept_iff (library : FromChars fromChars) (n : Numeral) {rest : Text}
    (ends : n.Ends rest) (pos : Pos) :
    n.Kept rest (next (leaves fromChars) (n.text ++ rest) pos) ↔ n.fraction = none ∨ n.InRange := by
  cases isFraction : n.fraction with
  | none => exact ⟨fun _ => .inl rfl, fun _ => integer_kept isFraction ends⟩
  | some digits =>
    obtain ⟨t, pos', found, isLiteral⟩ := decimal_lexed isFraction ends
    have representable : n.Representable ↔ n.InRange := by
      rw [Numeral.Representable, isFraction]
    constructor
    · intro kept
      by_contra outOfRange
      obtain ⟨e, refused⟩ := kept.refused fun inRange => outOfRange (.inr (representable.mp inRange))
      cases found.symm.trans refused
    · intro inRange
      have inRange := inRange.resolve_left nofun
      refine ⟨fun _ => ⟨t, pos', _, found, isLiteral, ?_⟩, fun not => absurd (representable.mpr inRange) not⟩
      have rounded := library.rounds n (by rw [isFraction]; exact nofun) inRange
      rw [Numeral.Is, isFraction, leaves, rounded]
      rfl

/-- A library that rounds to the nearest double, and calls what rounds to infinity, or to zero
from another number, out of range. -/
def nearestChars (text : Text) : Option Double :=
  let negative : Bool := text.head? = some minus
  let text := if negative then text.drop 1 else text
  let whole := text.takeWhile isDigit
  let digits := (text.dropWhile isDigit).drop 1
  let size := Double.ofRat (digitsValue (whole ++ digits) / (10 ^ digits.length : Nat))
  if size.exponent = 2047 ∨ size.bits = 0 ∧ digitsValue (whole ++ digits) ≠ 0 then none
  else some (signed negative size)

private theorem nearestChars_text (n : Numeral) (isFraction : n.fraction ≠ none) :
    nearestChars n.text =
      if n.size.exponent = 2047 ∨ n.size.bits = 0 ∧ n.scaled ≠ 0 then none
      else some n.rounded := by
  obtain ⟨digits, isFraction⟩ := Option.ne_none_iff_exists'.mp isFraction
  have point : Stops isDigit (dot :: digits) := by
    intro char here
    cases here
    decide
  obtain ⟨taken, left⟩ := span_append n.wholeDigits.digits point
  have text_eq : n.text = n.sign ++ n.whole ++ dot :: digits := by rw [Numeral.text, isFraction]
  have negative : decide (n.text.head? = some minus) = n.negative := by
    rw [text_eq, ← n.sign_iff]
    exact decide_eq_decide.mpr (head_sign n.isSign n.wholeDigits)
  have unsigned : (if n.negative then n.text.drop 1 else n.text) = n.whole ++ dot :: digits := by
    rw [text_eq, Numeral.sign]
    cases n.negative with
    | false => rfl
    | true => rfl
  unfold nearestChars
  dsimp only
  rw [negative, unsigned, taken, left, List.drop_one, List.tail_cons, Numeral.rounded, Numeral.size,
    Numeral.scaled, isFraction]
  rfl

private theorem nearestChars_fromChars : FromChars nearestChars := by
  constructor
  · intro n isFraction inRange
    rw [nearestChars_text n isFraction, if_neg]
    rintro (infinite | ⟨zero, some_⟩)
    · exact inRange.1 infinite
    · exact some_ (inRange.2 zero)
  · intro n isFraction outOfRange
    rw [nearestChars_text n isFraction, if_pos]
    by_contra inRange
    rw [not_or, not_and, not_not] at inRange
    exact outOfRange inRange

/-- `1000…000.0`, with 309 zeros before the point. -/
def tooLarge : Numeral where
  negative := false
  whole := 49 :: List.replicate 309 48
  fraction := some [48]
  wholeDigits := by
    refine ⟨List.cons_ne_nil _ _, fun char member => ?_⟩
    rcases List.mem_cons.mp member with rfl | member
    · decide
    · rw [List.eq_of_mem_replicate member]
      decide
  fractionDigits := by
    intro digits isDigits
    cases isDigits
    exact ⟨by decide +kernel, by decide +kernel⟩

theorem number_kept_iff_half :
    let half : Numeral := {
      negative := true
      whole := bytes "2"
      fraction := some (bytes "5")
      wholeDigits := ⟨by decide +kernel, by decide +kernel⟩
      fractionDigits := fun digits isDigits => by
        cases isDigits
        exact ⟨by decide +kernel, by decide +kernel⟩ }
    half.Kept [] (next (leaves nearestChars) (half.text ++ []) {}) := by
  intro half
  have ends : half.Ends [] := ⟨nofun, fun noFraction => by cases noFraction⟩
  exact (number_kept_iff nearestChars_fromChars half ends {}).mpr (.inr (by decide +kernel))

/-- A decimal too large for a double is lexed to zero. -/
theorem number_lost :
    FromChars nearestChars ∧
      ¬ tooLarge.Kept [] (next (leaves nearestChars) (tooLarge.text ++ []) {}) ∧
      (next (leaves nearestChars) (tooLarge.text ++ []) {}).map (literalOf ·.token) =
        .ok (some (.ofDouble ⟨0⟩)) := by
  have outOfRange : nearestChars tooLarge.text = none := by decide +kernel
  obtain ⟨t, pos', found, isLiteral⟩ := @decimal_lexed nearestChars tooLarge [] {} [48] rfl
    ⟨nofun, fun noFraction => by cases noFraction⟩
  refine ⟨nearestChars_fromChars, fun kept => ?_, ?_⟩
  · have not : ¬ tooLarge.Representable := by
      change ¬ tooLarge.InRange
      decide +kernel
    obtain ⟨e, refused⟩ := kept.refused not
    cases found.symm.trans refused
  · rw [found, leaves, outOfRange] at *
    exact congrArg Except.ok isLiteral

end Labdb.Sql
