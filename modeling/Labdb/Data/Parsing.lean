import Labdb.Data.Grammar

/-! When a parser implements a rule: what it accepts the rule derives, what the rule derives
it accepts, and it never takes the end of the tokens. -/

namespace Labdb.Data

open Rule

/-- Tokens of which the last one, and no other, is the end. -/
inductive Ends {τ : Type} (isEnd : τ → Prop) : List τ → Prop where
  | one {t : τ} (here : isEnd t) : Ends isEnd [t]
  | more {t : τ} {rest : List τ} (notHere : ¬ isEnd t) (later : Ends isEnd rest) :
      Ends isEnd (t :: rest)

theorem Ends.cons {τ : Type} {isEnd : τ → Prop} {word : List τ} (ends : Ends isEnd word) :
    ∃ t rest, word = t :: rest ∧ (¬ isEnd t → Ends isEnd rest) := by
  cases ends with
  | one here => exact ⟨_, _, rfl, fun notHere => absurd here notHere⟩
  | more _ later => exact ⟨_, _, rfl, fun _ => later⟩

/-- The last token is the end. -/
theorem Ends.last {τ : Type} {isEnd : τ → Prop} {word before : List τ} {t : τ}
    (ends : Ends isEnd word) (split : word = before ++ [t]) : isEnd t := by
  induction ends generalizing before with
  | one here =>
    cases before with
    | nil =>
      cases split
      exact here
    | cons first rest => simp at split
  | @more other rest _ later ih =>
    cases before with
    | nil =>
      cases split
      cases later
    | cons first before => exact ih (List.cons.inj split).2

/-- No other token is. -/
theorem Ends.front {τ : Type} {isEnd : τ → Prop} {word before : List τ} {last : τ}
    (ends : Ends isEnd word) (split : word = before ++ [last]) : ∀ t ∈ before, ¬ isEnd t := by
  induction ends generalizing before with
  | one here =>
    cases before with
    | nil => exact nofun
    | cons first rest => simp at split
  | @more other rest notHere later ih =>
    cases before with
    | nil => exact nofun
    | cons first before =>
      obtain ⟨rfl, rest_eq⟩ := List.cons.inj split
      intro t member
      rcases List.mem_cons.mp member with rfl | member
      · exact notHere
      · exact ih rest_eq t member

/-- There is nothing after the end. -/
theorem Ends.tail {τ : Type} {isEnd : τ → Prop} {t : τ} {rest : List τ}
    (ends : Ends isEnd (t :: rest)) (end_ : isEnd t) : rest = [] := by
  cases ends with
  | one _ => rfl
  | more notEnd _ => exact absurd end_ notEnd

namespace Parser

variable {τ ε α β : Type} {isEnd stop mid : τ → Prop}

/-- The parser is one for the rule, where its words are followed by a `stop`. -/
structure Implements (isEnd stop : τ → Prop) (parser : Parser τ ε α) (rule : Rule τ α) : Prop where
  sound : ∀ word a rest, parser word = some (.ok a, rest) → ∃ used, word = used ++ rest ∧ rule used a
  complete : ∀ used a rest, rule used a → Next stop rest → parser (used ++ rest) = some (.ok a, rest)
  stays : ∀ word, Ends isEnd word → ∃ result rest, parser word = some (result, rest) ∧
    Ends isEnd rest ∧ rest <:+ word

section Run

variable {parser : Parser τ ε α} {next : α → Parser τ ε β} {word rest : List τ}

theorem bind_ok {a : α} (ran : parser word = some (.ok a, rest)) :
    (parser >>= next) word = next a rest := by
  change andThen parser next word = next a rest
  rw [andThen, ran]

theorem bind_error {e : ε} (ran : parser word = some (.error e, rest)) :
    (parser >>= next) word = some (.error e, rest) := by
  change andThen parser next word = _
  rw [andThen, ran]

theorem ok_of_bind {b : β} (ran : (parser >>= next) word = some (.ok b, rest)) :
    ∃ a middle, parser word = some (.ok a, middle) ∧ next a middle = some (.ok b, rest) := by
  rcases first : parser word with _ | ⟨e | a, middle⟩
  · change andThen parser next word = _ at ran
    rw [andThen, first] at ran
    cases ran
  · rw [bind_error first] at ran
    cases ran
  · rw [bind_ok first] at ran
    exact ⟨a, middle, rfl, ran⟩

theorem pure_bind (a : α) : (pure a >>= next : Parser τ ε β) = next a := rfl

theorem bind_assoc {γ : Type} {last : β → Parser τ ε γ} :
    (parser >>= next >>= last) = parser >>= fun a => next a >>= last := by
  funext word
  rcases first : parser word with _ | ⟨e | a, middle⟩
  · change andThen (andThen parser next) last word = andThen parser _ word
    rw [andThen, andThen, andThen, first]
  · rw [bind_error (bind_error first), bind_error first]
  · rw [bind_ok first]
    change andThen (andThen parser next) last word = andThen (next a) last middle
    have same : andThen parser next word = next a middle := bind_ok first
    unfold andThen at same ⊢
    simp only [same]

theorem check_cons (test : τ → Bool) (t : τ) :
    (check test : Parser τ ε Bool) (t :: rest) = some (.ok (test t), t :: rest) := rfl

end Run

theorem implements_pure (a : α) :
    Implements isEnd stop (pure a : Parser τ ε α) (pure a : Rule τ α) := by
  refine ⟨?_, ?_, fun word ends => ⟨.ok a, word, rfl, ends, List.suffix_rfl⟩⟩
  · intro word b rest ran
    cases ran
    exact ⟨[], rfl, rfl, rfl⟩
  · rintro used b rest ⟨rfl, rfl⟩ -
    rfl

theorem Implements.bind {parser : Parser τ ε α} {next : α → Parser τ ε β} {rule : Rule τ α}
    {more : α → Rule τ β} (first : Implements isEnd mid parser rule)
    (later : ∀ a, Implements isEnd stop (next a) (more a))
    (begins : ∀ a, Begins (more a) mid stop) :
    Implements isEnd stop (parser >>= next) (rule >>= more) := by
  refine ⟨?_, ?_, ?_⟩
  · intro word b rest ran
    obtain ⟨a, middle, ran, ran'⟩ := ok_of_bind ran
    obtain ⟨front, rfl, derives⟩ := first.sound word a middle ran
    obtain ⟨back, rfl, derives'⟩ := (later a).sound middle b rest ran'
    exact ⟨front ++ back, (List.append_assoc _ _ _).symm, front, back, a, rfl, derives, derives'⟩
  · rintro used b rest ⟨front, back, a, rfl, derives, derives'⟩ follows
    rw [List.append_assoc]
    rw [bind_ok (first.complete front a (back ++ rest) derives
      (begins a back b rest derives' follows))]
    exact (later a).complete back b rest derives' follows
  · intro word ends
    obtain ⟨result, middle, ran, ends', suffix⟩ := first.stays word ends
    cases result with
    | error e => exact ⟨.error e, middle, bind_error ran, ends', suffix⟩
    | ok a =>
      obtain ⟨result, rest, ran', ends'', suffix'⟩ := (later a).stays middle ends'
      exact ⟨result, rest, (bind_ok ran).trans ran', ends'', suffix'.trans suffix⟩

/-- A parser that takes one token is followed by anything. -/
theorem Implements.then_ {parser : Parser τ ε α} {next : α → Parser τ ε β} {rule : Rule τ α}
    {more : α → Rule τ β} (first : Implements isEnd (fun _ => True) parser rule)
    (later : ∀ a, Implements isEnd stop (next a) (more a)) :
    Implements isEnd stop (parser >>= next) (rule >>= more) :=
  first.bind later fun _ => begins_any

theorem Implements.mono {parser : Parser τ ε α} {rule : Rule τ α}
    (implements : Implements isEnd mid parser rule) (implies : ∀ t, stop t → mid t) :
    Implements isEnd stop parser rule :=
  ⟨implements.sound, fun used a rest derives follows =>
    implements.complete used a rest derives (follows.imp implies), implements.stays⟩

/-- A parser that looks at the next token, takes it if it means something, and fails else. -/
theorem implements_token {parser : Parser τ ε α} {means : τ → Option α} {error : τ → ε}
    (takes : ∀ t rest, parser (t :: rest) = match means t with
      | some a => some (.ok a, rest)
      | none => some (.error (error t), t :: rest))
    (none_ : parser [] = none) (notEnd : ∀ t a, means t = some a → ¬ isEnd t) :
    Implements isEnd stop parser (token means) := by
  refine ⟨?_, ?_, ?_⟩
  · intro word a rest ran
    cases word with
    | nil =>
      rw [none_] at ran
      cases ran
    | cons t more =>
      rw [takes] at ran
      cases isMeaning : means t with
      | none =>
        rw [isMeaning] at ran
        cases ran
      | some b =>
        rw [isMeaning] at ran
        cases ran
        exact ⟨[t], rfl, t, rfl, isMeaning⟩
  · rintro used a rest ⟨t, rfl, isMeaning⟩ -
    rw [List.singleton_append, takes, isMeaning]
  · intro word ends
    obtain ⟨t, more, rfl, later⟩ := Ends.cons ends
    rw [takes]
    cases isMeaning : means t with
    | none => exact ⟨_, _, rfl, ends, List.suffix_rfl⟩
    | some a => exact ⟨_, _, rfl, later (notEnd t a isMeaning), List.suffix_cons t more⟩

theorem implements_expect {test : τ → Bool} {error : τ → ε}
    (notEnd : ∀ t, test t = true → ¬ isEnd t) :
    Implements isEnd stop (expect test error) (terminal test) := by
  refine @implements_token τ ε τ isEnd stop _ _ error (fun t rest => ?_) rfl fun t a isMeaning => ?_
  · unfold expect
    rw [bind_ok (check_cons test t)]
    cases test t <;> rfl
  · refine notEnd t ?_
    by_contra fails
    rw [if_neg fails] at isMeaning
    cases isMeaning

section Branch

variable {test : τ → Bool} {yes no : Parser τ ε α} {rule other : Rule τ α}

/-- The next token tells which of two rules the word is of. -/
theorem Implements.branch (isYes : Implements isEnd stop yes rule)
    (isNo : Implements isEnd stop no other) (begins : Begins rule (test · = true) stop) (begins' : Begins other (test · = false) stop) :
    Implements isEnd stop (do if ← check test then yes else no) (either rule other) := by
  have cases_ : ∀ t rest, (do if ← check test then yes else no : Parser τ ε α) (t :: rest) =
      if test t then yes (t :: rest) else no (t :: rest) := by
    intro t rest
    rw [bind_ok (check_cons test t)]
    cases test t <;> rfl
  refine ⟨?_, ?_, ?_⟩
  · intro word a rest ran
    cases word with
    | nil => cases ran
    | cons t more =>
      rw [cases_] at ran
      split at ran
      · obtain ⟨used, split, derives⟩ := isYes.sound _ a rest ran
        exact ⟨used, split, .inl derives⟩
      · obtain ⟨used, split, derives⟩ := isNo.sound _ a rest ran
        exact ⟨used, split, .inr derives⟩
  · rintro used a rest (derives | derives) follows
    · obtain ⟨t, more, same, passes⟩ := begins used a rest derives follows
      have ran := isYes.complete used a rest derives follows
      rw [same] at ran ⊢
      rw [cases_, if_pos passes, ran]
    · obtain ⟨t, more, same, fails⟩ := begins' used a rest derives follows
      have ran := isNo.complete used a rest derives follows
      rw [same] at ran ⊢
      rw [cases_, if_neg (by rw [fails]; exact Bool.false_ne_true), ran]
  · intro word ends
    obtain ⟨t, more, rfl, -⟩ := Ends.cons ends
    rw [cases_]
    split
    · exact isYes.stays _ ends
    · exact isNo.stays _ ends

/-- Where the token looked at is taken, it is one that was expected. -/
theorem check_advance (next : τ → Parser τ ε α) (error : τ → ε) :
    (do if ← check test then advance >>= next else no : Parser τ ε α) =
      (do if ← check test then expect test error >>= next else no) := by
  funext word
  cases word with
  | nil => rfl
  | cons t rest =>
    rw [bind_ok (check_cons test t), bind_ok (check_cons test t)]
    cases passes : test t with
    | false => rfl
    | true =>
      have taken : expect test error (t :: rest) = some (.ok t, rest) := by
        unfold expect
        rw [bind_ok (check_cons test t), passes]
        rfl
      change (advance >>= next) (t :: rest) = (expect test error >>= next) (t :: rest)
      rw [bind_ok taken]
      rfl

end Branch

section Loops

variable {item : Parser τ ε α} {rule : Rule τ α} {test : τ → Bool} {used : List τ} {all : List α}

theorem terminal_iff {word : List τ} {t : τ} :
    terminal test word t ↔ word = [t] ∧ test t = true := by
  constructor
  · rintro ⟨u, rfl, isMeaning⟩
    obtain ⟨passes, same⟩ := Option.ite_none_right_eq_some.mp isMeaning
    cases same
    exact ⟨rfl, passes⟩
  · rintro ⟨rfl, passes⟩
    exact ⟨t, rfl, if_pos passes⟩

/-- A list of items is one of them, or one, a separator and a list. -/
theorem separated_iff : separated test rule used all ↔
    (∃ a, all = [a] ∧ rule used a) ∨
    ∃ front t back a rest, used = front ++ t :: back ∧ all = a :: rest ∧ rule front a ∧
      test t = true ∧ separated test rule back rest := by
  constructor
  · rintro ⟨front, _, a, rfl, derives, back, _, rest, rfl, derives', rfl, rfl⟩
    rw [List.append_nil]
    cases derives' with
    | done => exact .inl ⟨a, rfl, by rwa [List.append_nil]⟩
    | more first later =>
      rename_i front' back' a' rest'
      obtain ⟨_, tail, t, rfl, isSeparator, derives'⟩ := first
      obtain ⟨rfl, passes⟩ := terminal_iff.mp isSeparator
      refine .inr ⟨front, t, tail ++ back', a, a' :: rest', ?_, rfl, derives, passes, ?_⟩
      · rw [List.singleton_append, List.cons_append]
      · exact ⟨tail, back', a', rfl, derives', back', [], rest', (List.append_nil _).symm, later,
          rfl, rfl⟩
  · rintro (⟨a, rfl, derives⟩ | ⟨front, t, _, a, _, rfl, rfl, derives, passes, list⟩)
    · exact ⟨used, [], a, (List.append_nil _).symm, derives, [], [], [], rfl, .done, rfl, rfl⟩
    · obtain ⟨tail, _, a', rfl, derives', back, _, rest, rfl, later, rfl, rfl⟩ := list
      refine ⟨front, t :: (tail ++ (back ++ [])), a, rfl, derives, t :: (tail ++ back), [], a' :: rest,
        ?_, ?_, rfl, rfl⟩
      · rw [List.append_nil, List.append_nil]
      · rw [← List.cons_append]
        exact .more ⟨[t], tail, t, rfl, terminal_iff.mpr ⟨rfl, passes⟩, derives'⟩ later

variable (implements : Implements isEnd mid item rule) (notEnd : ∀ t, test t = true → ¬ isEnd t)
  (goesOn : ∀ t, test t = true → mid t) (stops : ∀ t, stop t → mid t ∧ test t = false)

private theorem separatedRounds_cons {rounds : Nat} {word middle : List τ} {a : α} {t : τ}
    (first : item word = some (.ok a, t :: middle)) :
    separatedRounds test item (rounds + 1) word =
      if test t then (do
          let rest ← separatedRounds test item rounds
          pure (a :: rest) : Parser τ ε (List α)) middle
      else some (.ok [a], t :: middle) := by
  rw [separatedRounds, bind_ok first, bind_ok (check_cons test t)]
  cases test t <;> rfl

include implements in
private theorem separatedRounds_sound {rounds : Nat} {word rest : List τ}
    (ran : separatedRounds test item rounds word = some (.ok all, rest)) :
    ∃ used, word = used ++ rest ∧ separated test rule used all := by
  induction rounds generalizing word all with
  | zero => cases ran
  | succ rounds ih =>
    obtain ⟨a, middle, first, again⟩ := ok_of_bind ran
    obtain ⟨front, rfl, derives⟩ := implements.sound word a middle first
    cases middle with
    | nil => cases again
    | cons t more =>
      rw [separatedRounds_cons first] at ran
      cases passes : test t with
      | false =>
        rw [passes] at ran
        cases ran
        exact ⟨front, rfl, separated_iff.mpr (.inl ⟨a, rfl, derives⟩)⟩
      | true =>
        rw [if_pos passes] at ran
        obtain ⟨later, rest', round, last⟩ := ok_of_bind ran
        cases last
        obtain ⟨back, rfl, list⟩ := ih round
        refine ⟨front ++ t :: back, by simp, separated_iff.mpr (.inr ?_)⟩
        exact ⟨front, t, back, a, later, rfl, rfl, derives, passes, list⟩

include implements goesOn stops in
theorem separatedRounds_complete {rounds : Nat} {rest : List τ} (enough : used.length < rounds)
    (derives : separated test rule used all) (follows : Next stop rest) :
    separatedRounds test item rounds (used ++ rest) = some (.ok all, rest) := by
  induction rounds generalizing used all with
  | zero => cases enough
  | succ rounds ih =>
    rcases separated_iff.mp derives with ⟨a, rfl, isItem⟩ |
      ⟨front, t, back, a, later, rfl, rfl, isItem, passes, list⟩
    · obtain ⟨t, more, rfl, isStop⟩ := follows
      obtain ⟨isMid, fails⟩ := stops t isStop
      rw [separatedRounds_cons (implements.complete used a _ isItem ⟨t, more, rfl, isMid⟩), fails]
      rfl
    · have first := implements.complete front a (t :: (back ++ rest)) isItem
        ⟨t, _, rfl, goesOn t passes⟩
      rw [List.append_assoc, List.cons_append, separatedRounds_cons first, if_pos passes]
      rw [List.length_append, List.length_cons] at enough
      rw [bind_ok (ih (by omega) list)]
      rfl

include implements notEnd in
private theorem separatedRounds_stays {rounds : Nat} {word : List τ} (enough : word.length < rounds)
    (ends : Ends isEnd word) : ∃ result rest,
      separatedRounds test item rounds word = some (result, rest) ∧ Ends isEnd rest ∧
        rest <:+ word := by
  induction rounds generalizing word with
  | zero => cases enough
  | succ rounds ih =>
    obtain ⟨result, middle, first, ends', suffix⟩ := implements.stays word ends
    cases result with
    | error e => exact ⟨.error e, middle, bind_error first, ends', suffix⟩
    | ok a =>
      obtain ⟨t, more, rfl, later⟩ := Ends.cons ends'
      rw [separatedRounds_cons first]
      cases passes : test t with
      | false => exact ⟨_, _, rfl, ends', suffix⟩
      | true =>
        have shorter := suffix.length_le
        rw [List.length_cons] at shorter
        obtain ⟨result, rest, ran, ends'', suffix'⟩ :=
          ih (by omega) (later (notEnd t passes))
        have inside : rest <:+ word := (suffix'.trans (List.suffix_cons t more)).trans suffix
        rw [if_pos rfl]
        cases result with
        | error e => exact ⟨_, rest, bind_error ran, ends'', inside⟩
        | ok rest' => exact ⟨_, rest, bind_ok ran, ends'', inside⟩

include implements notEnd goesOn stops in
theorem implements_separated :
    Implements isEnd stop (loop (separatedRounds test item)) (separated test rule) := by
  refine ⟨fun word all rest ran => separatedRounds_sound implements ran, ?_, ?_⟩
  · intro used all rest derives follows
    refine separatedRounds_complete implements goesOn stops ?_ derives follows
    rw [List.length_append]
    omega
  · intro word ends
    exact separatedRounds_stays implements notEnd (Nat.lt_succ_self _) ends

/-- The items of the loop begin with the token that it tests for. -/
theorem whileRounds_cons (rounds : Nat) (t : τ) (rest : List τ) :
    whileRounds test item (rounds + 1) (t :: rest) =
      if test t then (do
          let first ← item
          let rest ← whileRounds test item rounds
          pure (first :: rest) : Parser τ ε (List α)) (t :: rest)
      else some (.ok [], t :: rest) := by
  rw [whileRounds, bind_ok (check_cons test t)]
  cases test t <;> rfl

include implements in
private theorem whileRounds_sound {rounds : Nat} {word rest : List τ}
    (ran : whileRounds test item rounds word = some (.ok all, rest)) :
    ∃ used, word = used ++ rest ∧ repeated rule used all := by
  induction rounds generalizing word all with
  | zero => cases ran
  | succ rounds ih =>
    cases word with
    | nil => cases ran
    | cons t more =>
      rw [whileRounds_cons] at ran
      split at ran
      · obtain ⟨a, middle, first, again⟩ := ok_of_bind ran
        obtain ⟨front, split, derives⟩ := implements.sound _ a middle first
        obtain ⟨later, rest', round, last⟩ := ok_of_bind again
        cases last
        obtain ⟨back, rfl, list⟩ := ih round
        exact ⟨front ++ back, by rw [split, List.append_assoc], .more derives list⟩
      · cases ran
        exact ⟨[], rfl, .done⟩

variable (begins : Begins rule (test · = true) fun _ => True) (consumes : Consumes rule)

include implements goesOn stops begins consumes in
private theorem whileRounds_complete {rounds : Nat} {rest : List τ} (enough : used.length < rounds)
    (derives : repeated rule used all) (follows : Next stop rest) :
    whileRounds test item rounds (used ++ rest) = some (.ok all, rest) := by
  induction rounds generalizing used all with
  | zero => cases enough
  | succ rounds ih =>
    cases derives with
    | done =>
      obtain ⟨t, more, rfl, isStop⟩ := follows
      rw [List.nil_append, whileRounds_cons, (stops t isStop).2]
      rfl
    | @more front back a later first list =>
      have next : Next mid (back ++ rest) := by
        refine begins_repeated (begins.mono goesOn) (fun t isStop => ?_) back later rest list follows
        exact (stops t isStop).1
      obtain ⟨t, tail, same, passes⟩ := begins front a (back ++ rest) first (next.imp fun _ _ => trivial)
      have ran := implements.complete front a (back ++ rest) first next
      rw [List.append_assoc]
      rw [same] at ran ⊢
      rw [whileRounds_cons, if_pos passes, bind_ok ran]
      have shorter : back.length < rounds := by
        cases front with
        | nil => exact absurd first (consumes a)
        | cons _ _ =>
          rw [List.length_append, List.length_cons] at enough
          omega
      rw [bind_ok (ih shorter list)]
      rfl

include implements consumes in
private theorem whileRounds_stays {rounds : Nat} {word : List τ} (enough : word.length < rounds)
    (ends : Ends isEnd word) : ∃ result rest,
      whileRounds test item rounds word = some (result, rest) ∧ Ends isEnd rest ∧
        rest <:+ word := by
  induction rounds generalizing word with
  | zero => cases enough
  | succ rounds ih =>
    obtain ⟨t, more, rfl, -⟩ := Ends.cons ends
    rw [whileRounds_cons]
    split
    · obtain ⟨result, middle, first, ends', suffix⟩ := implements.stays _ ends
      cases result with
      | error e => exact ⟨.error e, middle, bind_error first, ends', suffix⟩
      | ok a =>
        obtain ⟨front, split, derives⟩ := implements.sound _ a middle first
        have shorter : middle.length < rounds := by
          have length := congrArg List.length split
          rw [List.length_append] at length
          cases front with
          | nil => exact absurd derives (consumes a)
          | cons _ _ =>
            simp only [List.length_cons] at length enough
            omega
        rw [bind_ok first]
        obtain ⟨result, rest, ran, ends'', suffix'⟩ := ih shorter ends'
        cases result with
        | error e => exact ⟨_, rest, bind_error ran, ends'', suffix'.trans suffix⟩
        | ok later => exact ⟨_, rest, bind_ok ran, ends'', suffix'.trans suffix⟩
    · exact ⟨_, _, rfl, ends, List.suffix_rfl⟩

include implements goesOn stops begins consumes in
theorem implements_while :
    Implements isEnd stop (loop (whileRounds test item)) (repeated rule) := by
  refine ⟨fun word all rest ran => whileRounds_sound implements ran, ?_, ?_⟩
  · intro used all rest derives follows
    refine whileRounds_complete implements goesOn stops begins consumes ?_ derives follows
    rw [List.length_append]
    omega
  · intro word ends
    exact whileRounds_stays implements consumes (Nat.lt_succ_self _) ends

end Loops

end Parser

end Labdb.Data
