import Mathlib.Data.List.Basic

/-! Grammars whose words have a meaning, and parsers of them that look ahead and never go
back: each way to build a rule has its way to build a parser. -/

namespace Labdb.Data

/-- A nonterminal: the words that it derives, and what each of them means. -/
def Rule (τ α : Type) := List τ → α → Prop

namespace Rule

variable {τ α β : Type}

def empty (a : α) : Rule τ α := fun word b => word = [] ∧ b = a

/-- No word at all. -/
def nothing : Rule τ α := fun _ _ => False

/-- A word of the first, then one of the next. -/
def andThen (first : Rule τ α) (next : α → Rule τ β) : Rule τ β := fun word b =>
  ∃ front back a, word = front ++ back ∧ first front a ∧ next a back b

instance : Monad (Rule τ) where
  pure := empty
  bind := andThen

theorem pure_bind (a : α) (next : α → Rule τ β) : (pure a >>= next) = next a := by
  funext word b
  refine propext ⟨?_, fun derives => ⟨[], word, a, rfl, ⟨rfl, rfl⟩, derives⟩⟩
  rintro ⟨_, back, _, rfl, ⟨rfl, rfl⟩, derives⟩
  exact derives

theorem bind_assoc {γ : Type} (rule : Rule τ α) (next : α → Rule τ β) (last : β → Rule τ γ) :
    (rule >>= next >>= last) = rule >>= fun a => next a >>= last := by
  funext word c
  apply propext
  constructor
  · rintro ⟨_, back, b, rfl, ⟨front, middle, a, rfl, derives, derives'⟩, derives''⟩
    exact ⟨front, middle ++ back, a, List.append_assoc _ _ _, derives, middle, back, b, rfl,
      derives', derives''⟩
  · rintro ⟨front, _, a, rfl, derives, middle, back, b, rfl, derives', derives''⟩
    exact ⟨front ++ middle, back, b, (List.append_assoc _ _ _).symm,
      ⟨front, middle, a, rfl, derives, derives'⟩, derives''⟩

/-- One token, of those that mean something. -/
def token (means : τ → Option α) : Rule τ α := fun word a => ∃ t, word = [t] ∧ means t = some a

/-- One token that passes a test. -/
def terminal (test : τ → Bool) : Rule τ τ := token fun t => if test t then some t else none

def either (one other : Rule τ α) : Rule τ α := fun word a => one word a ∨ other word a

/-- Any number of items. -/
inductive Repeated (item : Rule τ α) : List τ → List α → Prop where
  | done : Repeated item [] []
  | more {front back : List τ} {a : α} {rest : List α} (first : item front a)
      (later : Repeated item back rest) : Repeated item (front ++ back) (a :: rest)

def repeated (item : Rule τ α) : Rule τ (List α) := Repeated item

/-- One item or more, with a separator between each two. -/
def separated (separator : τ → Bool) (item : Rule τ α) : Rule τ (List α) := do
  let first ← item
  let rest ← repeated do
    let _ ← terminal separator
    item
  pure (first :: rest)

/-- The next token is one of some. -/
def Next (some_ : τ → Prop) (word : List τ) : Prop := ∃ t rest, word = t :: rest ∧ some_ t

/-- What the words of a rule begin with, where an empty one is followed by a `stop`. -/
def Begins (rule : Rule τ α) (starts stop : τ → Prop) : Prop :=
  ∀ word a rest, rule word a → Next stop rest → Next starts (word ++ rest)

section Begins

variable {starts stop mid : τ → Prop} {rule other : Rule τ α} {next : α → Rule τ β}

theorem Next.imp {word : List τ} (implies : ∀ t, starts t → stop t) (is : Next starts word) :
    Next stop word := by
  obtain ⟨t, rest, rfl, here⟩ := is
  exact ⟨t, rest, rfl, implies t here⟩

theorem Begins.mono {starts' : τ → Prop} (begins : Begins rule starts stop)
    (implies : ∀ t, starts t → starts' t) : Begins rule starts' stop := fun word a rest derives follows =>
  (begins word a rest derives follows).imp implies

theorem begins_any : Begins rule (fun _ => True) stop := by
  rintro word a rest - ⟨t, more, rfl, -⟩
  cases word with
  | nil => exact ⟨t, more, rfl, trivial⟩
  | cons first tail => exact ⟨first, _, rfl, trivial⟩

theorem begins_token {means : τ → Option α} (each : ∀ t a, means t = some a → starts t) :
    Begins (token means) starts stop := by
  rintro word a rest ⟨t, rfl, isMeaning⟩ -
  exact ⟨t, rest, rfl, each t a isMeaning⟩

theorem begins_terminal {test : τ → Bool} (each : ∀ t, test t = true → starts t) :
    Begins (terminal test) starts stop := by
  refine begins_token fun t a isMeaning => each t ?_
  by_contra fails
  rw [if_neg fails] at isMeaning
  cases isMeaning

theorem begins_pure {a : α} (implies : ∀ t, stop t → starts t) :
    Begins (pure a : Rule τ α) starts stop := by
  rintro word b rest ⟨rfl, -⟩ follows
  exact follows.imp implies

theorem begins_nothing : Begins (nothing : Rule τ α) starts stop := fun _ _ _ derives => derives.elim

theorem begins_either (one : Begins rule starts stop) (two : Begins other starts stop) :
    Begins (either rule other) starts stop := by
  rintro word a rest (derives | derives) follows
  · exact one word a rest derives follows
  · exact two word a rest derives follows

theorem begins_bind (first : Begins rule starts mid) (later : ∀ a, Begins (next a) mid stop) :
    Begins (rule >>= next) starts stop := by
  rintro word b rest ⟨front, back, a, rfl, derives, derives'⟩ follows
  rw [List.append_assoc]
  exact first front a _ derives (later a back b rest derives' follows)

/-- What a first word begins with, whatever comes after. -/
theorem begins_first (first : Begins rule starts fun _ => True) : Begins (rule >>= next) starts stop :=
  begins_bind first fun _ => begins_any

theorem begins_repeated (item : Begins rule starts fun _ => True) (implies : ∀ t, stop t → starts t) :
    Begins (repeated rule) starts stop := by
  rintro word all rest derives follows
  cases derives with
  | done => exact follows.imp implies
  | more first later =>
    rw [List.append_assoc]
    refine item _ _ _ first ?_
    exact begins_any _ _ rest later follows

end Begins

/-- A rule that derives no empty word. -/
def Consumes (rule : Rule τ α) : Prop := ∀ a, ¬ rule [] a

theorem consumes_token {means : τ → Option α} : Consumes (token means) := by
  rintro a ⟨t, none_, -⟩
  cases none_

theorem consumes_bind {rule : Rule τ α} {next : α → Rule τ β} (first : Consumes rule) :
    Consumes (rule >>= next) := by
  rintro b ⟨front, back, a, none_, derives, -⟩
  obtain ⟨rfl, rfl⟩ := List.append_eq_nil_iff.mp none_.symm
  exact first a derives

theorem consumes_later {rule : Rule τ α} {next : α → Rule τ β} (later : ∀ a, Consumes (next a)) :
    Consumes (rule >>= next) := by
  rintro b ⟨front, back, a, none_, -, derives⟩
  obtain ⟨rfl, rfl⟩ := List.append_eq_nil_iff.mp none_.symm
  exact later a b derives

end Rule

/-- A parser takes tokens off a list and ends with a value or an error; there is no result
where it reads past the end of the list, or a loop of it runs out of rounds. -/
def Parser (τ ε α : Type) := List τ → Option (Except ε α × List τ)

namespace Parser

variable {τ ε α β : Type}

def andThen (first : Parser τ ε α) (next : α → Parser τ ε β) : Parser τ ε β := fun word =>
  match first word with
  | none => none
  | some (.error e, rest) => some (.error e, rest)
  | some (.ok a, rest) => next a rest

instance : Monad (Parser τ ε) where
  pure a := fun word => some (.ok a, word)
  bind := andThen

/-- The next token. -/
def peek : Parser τ ε τ
  | [] => none
  | t :: rest => some (.ok t, t :: rest)

/-- The token after the next one, or the next one where it is the last. -/
def peekNext : Parser τ ε τ
  | [] => none
  | [t] => some (.ok t, [t])
  | t :: u :: rest => some (.ok u, t :: u :: rest)

/-- The next token, taken off. -/
def advance : Parser τ ε τ
  | [] => none
  | t :: rest => some (.ok t, rest)

/-- An error at the next token. -/
def fail (error : τ → ε) : Parser τ ε α
  | [] => none
  | t :: rest => some (.error (error t), t :: rest)

/-- An error that was found before. -/
def raise (error : ε) : Parser τ ε α := fun word => some (.error error, word)

def check (test : τ → Bool) : Parser τ ε Bool := do
  let t ← peek
  pure (test t)

def expect (test : τ → Bool) (error : τ → ε) : Parser τ ε τ := do
  if ← check test then advance else fail error

/-- A loop, with as many rounds as there are tokens and one more. -/
def loop (rounds : Nat → Parser τ ε α) : Parser τ ε α := fun word => rounds (word.length + 1) word

/-- Items, as long as the next token begins one. -/
def whileRounds (test : τ → Bool) (item : Parser τ ε α) : Nat → Parser τ ε (List α)
  | 0 => fun _ => none
  | rounds + 1 => do
    if ← check test then
      let first ← item
      let rest ← whileRounds test item rounds
      pure (first :: rest)
    else pure []

/-- An item, and one more after each separator. -/
def separatedRounds (separator : τ → Bool) (item : Parser τ ε α) : Nat → Parser τ ε (List α)
  | 0 => fun _ => none
  | rounds + 1 => do
    let first ← item
    if ← check separator then
      let _ ← advance
      let rest ← separatedRounds separator item rounds
      pure (first :: rest)
    else pure [first]

end Parser

end Labdb.Data
