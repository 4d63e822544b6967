import Labdb.Program.Stateful

/-! Programs whose memory only climbs, whatever they do and however they end. What holds where such
a program has ended, and is not lost on the way down, held wherever it came by. -/

namespace Labdb.Program.Stateful

variable {ε σ α β : Type} {memory memory' : σ}

theorem leaves_bind_ok {program : Stateful ε σ α} {next : α → Stateful ε σ β} {value : α}
    (ran : program.runOn memory = (.ok value, memory')) :
    (program >>= next).leaves memory = (next value).leaves memory' :=
  congrArg Prod.snd (runOn_bind_ok ran)

private theorem leaves_bind_error {program : Stateful ε σ α} {next : α → Stateful ε σ β} {error : ε}
    (ran : program.runOn memory = (.error error, memory')) :
    (program >>= next).leaves memory = memory' :=
  congrArg Prod.snd (runOn_bind_error ran)

theorem leaves_eq {program : Stateful ε σ α} {ending : Except ε α}
    (ran : program.runOn memory = (ending, memory')) : program.leaves memory = memory' :=
  congrArg Prod.snd ran

/-- What follows never touches the memory. -/
theorem leaves_bind_still {program : Stateful ε σ α} {next : α → Stateful ε σ β}
    (still : ∀ value memory, (next value).leaves memory = memory) :
    (program >>= next).leaves memory = program.leaves memory := by
  rcases ran : program.runOn memory with ⟨ending, memory'⟩
  rw [leaves_eq ran]
  cases ending with
  | ok value =>
    rw [leaves_bind_ok ran]
    exact still value memory'
  | error error => rw [leaves_bind_error ran]

/-- Wherever the program ends, the memory is not below what it was. -/
def Climbs (le : σ → σ → Prop) (program : Stateful ε σ α) : Prop :=
  ∀ memory, le memory (program.leaves memory)

section Rules

variable {le : σ → σ → Prop} {program : Stateful ε σ α} {next : α → Stateful ε σ β}

theorem Climbs.pure (refl : ∀ memory, le memory memory) (value : α) :
    Climbs le (Pure.pure value : Stateful ε σ α) := refl

theorem Climbs.throw (refl : ∀ memory, le memory memory) (error : ε) :
    Climbs le (MonadExcept.throw error : Stateful ε σ α) := refl

theorem Climbs.bind (trans : ∀ {a b c}, le a b → le b c → le a c) (first : Climbs le program)
    (then_ : ∀ value, Climbs le (next value)) : Climbs le (program >>= next) := by
  intro memory
  have here := first memory
  rcases ran : program.runOn memory with ⟨ending, memory'⟩
  rw [leaves_eq ran] at here
  cases ending with
  | ok value =>
    rw [leaves_bind_ok ran]
    exact trans here (then_ value memory')
  | error error =>
    rw [leaves_bind_error ran]
    exact here

/-- What holds at the end and is not lost on the way down held after the first part. -/
theorem Climbs.after_first {holds : σ → Prop} (then_ : ∀ value, Climbs le (next value))
    (down : ∀ {a b}, le a b → holds b → holds a) (ends : holds ((program >>= next).leaves memory)) :
    holds (program.leaves memory) := by
  rcases ran : program.runOn memory with ⟨ending, memory'⟩
  rw [leaves_eq ran]
  cases ending with
  | ok value =>
    rw [leaves_bind_ok ran] at ends
    exact down (then_ value memory') ends
  | error error =>
    rw [leaves_bind_error ran] at ends
    exact ends

end Rules

end Labdb.Program.Stateful
