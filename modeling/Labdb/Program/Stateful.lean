import Mathlib.Data.List.Basic

/-! Programs over a memory that an exception leaves as it is by then, and such programs that
simulate another over a smaller memory. -/

namespace Labdb.Program

abbrev Stateful (ε σ : Type) := ExceptT ε (StateM σ)

namespace Stateful

variable {ε σ τ α β : Type}

def runOn (program : Stateful ε σ α) (memory : σ) : Except ε α × σ := program.run memory

/-- The memory after a run, however it ends. -/
def leaves (program : Stateful ε σ α) (memory : σ) : σ := (program.runOn memory).2

theorem runOn_get_bind (next : σ → Stateful ε σ β) (memory : σ) :
    (get >>= next : Stateful ε σ β).runOn memory = (next memory).runOn memory := rfl

theorem runOn_bind_ok {program : Stateful ε σ α} {next : α → Stateful ε σ β} {value : α}
    {memory memory' : σ} (ran : program.runOn memory = (.ok value, memory')) :
    (program >>= next).runOn memory = (next value).runOn memory' := by
  have step : (program >>= next).runOn memory =
      ExceptT.bindCont next (program.runOn memory).1 (program.runOn memory).2 := rfl
  rw [step, ran]
  rfl

theorem runOn_bind_error {program : Stateful ε σ α} {next : α → Stateful ε σ β} {error : ε}
    {memory memory' : σ} (ran : program.runOn memory = (.error error, memory')) :
    (program >>= next).runOn memory = (.error error, memory') := by
  have step : (program >>= next).runOn memory =
      ExceptT.bindCont next (program.runOn memory).1 (program.runOn memory).2 := rfl
  rw [step, ran]
  rfl

theorem runOn_map_ok {program : Stateful ε σ α} {value : α} {memory memory' : σ} (f : α → β)
    (ran : program.runOn memory = (.ok value, memory')) :
    (f <$> program).runOn memory = (.ok (f value), memory') := by
  rw [map_eq_pure_bind, runOn_bind_ok ran]
  rfl

theorem runOn_map_error {program : Stateful ε σ α} {error : ε} {memory memory' : σ} (f : α → β)
    (ran : program.runOn memory = (.error error, memory')) :
    (f <$> program).runOn memory = (.error error, memory') := by
  rw [map_eq_pure_bind, runOn_bind_error ran]

/-- Two runs end alike: both return the same value, in memories that are related so, or both
raise the same exception. -/
inductive Alike (after raised : σ → τ → Prop) : Except ε α × σ → Except ε α × τ → Prop where
  | ok (value : α) {memory : σ} {model : τ} (holds : after memory model) :
      Alike after raised (.ok value, memory) (.ok value, model)
  | error (error : ε) {memory : σ} {model : τ} (holds : raised memory model) :
      Alike after raised (.error error, memory) (.error error, model)

/-- How two runs end that end alike. -/
theorem Alike.same {after raised : σ → τ → Prop} {ending : Except ε α × σ} {model : Except ε α × τ}
    (alike : Alike after raised ending model) : ending.1 = model.1 := by
  cases alike with
  | ok value _ => rfl
  | error error _ => rfl

theorem Alike.bind {before after raised : σ → τ → Prop} {program : Stateful ε σ α}
    {spec : Stateful ε τ α} {next : α → Stateful ε σ β} {nextSpec : α → Stateful ε τ β} {memory : σ}
    {model : τ} (first : Alike before raised (program.runOn memory) (spec.runOn model))
    (then_ : ∀ value memory' model', before memory' model' →
      Alike after raised ((next value).runOn memory') ((nextSpec value).runOn model')) :
    Alike after raised ((program >>= next).runOn memory) ((spec >>= nextSpec).runOn model) := by
  generalize ran : program.runOn memory = ending at first
  generalize ranSpec : spec.runOn model = endingSpec at first
  cases first with
  | ok value related =>
    rw [runOn_bind_ok ran, runOn_bind_ok ranSpec]
    exact then_ value _ _ related
  | error error related =>
    rw [runOn_bind_error ran, runOn_bind_error ranSpec]
    exact .error error related

theorem Alike.leaves {after : σ → τ → Prop} {program : Stateful ε σ α} {spec : Stateful ε τ α}
    {memory : σ} {model : τ} (alike : Alike after after (program.runOn memory) (spec.runOn model)) :
    after (program.leaves memory) (spec.leaves model) := by
  unfold Stateful.leaves
  generalize program.runOn memory = ending at alike
  generalize spec.runOn model = endingSpec at alike
  cases alike with
  | ok value related => exact related
  | error error related => exact related

/-- From memories that are related, the programs end alike. -/
def Simulates (before after raised : σ → τ → Prop) (program : Stateful ε σ α)
    (spec : Stateful ε τ α) : Prop :=
  ∀ memory model, before memory model → Alike after raised (program.runOn memory) (spec.runOn model)

section Simulates

variable {before between after raised : σ → τ → Prop}

theorem Simulates.pure (value : α) :
    Simulates before before raised (pure value : Stateful ε σ α) (Pure.pure value) :=
  fun _ _ holds => .ok value holds

theorem Simulates.throw (error : ε) :
    Simulates before after before (throw error : Stateful ε σ α) (MonadExcept.throw error) :=
  fun _ _ holds => .error error holds

theorem Simulates.bind {program : Stateful ε σ α} {spec : Stateful ε τ α}
    {next : α → Stateful ε σ β} {nextSpec : α → Stateful ε τ β}
    (first : Simulates before between raised program spec)
    (then_ : ∀ value, Simulates between after raised (next value) (nextSpec value)) :
    Simulates before after raised (program >>= next) (spec >>= nextSpec) := by
  intro memory model holds
  have ended := first memory model holds
  generalize ran : program.runOn memory = ending at ended
  generalize ranSpec : spec.runOn model = endingSpec at ended
  cases ended with
  | ok value related =>
    rw [runOn_bind_ok ran, runOn_bind_ok ranSpec]
    exact then_ value _ _ related
  | error error related =>
    rw [runOn_bind_error ran, runOn_bind_error ranSpec]
    exact .error error related

theorem Simulates.mono {program : Stateful ε σ α} {spec : Stateful ε τ α}
    {after' raised' : σ → τ → Prop} (simulates : Simulates before after raised program spec)
    (returned : ∀ memory model, after memory model → after' memory model)
    (excepted : ∀ memory model, raised memory model → raised' memory model) :
    Simulates before after' raised' program spec := by
  intro memory model holds
  have ended := simulates memory model holds
  generalize program.runOn memory = ending at *
  generalize spec.runOn model = endingSpec at *
  cases ended with
  | ok value related => exact .ok value (returned _ _ related)
  | error error related => exact .error error (excepted _ _ related)

/-- Related memories are left related, however the programs end. -/
theorem Simulates.leaves {program : Stateful ε σ α} {spec : Stateful ε τ α}
    (simulates : Simulates before after after program spec) {memory : σ} {model : τ}
    (holds : before memory model) : after (program.leaves memory) (spec.leaves model) :=
  (simulates memory model holds).leaves

end Simulates

end Stateful

end Labdb.Program
