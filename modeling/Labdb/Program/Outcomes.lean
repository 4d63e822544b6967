import Labdb.Program.Prog

/-! What a program keeps whatever becomes of its calls, and how its runs can end. -/

namespace Labdb.Program

namespace Action

variable {δ κ α : Type} [Device δ κ]

/-- Whatever becomes of the calls, some schedule of fates leads there. -/
theorem wp_run {action : Action δ κ α} {device : δ} :
    action.wp (fun _ _ => True)
      (fun value device' => ∃ fates, action.run fates device = (some value, device'))
      (fun _ _ => True) device := by
  induction action generalizing device with
  | ret value => exact ⟨[], rfl⟩
  | look next ih => exact ih device
  | call request next ih =>
    refine ⟨trivial, ?_, fun _ torn => ?_⟩
    · refine wp_mono ?_ (fun _ _ => id) (ih true)
      rintro value device' ⟨fates, ran⟩
      exact ⟨.done :: fates, ran⟩
    · refine wp_mono ?_ (fun _ _ => id) (ih false)
      rintro value device' ⟨fates, ran⟩
      exact ⟨.fails torn :: fates, ran⟩

end Action

namespace Prog

variable {δ κ ε σ τ α β : Type} [Device δ κ]

/-- Whatever becomes of its calls, the program returns in `post` or raises in `raised`. -/
abbrev Always (program : Prog δ κ ε σ α) (post : α → σ → δ → Prop) (raised : ε → σ → δ → Prop)
    (memory : σ) (device : δ) : Prop :=
  wp (fun _ _ => True) program post raised (fun _ _ => True) memory device

/-- Some schedule of fates makes the program end so. -/
def Ends (program : Prog δ κ ε σ α) (memory : σ) (device : δ) (ending : Ending ε σ α)
    (device' : δ) : Prop :=
  ∃ fates, program.run fates memory device = (ending, device')

theorem wp_ends {program : Prog δ κ ε σ α} {memory : σ} {device : δ} :
    program.Always
      (fun value memory' device' => program.Ends memory device (.returned value memory') device')
      (fun error memory' device' => program.Ends memory device (.raised error memory') device')
      memory device := by
  refine Action.wp_mono ?_ (fun _ _ => id) Action.wp_run
  rintro ⟨_ | _, _⟩ device' ⟨fates, ran⟩ <;> exact ⟨fates, by rw [run, ran]⟩

/-- However the program ends, a fact of its memory and the device is true again. -/
def Keeps (may : κ → δ → Prop) (asks : κ → δ → Prop) (fact : σ → δ → Prop)
    (program : Prog δ κ ε σ α) : Prop :=
  ∀ memory device, fact memory device →
    wp may program (fun _ => fact) (fun _ => fact) asks memory device

section Keeps

variable {may : κ → δ → Prop} {asks : κ → δ → Prop} {fact : σ → δ → Prop}

theorem Keeps.ret (value : α) : Keeps may asks fact (pure value : Prog δ κ ε σ α) :=
  fun _ _ holds => holds

theorem Keeps.raise (error : ε) : Keeps may asks fact (Prog.raise error : Prog δ κ ε σ α) :=
  fun _ _ holds => holds

theorem Keeps.get : Keeps may asks fact (Prog.get : Prog δ κ ε σ σ) := fun _ _ holds => holds

theorem Keeps.look : Keeps may asks fact (Prog.look : Prog δ κ ε σ δ) := fun _ _ holds => holds

theorem Keeps.modify {update : σ → σ}
    (keeps : ∀ memory device, fact memory device → fact (update memory) device) :
    Keeps may asks fact (Prog.modify update : Prog δ κ ε σ Unit) := keeps

theorem Keeps.bind {program : Prog δ κ ε σ α} {next : α → Prog δ κ ε σ β}
    (first : Keeps may asks fact program) (rest : ∀ value, Keeps may asks fact (next value)) :
    Keeps may asks fact (program >>= next) := by
  intro memory device holds
  rw [wp_bind]
  exact wp_mono (first memory device holds) (fun value _ _ kept => rest value _ _ kept)
    (fun _ _ _ => id) fun _ _ => id

theorem Keeps.ite {condition : Prop} [Decidable condition] {first second : Prog δ κ ε σ α}
    (whenTrue : Keeps may asks fact first) (whenFalse : Keeps may asks fact second) :
    Keeps may asks fact (if condition then first else second) := by
  split
  · exact whenTrue
  · exact whenFalse

theorem Keeps.when {condition : Prop} [Decidable condition] {program : Prog δ κ ε σ Unit}
    (keeps : Keeps may asks fact program) : Keeps may asks fact (Prog.when condition program) :=
  keeps.ite (.ret ())

end Keeps

/-- Whatever becomes of its calls, and whether it returns or raises, the program leaves a
fact of its memory true. -/
def Preserves (fact : σ → Prop) (program : Prog δ κ ε σ α) : Prop :=
  ∀ memory device, fact memory →
    program.Always (fun _ memory _ => fact memory) (fun _ memory _ => fact memory) memory device

section Preserves

variable {fact : σ → Prop}

theorem Preserves.ret (value : α) : Preserves fact (pure value : Prog δ κ ε σ α) := Keeps.ret value

theorem Preserves.raise (error : ε) : Preserves fact (Prog.raise error : Prog δ κ ε σ α) :=
  Keeps.raise error

theorem Preserves.call (request : κ) (failure : ε) :
    Preserves fact (Prog.call request failure : Prog δ κ ε σ Unit) :=
  fun _ _ holds => ⟨trivial, holds, fun _ _ => holds⟩

theorem Preserves.look : Preserves fact (Prog.look : Prog δ κ ε σ δ) := Keeps.look

theorem Preserves.set {memory : σ} (holds : fact memory) :
    Preserves fact (Prog.set memory : Prog δ κ ε σ Unit) :=
  fun _ _ _ => holds

theorem Preserves.modify {update : σ → σ} (keeps : ∀ memory, fact memory → fact (update memory)) :
    Preserves fact (Prog.modify update : Prog δ κ ε σ Unit) :=
  Keeps.modify fun memory _ => keeps memory

theorem Preserves.bind {program : Prog δ κ ε σ α} {next : α → Prog δ κ ε σ β}
    (first : Preserves fact program) (rest : ∀ value, Preserves fact (next value)) :
    Preserves fact (program >>= next) := Keeps.bind first rest

/-- What was read of the memory has the fact, too. -/
theorem Preserves.get {next : σ → Prog δ κ ε σ β}
    (rest : ∀ memory, fact memory → Preserves fact (next memory)) :
    Preserves fact (Prog.get >>= next) := by
  intro memory device holds
  rw [Always, wp_bind, wp_get]
  exact rest memory holds memory device holds

theorem Preserves.when {condition : Prop} [Decidable condition] {program : Prog δ κ ε σ Unit}
    (keeps : Preserves fact program) : Preserves fact (Prog.when condition program) :=
  Keeps.when keeps

/-- A part's program changes only the part. -/
theorem Preserves.zoom {fact : τ → Prop} {part : τ → σ} {replace : σ → τ → τ}
    {program : Prog δ κ ε σ α} (keeps : ∀ inner memory, fact memory → fact (replace inner memory)) :
    Preserves fact (Prog.zoom part replace program) := by
  intro memory device holds
  rw [Always, wp_zoom]
  exact wp_mono wp_ends (fun _ inner _ _ => keeps inner memory holds)
    (fun _ inner _ _ => keeps inner memory holds) fun _ _ => id

end Preserves

end Prog

end Labdb.Program
