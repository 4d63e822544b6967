import Labdb.Program.Action

/-! Stateful programs with exceptions over a device, and the rules for their
weakest preconditions. The memory survives a raised exception, as the members of
an object do, and is lost when the process dies. -/

namespace Labdb.Program

/-- A program of one process: it owns the memory `σ` and may raise an `ε`. -/
def Prog (δ κ ε σ α : Type) : Type := σ → Action δ κ (Except ε α × σ)

namespace Prog

variable {δ κ ε σ τ α β : Type}

instance : Monad (Prog δ κ ε σ) where
  pure value := fun memory => .ret (.ok value, memory)
  bind first next := fun memory => (first memory).bind fun
    | (.ok value, memory) => next value memory
    | (.error error, memory) => .ret (.error error, memory)

def get : Prog δ κ ε σ σ := fun memory => .ret (.ok memory, memory)

def set (memory : σ) : Prog δ κ ε σ Unit := fun _ => .ret (.ok (), memory)

def modify (update : σ → σ) : Prog δ κ ε σ Unit := fun memory => .ret (.ok (), update memory)

def raise (error : ε) : Prog δ κ ε σ α := fun memory => .ret (.error error, memory)

def look : Prog δ κ ε σ δ := fun memory => .look fun device => .ret (.ok device, memory)

/-- Make a call; a call that fails raises `failure`. -/
def call (request : κ) (failure : ε) : Prog δ κ ε σ Unit := fun memory =>
  .call request fun
    | true => .ret (.ok (), memory)
    | false => .ret (.error failure, memory)

/-- Run a program only where a condition holds. -/
def when (condition : Prop) [Decidable condition] (program : Prog δ κ ε σ Unit) :
    Prog δ κ ε σ Unit :=
  if condition then program else pure ()

/-- Run a part's program inside the whole that owns the part. -/
def zoom (part : τ → σ) (replace : σ → τ → τ) (program : Prog δ κ ε σ α) : Prog δ κ ε τ α :=
  fun memory => (program (part memory)).bind fun (result, inner) =>
    .ret (result, replace inner memory)

/-- Run a program and drop whatever exception it raises. -/
def swallow (program : Prog δ κ ε σ Unit) : Prog δ κ ε σ Unit := fun memory =>
  (program memory).bind fun (_, memory) => .ret (.ok (), memory)

variable [Device δ κ]

/-- From `memory` and `device` the program returns in `post` or raises in `raised`,
and every call it makes meets `asks`. -/
def wp (may : κ → δ → Prop) (program : Prog δ κ ε σ α) (post : α → σ → δ → Prop)
    (raised : ε → σ → δ → Prop) (asks : κ → δ → Prop) (memory : σ) (device : δ) : Prop :=
  (program memory).wp may (fun
    | (.ok value, memory), device => post value memory device
    | (.error error, memory), device => raised error memory device) asks device

section Rules

variable {may : κ → δ → Prop} {post : α → σ → δ → Prop} {raised : ε → σ → δ → Prop}
variable {asks : κ → δ → Prop} {memory : σ} {device : δ}

@[simp] theorem wp_pure {value : α} :
    wp may (pure value : Prog δ κ ε σ α) post raised asks memory device ↔
      post value memory device := Iff.rfl

@[simp] theorem wp_raise {error : ε} :
    wp may (raise error : Prog δ κ ε σ α) post raised asks memory device ↔
      raised error memory device := Iff.rfl

@[simp] theorem wp_get {post : σ → σ → δ → Prop} :
    wp may (get : Prog δ κ ε σ σ) post raised asks memory device ↔
      post memory memory device := Iff.rfl

@[simp] theorem wp_set {post : Unit → σ → δ → Prop} {after : σ} :
    wp may (set after : Prog δ κ ε σ Unit) post raised asks memory device ↔
      post () after device := Iff.rfl

@[simp] theorem wp_modify {post : Unit → σ → δ → Prop} {update : σ → σ} :
    wp may (modify update : Prog δ κ ε σ Unit) post raised asks memory device ↔
      post () (update memory) device := Iff.rfl

@[simp] theorem wp_look {post : δ → σ → δ → Prop} :
    wp may (look : Prog δ κ ε σ δ) post raised asks memory device ↔
      post device memory device := Iff.rfl

@[simp] theorem wp_call {post : Unit → σ → δ → Prop} {request : κ} {failure : ε} :
    wp may (call request failure : Prog δ κ ε σ Unit) post raised asks memory device ↔
      asks request device ∧ post () memory (Device.perform request device) ∧
        (may request device → ∀ torn,
          raised failure memory (Device.spoil request torn device)) := Iff.rfl

@[simp] theorem wp_bind {program : Prog δ κ ε σ α} {next : α → Prog δ κ ε σ β}
    {post : β → σ → δ → Prop} :
    wp may (program >>= next) post raised asks memory device ↔
      wp may program (fun value => wp may (next value) post raised asks)
        raised asks memory device := by
  refine Action.wp_bind.trans ?_
  constructor
  · refine Action.wp_mono ?_ fun _ _ => id
    rintro ⟨_ | _, _⟩ _ valid <;> exact valid
  · refine Action.wp_mono ?_ fun _ _ => id
    rintro ⟨_ | _, _⟩ _ valid <;> exact valid

theorem wp_zoom {part : τ → σ} {replace : σ → τ → τ} {program : Prog δ κ ε σ α}
    {post : α → τ → δ → Prop} {raised : ε → τ → δ → Prop} {memory : τ} :
    wp may (zoom part replace program) post raised asks memory device ↔
      wp may program (fun value inner => post value (replace inner memory))
        (fun error inner => raised error (replace inner memory)) asks
        (part memory) device := by
  refine Action.wp_bind.trans ?_
  constructor
  · refine Action.wp_mono ?_ fun _ _ => id
    rintro ⟨_ | _, _⟩ _ valid <;> exact valid
  · refine Action.wp_mono ?_ fun _ _ => id
    rintro ⟨_ | _, _⟩ _ valid <;> exact valid

theorem wp_swallow {program : Prog δ κ ε σ Unit} {post : Unit → σ → δ → Prop} :
    wp may (swallow program) post raised asks memory device ↔
      wp may program post (fun _ => post ()) asks memory device := by
  refine Action.wp_bind.trans ?_
  constructor
  · refine Action.wp_mono ?_ fun _ _ => id
    rintro ⟨_ | _, _⟩ _ valid <;> exact valid
  · refine Action.wp_mono ?_ fun _ _ => id
    rintro ⟨_ | _, _⟩ _ valid <;> exact valid

/-- The rule of conjunction. -/
theorem wp_and {program : Prog δ κ ε σ α} {post' : α → σ → δ → Prop}
    {raised' : ε → σ → δ → Prop} {asks' : κ → δ → Prop}
    (first : wp may program post raised asks memory device)
    (second : wp may program post' raised' asks' memory device) :
    wp may program (fun value memory device => post value memory device ∧ post' value memory device)
      (fun error memory device => raised error memory device ∧ raised' error memory device)
      (fun request device => asks request device ∧ asks' request device) memory device := by
  refine Action.wp_mono ?_ (fun _ _ => id) (Action.wp_and first second)
  rintro ⟨_ | _, _⟩ _ holds <;> exact holds

/-- The rule of consequence. -/
theorem wp_mono {program : Prog δ κ ε σ α} {post' : α → σ → δ → Prop}
    {raised' : ε → σ → δ → Prop} {asks' : κ → δ → Prop}
    (valid : wp may program post raised asks memory device)
    (returning : ∀ value memory device, post value memory device → post' value memory device)
    (raising : ∀ error memory device, raised error memory device → raised' error memory device)
    (asking : ∀ request device, asks request device → asks' request device) :
    wp may program post' raised' asks' memory device := by
  refine Action.wp_mono ?_ asking valid
  rintro ⟨_ | _, _⟩ _ holds
  · exact raising _ _ _ holds
  · exact returning _ _ _ holds

@[simp] theorem wp_ite {condition : Prop} [Decidable condition]
    {first second : Prog δ κ ε σ α} :
    wp may (if condition then first else second) post raised asks memory device ↔
      if condition then wp may first post raised asks memory device
      else wp may second post raised asks memory device := by
  split <;> rfl

@[simp] theorem wp_when {condition : Prop} [Decidable condition] {program : Prog δ κ ε σ Unit}
    {post : Unit → σ → δ → Prop} :
    wp may (when condition program) post raised asks memory device ↔
      if condition then wp may program post raised asks memory device
      else post () memory device := by
  unfold when
  split <;> rfl

end Rules

/-- How a run of a program ended. -/
inductive Ending (ε σ α : Type) where
  | returned (value : α) (memory : σ)
  | raised (error : ε) (memory : σ)
  | died

def Ending.value? : Ending ε σ α → Option α
  | .returned value _ => some value
  | _ => none

/-- What an exception has left of the memory. -/
def Ending.raised? : Ending ε σ α → Option σ
  | .raised _ memory => some memory
  | _ => none

/-- Run a program under a schedule of fates. -/
def run (program : Prog δ κ ε σ α) (fates : List Fate) (memory : σ) (device : δ) :
    Ending ε σ α × δ :=
  match (program memory).run fates device with
  | (some (.ok value, memory), device) => (.returned value memory, device)
  | (some (.error error, memory), device) => (.raised error memory, device)
  | (none, device) => (.died, device)

/-- An ending and the device it left are as three conditions say. -/
def Meets (post : α → σ → δ → Prop) (raised : ε → σ → δ → Prop) (crash : δ → Prop) :
    Ending ε σ α × δ → Prop
  | (.returned value memory, device) => post value memory device
  | (.raised error memory, device) => raised error memory device
  | (.died, device) => crash device

def Permits (may : κ → δ → Prop) (program : Prog δ κ ε σ α) (fates : List Fate)
    (memory : σ) (device : δ) : Prop :=
  (program memory).Permits may fates device

/-- Every call that the run makes meets a rule. -/
def Obeys (rule : κ → δ → Prop) (program : Prog δ κ ε σ α) (fates : List Fate)
    (memory : σ) (device : δ) : Prop :=
  (program memory).Obeys rule fates device

instance (rule : κ → δ → Prop) [∀ request device, Decidable (rule request device)]
    (program : Prog δ κ ε σ α) (fates : List Fate) (memory : σ) (device : δ) :
    Decidable (Obeys rule program fates memory device) :=
  inferInstanceAs (Decidable ((program memory).Obeys rule fates device))

section Adequacy

variable {may : κ → δ → Prop} {program : Prog δ κ ε σ α} {fates : List Fate}
variable {post : α → σ → δ → Prop} {raised : ε → σ → δ → Prop} {asks : κ → δ → Prop}
variable {crash : δ → Prop} {memory : σ} {device : δ}

/-- Adequacy: a run under a permitted schedule ends as `wp` says. -/
theorem run_of_wp (valid : wp may program post raised asks memory device)
    (permitted : Permits may program fates memory device)
    (returning : ∀ value memory device, post value memory device → crash device)
    (raising : ∀ error memory device, raised error memory device → crash device)
    (dying : ∀ request device, asks request device → crash device) :
    Meets post raised crash (run program fates memory device) := by
  have ended := Action.run_of_wp ?_ dying valid permitted
  · revert ended
    unfold run
    rcases (program memory).run fates device with ⟨_ | ⟨_ | _, _⟩, _⟩ <;> exact id
  · rintro ⟨_ | _, _⟩ _ holds
    · exact raising _ _ _ holds
    · exact returning _ _ _ holds

/-- A run in which any call may fail or be the last. -/
theorem run_of_wp_any (valid : wp (fun _ _ => True) program post raised asks memory device) :
    Meets post raised (fun _ => True) (run program fates memory device) :=
  run_of_wp valid Action.permits_any (fun _ _ _ _ => trivial) (fun _ _ _ _ => trivial)
    fun _ _ _ => trivial

/-- A run in which no call fails. -/
theorem run_of_wp_calm (valid : wp may program post raised asks memory device)
    (calm : Calm fates)
    (returning : ∀ value memory device, post value memory device → crash device)
    (raising : ∀ error memory device, raised error memory device → crash device)
    (dying : ∀ request device, asks request device → crash device) :
    Meets post raised crash (run program fates memory device) :=
  run_of_wp valid (Action.permits_of_calm calm) returning raising dying

/-- A run in which no call fails goes from call to call, each as it was asked. -/
theorem reaches_of_wp (valid : wp may program post raised asks memory device)
    (calm : Calm fates) :
    Relation.ReflTransGen (Action.Moves asks) device (run program fates memory device).2 := by
  have reached := Action.reaches_of_wp valid calm
  revert reached
  unfold run
  rcases (program memory).run fates device with ⟨_ | ⟨_ | _, _⟩, _⟩ <;> exact id

theorem invariant_of_wp {rule : κ → δ → Prop} {invariant : δ → Prop}
    (valid : wp may program post raised asks memory device) (calm : Calm fates)
    (obeys : Obeys rule program fates memory device) (start : invariant device)
    (keeps : ∀ request device, asks request device → rule request device → invariant device →
      invariant (Device.perform request device)) :
    invariant (run program fates memory device).2 := by
  have kept := Action.invariant_of_wp valid calm obeys start keeps
  revert kept
  unfold run
  rcases (program memory).run fates device with ⟨_ | ⟨_ | _, _⟩, _⟩ <;> exact id

/-- A run left alone comes to an end. -/
theorem run_of_wp_nil (valid : wp may program post raised asks memory device) :
    Meets post raised (fun _ => False) (run program [] memory device) := by
  have ended := run_of_wp_calm valid calm_nil (fun _ _ _ _ => trivial) (fun _ _ _ _ => trivial)
    fun _ _ _ => trivial
  obtain ⟨value, after, same⟩ : ∃ value after, (program memory).run [] device = (some value, after) :=
    Action.run_nil
  revert ended
  unfold run
  rw [same]
  rcases value with ⟨_ | _, _⟩ <;> exact id

/-- A program that can end in one way only, left alone, ends so. -/
theorem run_eq_of_wp {value : α} {memory' : σ} {device' : δ}
    (valid : wp may program
      (fun result after left => result = value ∧ after = memory' ∧ left = device')
      (fun _ _ _ => False) asks memory device) :
    run program [] memory device = (.returned value memory', device') := by
  have ended := run_of_wp_nil valid
  generalize run program [] memory device = ending at ended ⊢
  rcases ending with ⟨_ | _ | _, _⟩
  · obtain ⟨rfl, rfl, rfl⟩ := ended
    rfl
  · exact ended.elim
  · exact ended.elim

end Adequacy

end Prog

end Labdb.Program
