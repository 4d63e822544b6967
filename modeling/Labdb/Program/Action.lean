import Mathlib.Logic.Relation

/-! Programs of one process over a device that outlives it. A call to the device
may be done, may fail, or may never happen because the process dies first; the
weakest precondition below covers all three at every call. -/

namespace Labdb.Program

/-- A device: what a call does to it, and what a failed call leaves behind. -/
class Device (δ : Type) (κ : outParam Type) where
  perform : κ → δ → δ
  spoil : κ → Bool → δ → δ

/-- A program's exchange with its device. A look reads the whole device; a call
is answered `true` when it was done and `false` when it failed. -/
inductive Action (δ κ α : Type) where
  | ret (value : α)
  | look (next : δ → Action δ κ α)
  | call (request : κ) (next : Bool → Action δ κ α)

/-- What becomes of one call. A failed call may leave part of itself behind. -/
inductive Fate where
  | done
  | fails (torn : Bool)
  | dies
  deriving DecidableEq, Repr

/-- No call fails; a death may still come. -/
def Calm (fates : List Fate) : Prop := ∀ torn, Fate.fails torn ∉ fates

theorem calm_nil : Calm [] := fun _ => List.not_mem_nil

namespace Action

variable {δ κ α β : Type}

def bind : Action δ κ α → (α → Action δ κ β) → Action δ κ β
  | .ret value, next => next value
  | .look rest, next => .look fun device => (rest device).bind next
  | .call request rest, next => .call request fun answer => (rest answer).bind next

variable [Device δ κ]

/-- Run under a schedule of fates; past its end every call is done. The result
is missing when the process died, at a call or just before it returned. -/
def run : Action δ κ α → List Fate → δ → Option α × δ
  | .ret _, .dies :: _, device => (none, device)
  | .ret value, _, device => (some value, device)
  | .look next, fates, device => (next device).run fates device
  | .call request next, [], device => (next true).run [] (Device.perform request device)
  | .call request next, .done :: fates, device =>
      (next true).run fates (Device.perform request device)
  | .call request next, .fails torn :: fates, device =>
      (next false).run fates (Device.spoil request torn device)
  | .call _ _, .dies :: _, device => (none, device)

/-- The schedule lets a call fail only where `may` permits it. -/
def Permits (may : κ → δ → Prop) : Action δ κ α → List Fate → δ → Prop
  | .ret _, _, _ => True
  | .look next, fates, device => (next device).Permits may fates device
  | .call request next, [], device =>
      (next true).Permits may [] (Device.perform request device)
  | .call request next, .done :: fates, device =>
      (next true).Permits may fates (Device.perform request device)
  | .call request next, .fails torn :: fates, device =>
      may request device ∧ (next false).Permits may fates (Device.spoil request torn device)
  | .call _ _, .dies :: _, _ => True

/-- Every call that the run makes meets a rule. -/
def Obeys (rule : κ → δ → Prop) : Action δ κ α → List Fate → δ → Prop
  | .ret _, _, _ => True
  | .look next, fates, device => (next device).Obeys rule fates device
  | .call request next, [], device =>
      rule request device ∧ (next true).Obeys rule [] (Device.perform request device)
  | .call request next, .done :: fates, device =>
      rule request device ∧ (next true).Obeys rule fates (Device.perform request device)
  | .call request next, .fails torn :: fates, device =>
      rule request device ∧ (next false).Obeys rule fates (Device.spoil request torn device)
  | .call _ _, .dies :: _, _ => True

instance decidableObeys (rule : κ → δ → Prop) [∀ request device, Decidable (rule request device)] :
    (action : Action δ κ α) → (fates : List Fate) → (device : δ) →
      Decidable (action.Obeys rule fates device)
  | .ret _, _, _ => isTrue (by simp [Obeys])
  | .look next, fates, device => decidableObeys rule (next device) fates device
  | .call request next, [], device =>
      have := decidableObeys rule (next true) [] (Device.perform request device)
      inferInstanceAs (Decidable (rule request device ∧ _))
  | .call request next, .done :: fates, device =>
      have := decidableObeys rule (next true) fates (Device.perform request device)
      inferInstanceAs (Decidable (rule request device ∧ _))
  | .call request next, .fails torn :: fates, device =>
      have := decidableObeys rule (next false) fates (Device.spoil request torn device)
      inferInstanceAs (Decidable (rule request device ∧ _))
  | .call _ _, .dies :: _, _ => isTrue trivial

/-- Every way the program can go from `device` ends in `post`, and every call it
makes on the way meets `asks`. A program that dies, dies at such a call. -/
def wp (may : κ → δ → Prop) :
    Action δ κ α → (α → δ → Prop) → (κ → δ → Prop) → δ → Prop
  | .ret value, post, _, device => post value device
  | .look next, post, asks, device => (next device).wp may post asks device
  | .call request next, post, asks, device =>
      asks request device ∧ (next true).wp may post asks (Device.perform request device) ∧
        (may request device → ∀ torn,
          (next false).wp may post asks (Device.spoil request torn device))

theorem wp_mono {may : κ → δ → Prop} {post post' : α → δ → Prop} {asks asks' : κ → δ → Prop}
    (ending : ∀ value device, post value device → post' value device)
    (asking : ∀ request device, asks request device → asks' request device)
    {action : Action δ κ α} {device : δ} (valid : action.wp may post asks device) :
    action.wp may post' asks' device := by
  induction action generalizing device with
  | ret value => exact ending value device valid
  | look next ih => exact ih device valid
  | call request next ih =>
    obtain ⟨before, performed, failed⟩ := valid
    exact ⟨asking request device before, ih true performed,
      fun allowed torn => ih false (failed allowed torn)⟩

theorem wp_bind {may : κ → δ → Prop} {post : β → δ → Prop} {asks : κ → δ → Prop}
    {action : Action δ κ α} {next : α → Action δ κ β} {device : δ} :
    (action.bind next).wp may post asks device ↔
      action.wp may (fun value => (next value).wp may post asks) asks device := by
  induction action generalizing device with
  | ret value => exact Iff.rfl
  | look rest ih => exact ih device
  | call request rest ih => simp only [bind, wp, ih]

theorem wp_and {may : κ → δ → Prop} {post post' : α → δ → Prop} {asks asks' : κ → δ → Prop}
    {action : Action δ κ α} {device : δ} (first : action.wp may post asks device)
    (second : action.wp may post' asks' device) :
    action.wp may (fun value device => post value device ∧ post' value device)
      (fun request device => asks request device ∧ asks' request device) device := by
  induction action generalizing device with
  | ret value => exact ⟨first, second⟩
  | look next ih => exact ih device first second
  | call request next ih =>
    exact ⟨⟨first.1, second.1⟩, ih true first.2.1 second.2.1, fun allowed torn =>
      ih false (first.2.2 allowed torn) (second.2.2 allowed torn)⟩

/-- A run under a permitted schedule ends as the weakest precondition says. A
process may also die after its last call, so the ending must imply `crash`. -/
theorem run_of_wp {may : κ → δ → Prop} {post : α → δ → Prop} {asks : κ → δ → Prop}
    {crash : δ → Prop} {action : Action δ κ α} {fates : List Fate} {device : δ}
    (ending : ∀ value device, post value device → crash device)
    (dying : ∀ request device, asks request device → crash device)
    (valid : action.wp may post asks device) (permitted : action.Permits may fates device) :
    match action.run fates device with
    | (some value, after) => post value after
    | (none, after) => crash after := by
  induction action generalizing device fates with
  | ret value =>
    rcases fates with _ | ⟨_ | _ | _, fates⟩
    · exact valid
    · exact valid
    · exact valid
    · exact ending value device valid
  | look next ih => exact ih device valid permitted
  | call request next ih =>
    obtain ⟨before, performed, failed⟩ := valid
    rcases fates with _ | ⟨_ | torn | _, fates⟩
    · exact ih true performed permitted
    · exact ih true performed permitted
    · exact ih false (failed permitted.1 torn) permitted.2
    · exact dying request device before

/-- One call that meets `asks` leads from the one device to the other. -/
def Moves (asks : κ → δ → Prop) (device device' : δ) : Prop :=
  ∃ request, asks request device ∧ device' = Device.perform request device

/-- A run in which no call fails goes from call to call, each as it was asked. -/
theorem reaches_of_wp {may : κ → δ → Prop} {post : α → δ → Prop} {asks : κ → δ → Prop}
    {action : Action δ κ α} {fates : List Fate} {device : δ}
    (valid : action.wp may post asks device) (calm : Calm fates) :
    Relation.ReflTransGen (Moves asks) device (action.run fates device).2 := by
  induction action generalizing device fates with
  | ret value => rcases fates with _ | ⟨_ | _ | _, fates⟩ <;> exact .refl
  | look next ih => exact ih device valid calm
  | call request next ih =>
    obtain ⟨before, performed, _⟩ := valid
    rcases fates with _ | ⟨_ | torn | _, fates⟩
    · exact .head ⟨request, before, rfl⟩ (ih true performed calm)
    · refine .head ⟨request, before, rfl⟩ (ih true performed ?_)
      exact fun torn member => calm torn (List.mem_cons_of_mem _ member)
    · exact absurd (List.mem_cons_self ..) (calm torn)
    · exact .refl

/-- What every call keeps that is asked for and obeys a rule holds wherever the run ends. -/
theorem invariant_of_wp {may : κ → δ → Prop} {post : α → δ → Prop} {asks rule : κ → δ → Prop}
    {invariant : δ → Prop} {action : Action δ κ α} {fates : List Fate} {device : δ}
    (valid : action.wp may post asks device) (calm : Calm fates)
    (obeys : action.Obeys rule fates device) (start : invariant device)
    (keeps : ∀ request device, asks request device → rule request device → invariant device →
      invariant (Device.perform request device)) : invariant (action.run fates device).2 := by
  induction action generalizing device fates with
  | ret value => rcases fates with _ | ⟨_ | _ | _, fates⟩ <;> exact start
  | look next ih => exact ih device valid calm obeys start
  | call request next ih =>
    obtain ⟨before, performed, _⟩ := valid
    rcases fates with _ | ⟨_ | torn | _, fates⟩
    · exact ih true performed calm obeys.2 (keeps request device before obeys.1 start)
    · refine ih true performed ?_ obeys.2 (keeps request device before obeys.1 start)
      exact fun torn member => calm torn (List.mem_cons_of_mem _ member)
    · exact absurd (List.mem_cons_self ..) (calm torn)
    · exact start

/-- Where no death is scheduled the program comes to its end. -/
theorem run_nil {action : Action δ κ α} {device : δ} :
    ∃ value after, action.run [] device = (some value, after) := by
  induction action generalizing device with
  | ret value => exact ⟨value, device, rfl⟩
  | look next ih => exact ih device
  | call request next ih => exact ih true

/-- A program that makes no call returns what it has, unless it dies. -/
theorem run_ret {value result : α} {fates : List Fate} {device device' : δ}
    (ended : (.ret value : Action δ κ α).run fates device = (some result, device')) :
    result = value ∧ device' = device := by
  rcases fates with _ | ⟨_ | torn | _, fates⟩ <;> cases ended <;> exact ⟨rfl, rfl⟩

/-- Every schedule is permitted where any call may fail. -/
theorem permits_any {action : Action δ κ α} {fates : List Fate} {device : δ} :
    action.Permits (fun _ _ => True) fates device := by
  induction action generalizing device fates with
  | ret value => trivial
  | look next ih => exact ih device
  | call request next ih =>
    rcases fates with _ | ⟨_ | torn | _, fates⟩
    · exact ih true
    · exact ih true
    · exact ⟨trivial, ih false⟩
    · trivial

/-- A schedule in which no call fails is permitted everywhere. -/
theorem permits_of_calm {may : κ → δ → Prop} {action : Action δ κ α} {fates : List Fate}
    {device : δ} (calm : Calm fates) :
    action.Permits may fates device := by
  induction action generalizing device fates with
  | ret value => trivial
  | look next ih => exact ih device calm
  | call request next ih =>
    rcases fates with _ | ⟨_ | torn | _, fates⟩
    · exact ih true calm
    · exact ih true fun torn member => calm torn (List.mem_cons_of_mem _ member)
    · exact absurd (List.mem_cons_self ..) (calm torn)
    · trivial

end Action

end Labdb.Program
