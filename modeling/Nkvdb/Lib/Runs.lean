import Mathlib

/-! Runs of a transition system.

`step e s` is the state after the event `e`, and `none` where `e` cannot happen in `s`. A
condition on events limits the runs to those whose every event meets it where it happens. -/
namespace Runs
variable {E S : Type} (step : E → S → Option S)

/-- The states reached from `s₀` by events that meet `C`. -/
inductive Reach (C : E → S → Prop) (s₀ : S) : S → Prop
  | init : Reach C s₀ s₀
  | step {s s' : S} (e : E) (h : Reach C s₀ s) (hc : C e s) (hs : step e s = some s') : Reach C s₀ s'

/-- The states reached from `s₀` by any events. -/
abbrev Reachable (s₀ : S) : S → Prop := Reach step (fun _ _ => True) s₀

variable {step}

/-- What holds at first and is kept by every event that meets `C` holds of what they reach. -/
theorem Reach.inv {C : E → S → Prop} {s₀ s : S} {I : S → Prop} (h : Reach step C s₀ s) (h₀ : I s₀)
    (hI : ∀ e s s', I s → C e s → step e s = some s' → I s') : I s := by
  induction h with
  | init => exact h₀
  | step e _ hc hs ih => exact hI e _ _ ih hc hs

variable (step)

/-- The state after the events of a list, in order. -/
def run : List E → S → Option S
  | [], s => some s
  | e :: es, s => (step e s).bind (run es)

/-- `P` holds of every state on the way. -/
def Always (P : S → Prop) : List E → S → Prop
  | [], s => P s
  | e :: es, s => P s ∧ ∀ s', step e s = some s' → Always P es s'

/-- Every event that happens on the way meets `C` where it does. -/
def Each (C : E → S → Prop) : List E → S → Prop
  | [], _ => True
  | e :: es, s => ∀ s', step e s = some s' → C e s ∧ Each C es s'

variable {step}

theorem Reach.run {C : E → S → Prop} {s₀ s s' : S} {es : List E} (h : Reach step C s₀ s) (hc : Each step C es s)
    (hr : run step es s = some s') : Reach step C s₀ s' := by
  induction es generalizing s with
  | nil =>
    obtain rfl := Option.some.inj hr
    exact h
  | cons e es ih =>
    obtain ⟨s₁, h₁, hr⟩ := Option.bind_eq_some_iff.mp hr
    obtain ⟨hce, hces⟩ := hc s₁ h₁
    exact ih (h.step e hce h₁) hces hr

theorem each_true (es : List E) (s : S) : Each step (fun _ _ => True) es s := by
  induction es generalizing s with
  | nil => trivial
  | cons e es ih => exact fun s' _ => ⟨trivial, ih s'⟩

theorem reachable_run {s₀ s : S} {es : List E} (hr : run step es s₀ = some s) : Reachable step s₀ s :=
  Reach.init.run (each_true es s₀) hr

theorem Always.head {P : S → Prop} {es : List E} {s : S} (h : Always step P es s) : P s := by
  cases es with
  | nil => exact h
  | cons e es => exact h.1

theorem Always.run {P : S → Prop} {es : List E} {s s' : S} (h : Always step P es s) (hr : run step es s = some s') :
    P s' := by
  induction es generalizing s with
  | nil =>
    obtain rfl := Option.some.inj hr
    exact h
  | cons e es ih =>
    obtain ⟨s₁, h₁, hr⟩ := Option.bind_eq_some_iff.mp hr
    exact ih (h.2 s₁ h₁) hr

/-- Where an event keeps `P` exactly if it meets `C`, a run keeps `P` exactly if all its events
meet `C`. `I` is what the states of such a run have besides. -/
theorem always_iff_each {P I : S → Prop} {C : E → S → Prop}
    (hP : ∀ e s s', I s → P s → step e s = some s' → (P s' ↔ C e s))
    (hI : ∀ e s s', I s → P s → step e s = some s' → C e s → I s') {es : List E} {s : S} (hi : I s) (hp : P s) :
    Always step P es s ↔ Each step C es s := by
  induction es generalizing s with
  | nil => exact ⟨fun _ => trivial, fun _ => hp⟩
  | cons e es ih =>
    constructor
    · rintro ⟨-, h⟩ s' hs
      have hc := (hP e s s' hi hp hs).mp (h s' hs).head
      exact ⟨hc, (ih (hI e s s' hi hp hs hc) ((hP e s s' hi hp hs).mpr hc)).mp (h s' hs)⟩
    · refine fun h => ⟨hp, fun s' hs => ?_⟩
      obtain ⟨hc, hes⟩ := h s' hs
      exact (ih (hI e s s' hi hp hs hc) ((hP e s s' hi hp hs).mpr hc)).mpr hes

end Runs
