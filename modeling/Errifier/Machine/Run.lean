/-!
# Runs of a partial step function

A machine is a step function `step : σ → ε → Option σ`: the state `s` refuses
the event `e` when `step s e = none`. This module names no machine. It says what
a run is, what it means that a property holds of every state of a run (`Along`)
and that every step of a run meets a condition (`Steps`), and gives the
induction rules by which an invariant of one step becomes one of a whole run, and a
simulation of one step one of a whole run.
-/
namespace Errifier.Machine

set_option autoImplicit false

section Runs
variable {σ ε : Type} (step : σ → ε → Option σ)

/-- Follow the events in order; `none` as soon as one is refused. -/
def run : σ → List ε → Option σ
  | s, [] => some s
  | s, e :: es => (step s e).bind fun s' => run s' es

/-- `P` holds of every state the run passes through, the first one included. -/
def Along (P : σ → Prop) : σ → List ε → Prop
  | s, [] => P s
  | s, e :: es => P s ∧ ∀ s' ∈ step s e, Along P s' es

/-- Every step that the run takes meets the condition `C` on the state it is
taken from and its event. -/
def Steps (C : σ → ε → Prop) : σ → List ε → Prop
  | _, [] => True
  | s, e :: es => ∀ s' ∈ step s e, C s e ∧ Steps C s' es

/-- `s` is reached from `start` by some run. -/
def Reachable (start s : σ) : Prop := ∃ es, run step start es = some s

/-- `s` is reached from `start` by a run whose steps all meet `C`. -/
def ReachableBy (C : σ → ε → Prop) (start s : σ) : Prop :=
  ∃ es, run step start es = some s ∧ Steps step C start es

instance decidableSteps (C : σ → ε → Prop) [∀ s e, Decidable (C s e)] :
    ∀ s es, Decidable (Steps step C s es)
  | _, [] => isTrue trivial
  | s, e :: es =>
    have : ∀ s', Decidable (Steps step C s' es) := fun s' => decidableSteps C s' es
    inferInstanceAs (Decidable (∀ s' ∈ step s e, C s e ∧ Steps step C s' es))

variable {step}

theorem run_cons {s : σ} {e : ε} {es : List ε} {t : σ} (h : run step s (e :: es) = some t) :
    ∃ s', step s e = some s' ∧ run step s' es = some t :=
  Option.bind_eq_some_iff.mp h

theorem run_append {s t u : σ} {es fs : List ε} (h : run step s es = some t)
    (h' : run step t fs = some u) : run step s (es ++ fs) = some u := by
  induction es generalizing s with
  | nil => obtain rfl := Option.some.inj h; exact h'
  | cons e es ih =>
    obtain ⟨s', hs, ht⟩ := run_cons h
    exact Option.bind_eq_some_iff.mpr ⟨s', hs, ih ht⟩

theorem Along.first {P : σ → Prop} {s : σ} {es : List ε} (h : Along step P s es) : P s := by
  cases es with
  | nil => exact h
  | cons e es => exact h.1

/-- What holds along a run holds of the state it ends in. -/
theorem Along.last {P : σ → Prop} {s t : σ} {es : List ε} (h : Along step P s es)
    (hr : run step s es = some t) : P t := by
  induction es generalizing s with
  | nil => obtain rfl := Option.some.inj hr; exact h
  | cons e es ih =>
    obtain ⟨s', hs, ht⟩ := run_cons hr
    exact ih (h.2 s' hs) ht

theorem Along.mono {P Q : σ → Prop} (hPQ : ∀ s, P s → Q s) {s : σ} {es : List ε}
    (h : Along step P s es) : Along step Q s es := by
  induction es generalizing s with
  | nil => exact hPQ s h
  | cons e es ih => exact ⟨hPQ s h.1, fun s' hs => ih (h.2 s' hs)⟩

/-- The induction rule for conditional invariants: what holds first and is
kept by every step that meets `C` holds along every run of such steps. -/
theorem Steps.along {C : σ → ε → Prop} {I : σ → Prop}
    (keep : ∀ s e s', I s → C s e → step s e = some s' → I s') {s : σ} {es : List ε}
    (h : Steps step C s es) (hI : I s) : Along step I s es := by
  induction es generalizing s with
  | nil => exact hI
  | cons e es ih =>
    refine ⟨hI, fun s' hs => ?_⟩
    obtain ⟨hC, hrest⟩ := h s' hs
    exact ih hrest (keep s e s' hI hC hs)

/-- The unconditional rule. -/
theorem along {I : σ → Prop} (keep : ∀ s e s', I s → step s e = some s' → I s') {s : σ}
    (hI : I s) (es : List ε) : Along step I s es := by
  induction es generalizing s with
  | nil => exact hI
  | cons e es ih => exact ⟨hI, fun s' hs => ih (keep s e s' hI hs)⟩

/-- An invariant of one step holds in every reachable state. -/
theorem Reachable.invariant {I : σ → Prop} (keep : ∀ s e s', I s → step s e = some s' → I s')
    {start s : σ} (hI : I start) (h : Reachable step start s) : I s := by
  obtain ⟨es, h⟩ := h
  exact (along keep hI es).last h

/-- A conditional invariant holds in every state reached by steps that meet the
condition. -/
theorem ReachableBy.invariant {C : σ → ε → Prop} {I : σ → Prop}
    (keep : ∀ s e s', I s → C s e → step s e = some s' → I s') {start s : σ} (hI : I start)
    (h : ReachableBy step C start s) : I s := by
  obtain ⟨es, hr, hC⟩ := h
  exact (hC.along keep hI).last hr

/-- The exact rule. `I` is an invariant of the steps that meet `D`. Where such a step from
a state with `P` keeps `P` exactly when it meets `C`, a run of such steps has `P` all along
exactly when all of them meet `C`. -/
theorem Steps.along_iff {C D : σ → ε → Prop} {I P : σ → Prop}
    (inv : ∀ s e s', I s → D s e → step s e = some s' → I s')
    (exact : ∀ s e s', I s → P s → D s e → step s e = some s' → (P s' ↔ C s e))
    {s : σ} {es : List ε} (h : Steps step D s es) (hI : I s) (hP : P s) :
    Along step P s es ↔ Steps step C s es := by
  induction es generalizing s with
  | nil => exact ⟨fun _ => trivial, fun _ => hP⟩
  | cons e es ih =>
    constructor
    · intro hP' s' hs
      obtain ⟨hD, hrest⟩ := h s' hs
      have hnext := (hP'.2 s' hs).first
      exact ⟨(exact s e s' hI hP hD hs).mp hnext, (ih hrest (inv s e s' hI hD hs) hnext).mp (hP'.2 s' hs)⟩
    · intro hC
      refine ⟨hP, fun s' hs => ?_⟩
      obtain ⟨hD, hrest⟩ := h s' hs
      obtain ⟨hC, hCs⟩ := hC s' hs
      have hnext := (exact s e s' hI hP hD hs).mpr hC
      exact (ih hrest (inv s e s' hI hD hs) hnext).mpr hCs

/-- Two conditions that the steps of a run meet they meet together. -/
theorem Steps.and {C D : σ → ε → Prop} {s : σ} {es : List ε} (h : Steps step C s es)
    (h' : Steps step D s es) : Steps step (fun s e => C s e ∧ D s e) s es := by
  induction es generalizing s with
  | nil => trivial
  | cons e es ih =>
    intro s' hs
    obtain ⟨hC, hrest⟩ := h s' hs
    obtain ⟨hD, hrest'⟩ := h' s' hs
    exact ⟨⟨hC, hD⟩, ih hrest hrest'⟩

theorem steps_of_all {C : σ → ε → Prop} (h : ∀ s e, C s e) (s : σ) (es : List ε) :
    Steps step C s es := by
  induction es generalizing s with
  | nil => trivial
  | cons e es ih => exact fun s' _ => ⟨h s e, ih s'⟩

/-- The exact rule for all runs. -/
theorem along_iff_steps {C : σ → ε → Prop} {I P : σ → Prop}
    (inv : ∀ s e s', I s → step s e = some s' → I s')
    (exact : ∀ s e s', I s → P s → step s e = some s' → (P s' ↔ C s e))
    {s : σ} (hI : I s) (hP : P s) (es : List ε) :
    Along step P s es ↔ Steps step C s es :=
  Steps.along_iff (D := fun _ _ => True) (fun s e s' hI _ hs => inv s e s' hI hs)
    (fun s e s' hI hP _ hs => exact s e s' hI hP hs) (steps_of_all (fun _ _ => trivial) s es) hI hP

section Simulation
variable {τ φ : Type}

/-- Forward simulation: a step of the first machine is matched, from every related
state, by a run of the second, which may be empty. -/
def Simulates (step : σ → ε → Option σ) (step' : τ → φ → Option τ) (R : σ → τ → Prop) : Prop :=
  ∀ s e s' v, R s v → step s e = some s' → ∃ fs v', run step' v fs = some v' ∧ R s' v'

/-- In every state of every run of the first machine the second has come to a related
one. -/
theorem Simulates.along {step' : τ → φ → Option τ} {R : σ → τ → Prop}
    (h : Simulates step step' R) {s : σ} {v : τ} (hR : R s v) (es : List ε) :
    Along step (fun s => ∃ w, Reachable step' v w ∧ R s w) s es := by
  refine Machine.along (fun s e s' hI hs => ?_) ⟨v, ⟨[], rfl⟩, hR⟩ es
  obtain ⟨w, ⟨fs, hfs⟩, hR⟩ := hI
  obtain ⟨gs, w', hgs, hR'⟩ := h s e s' w hR hs
  exact ⟨w', ⟨fs ++ gs, run_append hfs hgs⟩, hR'⟩

end Simulation

end Runs

end Errifier.Machine
