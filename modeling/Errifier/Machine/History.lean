import Errifier.Machine.Run

/-!
# What a run records

An observer of a machine: `log s e` is what the step from `s` by `e` records, and
`history` is what a run records, in order. Two rules take facts about one step to
facts about a history. A step that pays for its records out of a potential bounds
their number; a step that does to an abstraction of the state what its records do
makes the history tell what the run leads to.
-/
namespace Errifier.Machine

set_option autoImplicit false

section History
variable {σ ε ω : Type} (step : σ → ε → Option σ) (log : σ → ε → List ω)

/-- The records of the steps that the run takes. -/
def history : σ → List ε → List ω
  | _, [] => []
  | s, e :: es => (step s e).elim [] fun s' => log s e ++ history s' es

variable {step log}

theorem history_cons {s s' : σ} {e : ε} (h : step s e = some s') (es : List ε) :
    history step log s (e :: es) = log s e ++ history step log s' es := by
  rw [history, h]
  rfl

theorem history_refused {s : σ} {e : ε} (h : step s e = none) (es : List ε) :
    history step log s (e :: es) = [] := by
  rw [history, h]
  rfl

/-- The potential rule: `μ` pays for every record with `p`, as long as the run
meets `C`. -/
theorem Steps.countP_history_le {C : σ → ε → Prop} {I : σ → Prop} (μ : σ → Nat) {p : ω → Bool}
    (keep : ∀ s e s', I s → C s e → step s e = some s' → I s')
    (pay : ∀ s e s', I s → C s e → step s e = some s' → (log s e).countP p + μ s' ≤ μ s)
    {s : σ} {es : List ε} (h : Steps step C s es) (hI : I s) :
    (history step log s es).countP p ≤ μ s := by
  induction es generalizing s with
  | nil => exact Nat.zero_le _
  | cons e es ih =>
    cases hs : step s e with
    | none =>
      rw [history_refused hs]
      exact Nat.zero_le _
    | some s' =>
      obtain ⟨hC, hrest⟩ := h s' hs
      have hpay := pay s e s' hI hC hs
      have hle := ih hrest (keep s e s' hI hC hs)
      rw [history_cons hs, List.countP_append]
      omega

/-- The linearisation rule: each step that meets `C` does to `abs` what its records do. -/
theorem Steps.history_foldl {α : Type} {C : σ → ε → Prop} {I : σ → Prop} {abs : σ → α}
    {act : α → ω → α} (keep : ∀ s e s', I s → C s e → step s e = some s' → I s')
    (follow : ∀ s e s', I s → C s e → step s e = some s' → abs s' = (log s e).foldl act (abs s))
    {s t : σ} {es : List ε} (h : Steps step C s es) (hI : I s) (hr : run step s es = some t) :
    abs t = (history step log s es).foldl act (abs s) := by
  induction es generalizing s with
  | nil =>
    obtain rfl := Option.some.inj hr
    rfl
  | cons e es ih =>
    obtain ⟨s', hs, ht⟩ := run_cons hr
    obtain ⟨hC, hrest⟩ := h s' hs
    rw [history_cons hs, List.foldl_append, ← follow s e s' hI hC hs]
    exact ih hrest (keep s e s' hI hC hs) ht

/-- A condition on events alone holds of every step of a run of such events. -/
theorem steps_of_forall {C : ε → Prop} {s : σ} {es : List ε} (h : ∀ e ∈ es, C e) :
    Steps step (fun _ e => C e) s es := by
  induction es generalizing s with
  | nil => exact trivial
  | cons e es ih =>
    intro s' _
    exact ⟨h e (List.mem_cons_self ..), ih fun f hf => h f (List.mem_cons_of_mem _ hf)⟩

end History

end Errifier.Machine
