import Errifier.Client.Rows

/-!
# One libnotify for all watchers

`notify_init` sets one flag for the process and `notify_uninit` clears it; each
watcher calls both as if the flag were its own. It stays set for everybody who
relies on it exactly when no watcher uninitialises before the last user is gone.
-/
namespace Errifier.Client

set_option autoImplicit false

open Errifier.Text Errifier.Machine

/-- Past its `notify_init`, and in the loop or in the catch block before its own
`notify_uninit`. -/
def Pc.usesNotify : Pc → Bool
  | .loop | .test | .call | .show | .errShow | .errUninit => true
  | _ => false

def Pc.uninits : Pc → Bool
  | .errUninit | .uninit => true
  | _ => false

/-- What a step of a watcher does to the flag, and whether it relies on it next. -/
theorem startWatch_notify {cells : List Int} {model : List Row} {a : WatchArgs}
    {reply : Option Int} {pc : Pc} {k : Effect} (hk : startWatch cells model a reply pc = some k) :
    (pc = .init ∧ k.initted = some true) ∨
      (pc.uninits = true ∧ k.initted = some false ∧ k.pc.usesNotify = false) ∨
      (pc.uninits = false ∧ k.initted = none ∧
        (k.pc.usesNotify = true → pc.usesNotify = true)) := by
  cases acts_of_startWatch hk with
  | inits => exact Or.inl ⟨rfl, rfl⟩
  | errUninits | uninits => exact Or.inr (Or.inl ⟨rfl, rfl, rfl⟩)
  | loops | tests | replied | thrown | shows | errShows =>
    exact Or.inr (Or.inr ⟨rfl, rfl, fun _ => rfl⟩)
  | _ => exact Or.inr (Or.inr ⟨rfl, rfl, fun h => by cases h⟩)

/-- Notifications are shown by users of the library only. -/
theorem usesNotify_of_notice {cells : List Int} {model : List Row} {a : WatchArgs}
    {reply : Option Int} {pc : Pc} {k : Effect} {n : Notice}
    (hk : startWatch cells model a reply pc = some k) (hn : k.notice = some n) :
    pc.usesNotify = true := by
  cases acts_of_startWatch hk with
  | shows | errShows => rfl
  | _ => cases hn

/-- Whoever relies on libnotify finds it initialised. -/
def Initialised (s : State) : Prop := ∀ w ∈ s.watchers, w.pc.usesNotify = true → s.initted = true

/-- In such a state a notification is shown by an initialised library only. -/
theorem initialised_of_shown {s s' : State} {t : Nat} {reply : Option Int} (h : Initialised s)
    (hs : step s (.watcher t reply) = some s') (hshown : s'.shown ≠ s.shown) :
    s.initted = true := by
  obtain ⟨w, k, hw, hk, rfl⟩ := step_watcher hs
  cases hn : k.notice with
  | none =>
    refine absurd ?_ hshown
    rw [State.advance, hn]
    exact List.append_nil _
  | some n => exact h w (List.mem_of_getElem? hw) (usesNotify_of_notice hk hn)

/-- A watcher that calls `notify_uninit` is the last one to rely on libnotify. -/
def LastUser (s : State) : Event → Prop
  | .watcher t _ => ∀ w ∈ s.watchers[t]?, w.pc.uninits = true →
      ∀ v ∈ s.watchers.eraseIdx t, v.pc.usesNotify = false
  | _ => True

theorem initialised_advance {s : State} {t : Nat} {reply : Option Int} {w : Watcher} {k : Effect}
    (h : Initialised s) (hw : s.watchers[t]? = some w)
    (hk : startWatch s.serv.cells s.model w.args reply w.pc = some k) :
    Initialised (s.advance t w k) ↔ LastUser s (.watcher t reply) := by
  have hmem : ∀ v, v ∈ (s.advance t w k).watchers ↔
      v = { w with pc := k.pc } ∨ v ∈ s.watchers.eraseIdx t := fun v => mem_set_iff hw
  have hflag : (s.advance t w k).initted = k.initted.getD s.initted := rfl
  unfold Initialised LastUser
  dsimp only
  rw [hw, hflag]
  simp only [Option.mem_some_iff, forall_eq', hmem]
  rcases startWatch_notify hk with ⟨hpc, hi⟩ | ⟨hpc, hi, hk'⟩ | ⟨hpc, hi, hk'⟩
  · rw [hi, hpc]
    constructor
    · intro _ hu
      cases hu
    · intro _ _ _ _
      rfl
  · rw [hi]
    simp only [Option.getD_some, hpc, Bool.false_eq_true, imp_false, Bool.not_eq_true,
      forall_const]
    constructor
    · intro hall v hv
      exact hall v (Or.inr hv)
    · rintro hall v (rfl | hv)
      · exact hk'
      · exact hall v hv
  · rw [hi]
    constructor
    · intro _ hu
      rw [hpc] at hu
      cases hu
    · rintro _ v (rfl | hv) hv'
      · exact h w (List.mem_of_getElem? hw) (hk' hv')
      · exact h v (List.mem_of_mem_eraseIdx hv) hv'

theorem initialised_step {s s' : State} {e : Event} (h : Initialised s)
    (hs : step s e = some s') : Initialised s' ↔ LastUser s e := by
  have append : ∀ w : Watcher, w.pc = .init →
      ∀ v ∈ s.watchers ++ [w], v.pc.usesNotify = true → s.initted = true := by
    intro w hw v hv huse
    rcases List.mem_append.mp hv with hv | hv
    · exact h v hv huse
    · obtain rfl := List.mem_singleton.mp hv
      rw [hw] at huse
      cases huse
  cases move_of_step hs with
  | watched t reply w k hw hk => exact initialised_advance h hw hk
  | quiet _ ws hui he =>
    cases e with
    | watcher => cases he
    | _ => exact ⟨fun _ => trivial, fun _ => h⟩
  | crashed _ row r hui he =>
    cases e with
    | watcher => cases he
    | _ => exact ⟨fun _ => trivial, fun _ => h⟩
  | started => exact ⟨fun _ => trivial, fun _ => append _ rfl⟩
  | respawned => exact ⟨fun _ => trivial, fun _ => append _ rfl⟩
  | _ => exact ⟨fun _ => trivial, fun _ => h⟩

/-- Along a run libnotify is initialised for everybody who relies on it exactly
when `notify_uninit` is called by last users only. -/
theorem initialised_iff (es : List Event) :
    Along step Initialised start es ↔ Steps step LastUser start es :=
  along_iff_steps (I := fun _ => True) (fun _ _ _ _ _ => trivial)
    (fun _ _ _ _ h hs => initialised_step h hs) trivial (fun _ hw => by cases hw) es

/-- Two watches run; the first loses its connection, the second is alarmed. -/
def oneGoesDown : List Event :=
  [.startWatch 0 ['f'] ['x'] (.found .started), .ui true,
   .startWatch 0 ['g'] ['y'] (.found .started), .ui true,
   .watcher 0 none, .watcher 0 none, .watcher 0 none, .watcher 1 none, .watcher 1 none,
   .watcher 1 none, .watcher 0 none, .watcher 0 none, .watcher 0 none, .watcher 1 (some 1)]

theorem shows_uninitialised : ∃ s w, run step start oneGoesDown = some s ∧
    s.watchers[1]? = some w ∧ w.pc = .show ∧ s.initted = false :=
  ⟨_, _, rfl, rfl, rfl, rfl⟩

end Errifier.Client
