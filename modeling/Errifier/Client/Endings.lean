import Errifier.Client.Alignment
import Errifier.Client.Entries
import Errifier.Machine.History

/-!
# Handlers return and watchers end

How much is left of a handler in progress is a number that each of its own steps
lowers and no step of a watcher raises; so is what is left of a watcher that is on
its way out, for as long as the table has no more than so many rows. A watcher that
may not run has at most its present call to finish and one alarm to show.
-/
namespace Errifier.Client

set_option autoImplicit false

open Errifier.Text Errifier.Machine

/-- The steps that the handler in progress has left, at most. -/
def State.uiLeft (s : State) : Nat :=
  match s.ui with
  | .idle | .crashed | .escaped => 0
  | .append _ | .pausing _ | .resuming _ | .reconnected _ => 1
  | .lock _ | .unlock _ | .respawn _ _ => 2
  | .reconnect _ _ => 3
  | .clicked _ _ => 4
  | .removeThreads _ i => s.serv.threadList.length - i + s.model.length + 2
  | .removeRows _ i => s.model.length - i + 1

/-- The handler's steps among those of a run. -/
def handlerSteps (_ : State) : Event → List Bool
  | .ui ok => [ok]
  | _ => []

theorem uiLeft_advance {s : State} (t : Nat) (w : Watcher) {k : Effect}
    (h : ∀ i ∈ k.mark, i < s.model.length) : (s.advance t w k).uiLeft = s.uiLeft := by
  unfold State.uiLeft
  rw [ui_advance, length_of_map (plain_advance t w h)]
  rfl

/-- The loops of a removal shorten their list or advance their index. -/
theorem uiLeft_move {s s' : State} {e : Event} (h : Move s e s') (he : e.handler = false)
    (hC : InTable s e) : (handlerSteps s e).length + s'.uiLeft ≤ s.uiLeft := by
  cases h with
  | quiet _ ws hui hh => rw [hh] at he; cases he
  | crashed _ row r hui hclick => rw [handler_of_clicks hclick] at he; cases he
  | listed | removing | unstarted | started | escaped | clicked => cases he
  | threadErased ok n i thread hui ht hname =>
    obtain ⟨hlt, -⟩ := List.getElem?_eq_some_iff.mp ht
    simp only [handlerSteps, State.uiLeft, hui, List.length_eraseIdx_of_lt hlt, List.length_singleton]
    omega
  | threadKept ok n i thread hui ht hname =>
    obtain ⟨hlt, -⟩ := List.getElem?_eq_some_iff.mp ht
    simp only [handlerSteps, State.uiLeft, hui, List.length_singleton]
    omega
  | rowErased ok n i row hui hr hname =>
    obtain ⟨hlt, -⟩ := List.getElem?_eq_some_iff.mp hr
    simp only [handlerSteps, State.uiLeft, hui, List.length_eraseIdx_of_lt hlt, List.length_singleton]
    omega
  | rowKept ok n i row hui hr hname =>
    obtain ⟨hlt, -⟩ := List.getElem?_eq_some_iff.mp hr
    simp only [handlerSteps, State.uiLeft, hui, List.length_singleton]
    omega
  | threadsDone ok n i hui ht =>
    simp only [handlerSteps, State.uiLeft, hui, List.length_singleton]
    omega
  | gaveUp ok ws hui =>
    rcases hui with ⟨r, hui, -⟩ | ⟨r, hui, -⟩ | ⟨r, ip, hui⟩ | ⟨r, ip, hui⟩ <;>
      simp [handlerSteps, State.uiLeft, hui]
  | activated ok rowid hui =>
    rcases hui with hui | hui <;> simp [handlerSteps, State.uiLeft, hui]
  | watched t reply w k hw hk =>
    rw [uiLeft_advance t w (mark_inTable hC hw hk)]
    exact Nat.le_of_eq (Nat.zero_add _)
  -- one step of a handler that only moves on
  | _ => simp [handlerSteps, State.uiLeft, *]

/-- In a consistent state the threads that a removal still has to look at are no
more than the rows. -/
theorem uiLeft_le {s : State} (h : Consistent s) : s.uiLeft ≤ 2 * s.model.length + 4 := by
  have hthreads : ∀ n i, s.ui = .removeThreads n i → s.serv.threadList.length ≤ s.model.length := by
    intro n i hui
    have ha := h.aligned
    simp only [Aligned, hui] at ha
    have hlen := ha.1.length_le
    rwa [List.length_map] at hlen
  cases hui : s.ui with
  | removeThreads n i =>
    have hle := hthreads n i hui
    simp only [State.uiLeft, hui]
    omega
  | removeRows n i =>
    simp only [State.uiLeft, hui]
    omega
  | _ => simp [State.uiLeft, hui]

/-- Every handler in progress has a next step, however what it needs comes out. -/
theorem isSome_uiStep {s : State} (hidle : s.ui ≠ .idle) (hcrashed : s.ui ≠ .crashed)
    (hescaped : s.ui ≠ .escaped) (ok : Bool) : (s.uiStep ok).isSome = true := by
  cases hui : s.ui with
  | idle => exact absurd hui hidle
  | crashed => exact absurd hui hcrashed
  | escaped => exact absurd hui hescaped
  | removeThreads n i =>
    simp only [State.uiStep, hui]
    split <;> rfl
  | removeRows n i =>
    simp only [State.uiStep, hui]
    split <;> rfl
  | clicked r ip =>
    simp only [State.uiStep, hui]
    split
    · rfl
    · split <;> rfl
  | lock r | unlock r =>
    simp only [State.uiStep, hui]
    split <;> rfl
  | reconnect r ip | respawn r ip =>
    simp only [State.uiStep, hui]
    split
    · rfl
    · split <;> rfl
  | append | pausing | resuming | reconnected => simp only [State.uiStep, hui, Option.isSome_some]

/-- Only a double click whose SSL set-up throws is left by an exception. -/
theorem escaped_of_move {s s' : State} {e : Event} (h : Move s e s') (hui : s'.ui = .escaped) :
    s.ui = .escaped ∨ ∃ row column, e = .doubleClickThrows row column := by
  cases h with
  | escaped row column => exact Or.inr ⟨row, column, rfl⟩
  | quiet | listed | unstarted | watched => exact Or.inl hui
  | _ => cases hui

/-- In every state of a run without stale `setData`: the handler in progress can take its
next step whatever comes of what it needs, and until the next one is called it takes
boundedly many, however the watchers go on beside it. It never reads through
`ipnamemap.end()`, and only a double click whose SSL set-up throws is left by an
exception. -/
theorem handlers_return {es : List Event} (h : Steps step InTable start es) :
    Along step (fun s =>
      (s.ui ≠ .idle → s.ui ≠ .escaped → ∀ ok, (step s (.ui ok)).isSome = true) ∧
      (∀ fs : List Event, (∀ e ∈ fs, e.handler = false) → Steps step InTable s fs →
        (history step handlerSteps s fs).length ≤ 2 * s.model.length + 4) ∧
      s.ui ≠ .crashed ∧
      ∀ (e : Event) (s' : State), step s e = some s' → s'.ui = .escaped →
        s.ui = .escaped ∨ ∃ row column, e = .doubleClickThrows row column) start es := by
  refine (consistent_along h).mono fun s h => ?_
  have hcrashed : s.ui ≠ .crashed := by
    intro hui
    have ha := h.aligned
    rw [Aligned, hui] at ha
    exact ha
  refine ⟨fun hidle hescaped => isSome_uiStep hidle hcrashed hescaped, fun fs hfs hin => ?_,
    hcrashed, fun e s' hs => escaped_of_move (move_of_step hs)⟩
  have hsteps : Steps step (fun s e => InTable s e ∧ e.handler = false) s fs :=
    hin.and (steps_of_forall hfs)
  have hcount : (history step handlerSteps s fs).countP (fun _ => true) ≤ s.uiLeft := by
    refine Steps.countP_history_le (I := fun _ => True) State.uiLeft
      (fun _ _ _ _ _ _ => trivial) ?_ hsteps trivial
    intro s e s' _ hC hs
    rw [List.countP_true]
    exact uiLeft_move (move_of_step hs) hC.2 hC.1
  rw [List.countP_true] at hcount
  exact hcount.trans (uiLeft_le h)

/-- A removal with a step of the watcher between its own. -/
def removesWatched : List Event :=
  [.startWatch 0 ['f'] ['x'] (.found .started), .ui true, .removeServer 0, .ui true]

theorem handlers_return_removal : ∃ s, run step start removesWatched = some s ∧
    s.ui = .removeThreads ['H', 'O', 'S', 'T'] 0 ∧ (step s (.ui true)).isSome = true ∧
    (history step handlerSteps s [.watcher 0 none, .ui true, .ui true, .ui true]).length ≤ 6 := by
  obtain ⟨s, hr, hui, hlen, hfs⟩ : ∃ s, run step start removesWatched = some s ∧
      s.ui = .removeThreads ['H', 'O', 'S', 'T'] 0 ∧ s.model.length = 1 ∧
      Steps step InTable s [.watcher 0 none, .ui true, .ui true, .ui true] :=
    ⟨_, rfl, rfl, rfl, by decide⟩
  obtain ⟨hnext, hbound, -⟩ :=
    (handlers_return (by decide : Steps step InTable start removesWatched)).last hr
  have hle := hbound [.watcher 0 none, .ui true, .ui true, .ui true] (by decide) hfs
  rw [hlen] at hle
  refine ⟨s, hr, hui, hnext ?_ ?_ true, hle⟩ <;> rw [hui] <;> exact Ui.noConfusion

/-- The steps of the watcher at place `t`, each by where it is taken. -/
def stepsOf (t : Nat) (s : State) : Event → List Pc
  | .watcher u _ => if u = t then (s.watchers[t]?).toList.map (·.pc) else []
  | _ => []

/-- The watcher at place `t` takes a step, or stays where it is, or is started. -/
theorem stepsOf_cases {s s' : State} {e : Event} (hs : step s e = some s') (t : Nat) :
    (∃ w reply k, s.watchers[t]? = some w ∧ Acts s.serv.cells s.model w.args reply w.pc k ∧
        stepsOf t s e = [w.pc] ∧ s' = s.advance t w k ∧
        s'.watchers[t]? = some { w with pc := k.pc }) ∨
      (stepsOf t s e = [] ∧ s'.watchers[t]? = s.watchers[t]?) ∨
      ∃ w', stepsOf t s e = [] ∧ s.watchers[t]? = none ∧ s'.watchers[t]? = some w' ∧
        w'.pc = .init := by
  have hmove := move_of_step hs
  have hother : (∀ u reply, e ≠ .watcher u reply) → stepsOf t s e = [] := by
    intro hne
    cases e with
    | watcher u reply => exact absurd rfl (hne u reply)
    | _ => rfl
  cases e with
  | watcher u reply =>
    obtain ⟨w, k, hw, hk, rfl⟩ := step_watcher hs
    by_cases htu : u = t
    · subst htu
      obtain ⟨hlt, -⟩ := List.getElem?_eq_some_iff.mp hw
      refine Or.inl ⟨w, reply, k, hw, acts_of_startWatch hk, ?_, rfl, List.getElem?_set_self hlt⟩
      simp only [stepsOf, if_true, hw, Option.toList_some, List.map_cons, List.map_nil]
    · exact Or.inr (Or.inl ⟨if_neg htu, List.getElem?_set_ne htu⟩)
  | addServer | removeServer | startWatch | doubleClick | doubleClickThrows | ui =>
    have hnone := hother fun u reply he => by cases he
    rcases hmove.watchers with hsame | ⟨w', hpc, happ⟩ | ⟨u, reply, w, k, -, he, -⟩
    · exact Or.inr (Or.inl ⟨hnone, by rw [hsame]⟩)
    · rcases Nat.lt_trichotomy t s.watchers.length with hlt | rfl | hgt
      · exact Or.inr (Or.inl ⟨hnone, by rw [happ, List.getElem?_append_left hlt]⟩)
      · exact Or.inr (Or.inr ⟨w', hnone, List.getElem?_eq_none (Nat.le_refl _),
          by rw [happ, List.getElem?_concat_length], hpc⟩)
      · refine Or.inr (Or.inl ⟨hnone, ?_⟩)
        rw [happ, List.getElem?_eq_none (by simp; omega), List.getElem?_eq_none (by omega)]
    · cases he

/-- The potential rule for one watcher: `left` pays for its steps at the places with
`p`. -/
theorem countP_stepsOf_le {t : Nat} {I C : State → Prop} (p : Pc → Bool) (left : Pc → Nat)
    (keep : ∀ s e s', I s → C s → step s e = some s' → I s')
    (pay : ∀ s w reply k, I s → C s → s.watchers[t]? = some w →
      Acts s.serv.cells s.model w.args reply w.pc k → [w.pc].countP p + left k.pc ≤ left w.pc)
    {s : State} {es : List Event} (h : Steps step (fun s _ => C s) s es) (hI : I s) :
    (history step (stepsOf t) s es).countP p ≤
      (s.watchers[t]?).elim (left .init) fun w => left w.pc := by
  refine Steps.countP_history_le (fun s => (s.watchers[t]?).elim (left .init) fun w => left w.pc)
    keep ?_ h hI
  intro s e s' hI hC hs
  rcases stepsOf_cases hs t with ⟨w, reply, k, hw, hacts, hsteps, -, hw'⟩ | ⟨hsteps, hw'⟩ |
    ⟨w', hsteps, hw, hw', hpc⟩
  · rw [hsteps, hw, hw']
    exact pay s w reply k hI hC hw hacts
  · rw [hsteps, hw', List.countP_nil, Nat.zero_add]
  · rw [hsteps, hw, hw', List.countP_nil, Nat.zero_add, Option.elim_some, Option.elim_none, hpc]

/-- Past the loop, or kept from making a call. -/
def Held (t : Nat) (s : State) : Prop :=
  ∀ w ∈ s.watchers[t]?, w.pc.inLoop = false ∨ s.cell w.args.runstate ≠ THREAD_RUN

/-- The call in progress, and the alarm that may follow it. -/
def Pc.callsLeft : Pc → Nat
  | .call => 1
  | _ => 0

def Pc.alarmsLeft : Pc → Nat
  | .call | .show => 1
  | _ => 0

theorem held_act {cells : List Int} {model : List Row} {a : WatchArgs} {reply : Option Int}
    {pc : Pc} {k : Effect} (h : Acts cells model a reply pc k)
    (hheld : pc.inLoop = false ∨ cells.getD a.runstate 0 ≠ THREAD_RUN) :
    [pc].countP (· == .call) + k.pc.callsLeft ≤ pc.callsLeft ∧
      [pc].countP (· == .show) + k.pc.alarmsLeft ≤ pc.alarmsLeft := by
  cases h with
  | tests =>
    rcases hheld with hfalse | hcell
    · cases hfalse
    · rw [afterRunTest, if_neg hcell]
      decide
  | loops =>
    unfold afterLoopTest
    split <;> decide
  | replied r =>
    unfold afterReply
    split <;> decide
  | thrown => decide
  | _ => exact ⟨Nat.le_refl _, Nat.le_refl _⟩

theorem callsLeft_le (pc : Pc) : pc.callsLeft ≤ 1 := by
  unfold Pc.callsLeft
  split <;> decide

theorem alarmsLeft_le (pc : Pc) : pc.alarmsLeft ≤ 1 := by
  unfold Pc.alarmsLeft
  split <;> decide

theorem elim_le {left : Pc → Nat} {n : Nat} (h : ∀ pc, left pc ≤ n) (o : Option Watcher) :
    o.elim (left .init) (fun w => left w.pc) ≤ n := by
  cases o with
  | none => exact h _
  | some w => exact h _

/-- A watcher that is held ends one call and shows one alarm at most. -/
theorem counts_of_held {t : Nat} {I C : State → Prop}
    (keep : ∀ s e s', I s → C s → step s e = some s' → I s')
    (hheld : ∀ s, I s → C s → Held t s) {s : State} {es : List Event}
    (h : Steps step (fun s _ => C s) s es) (hI : I s) :
    (history step (stepsOf t) s es).count .call ≤ 1 ∧
      (history step (stepsOf t) s es).count .show ≤ 1 := by
  constructor
  · refine (countP_stepsOf_le (· == .call) Pc.callsLeft keep ?_ h hI).trans
      (elim_le callsLeft_le _)
    exact fun s w _ k hI hC hw ha => (held_act ha (hheld s hI hC w hw)).1
  · refine (countP_stepsOf_le (· == .show) Pc.alarmsLeft keep ?_ h hI).trans
      (elim_le alarmsLeft_le _)
    exact fun s w _ k hI hC hw ha => (held_act ha (hheld s hI hC w hw)).2

/-- While its run state is not THREAD_RUN a watcher ends at most the call it was in and
shows at most one alarm, however long that is and whatever else happens. -/
theorem paused_watch_quiet (t : Nat) {s : State} {es : List Event}
    (h : Steps step
      (fun s _ => ∀ w ∈ s.watchers[t]?, s.cell w.args.runstate ≠ THREAD_RUN) s es) :
    (history step (stepsOf t) s es).count .call ≤ 1 ∧
      (history step (stepsOf t) s es).count .show ≤ 1 :=
  counts_of_held (I := fun _ => True) (fun _ _ _ _ _ _ => trivial)
    (fun _ _ hC w hw => Or.inr (hC w hw)) h trivial

/-- A pause in the middle of a call. -/
def pausesInCall : List Event :=
  [.startWatch 0 ['f'] ['x'] (.found .started), .ui true,
   .watcher 0 none, .watcher 0 none, .watcher 0 none,
   .doubleClick 0 3 true true, .ui true, .ui true]

/-- The file is modified, and the watcher goes round its loop. -/
def afterPause : List Event :=
  [.ui true, .watcher 0 (some 1), .watcher 0 none, .watcher 0 none, .watcher 0 none]

theorem paused_watch_quiet_in_call : ∃ s, run step start pausesInCall = some s ∧
    (history step (stepsOf 0) s afterPause).count .call ≤ 1 ∧
    (history step (stepsOf 0) s afterPause).count .show ≤ 1 :=
  ⟨_, rfl, paused_watch_quiet 0 (by decide)⟩

/-- The steps left to a watcher that is stopped or past its loop, in a table of at most
`rows` rows. -/
def Pc.left (rows : Nat) : Pc → Nat
  | .done => 0
  | .uninit => 1
  | .errSet _ | .close => 2
  | .errIndex _ | .loop => 3
  | .errSearch rowCount i => rowCount - i + 4
  | .init | .test | .show => 4
  | .errCount => rows + 5
  | .errUninit => rows + 6
  | .errShow => rows + 7
  | .call => rows + 8

theorem left_act {cells : List Int} {model : List Row} {a : WatchArgs} {reply : Option Int}
    {pc : Pc} {k : Effect} {rows : Nat} (h : Acts cells model a reply pc k)
    (hleaves : pc.inLoop = false ∨ cells.getD a.runstate 0 = THREAD_STOP)
    (hrows : model.length ≤ rows) : k.pc.left rows < pc.left rows := by
  have hstop : pc.inLoop = true → cells.getD a.runstate 0 = THREAD_STOP := by
    intro hloop
    rcases hleaves with hfalse | hcell
    · rw [hloop] at hfalse
      cases hfalse
    · exact hcell
  cases h with
  | loops =>
    have hclose : afterLoopTest (cells.getD a.runstate 0) = .close := by rw [hstop rfl]; rfl
    rw [hclose]
    exact Nat.lt_succ_self 2
  | tests =>
    have hloop : afterRunTest (cells.getD a.runstate 0) = .loop := by rw [hstop rfl]; rfl
    rw [hloop]
    exact Nat.lt_succ_self 3
  | replied r =>
    unfold afterReply
    split <;> simp only [Pc.left] <;> omega
  | counts | finds | passes | ends => simp only [Pc.left]; omega
  | _ => simp [Pc.left]

variable (t : Nat) in
/-- The watcher at place `t` is past its loop or its cell is THREAD_STOP. -/
structure Leaving (s : State) : Prop where
  cells : s.serv.Private
  leaves : ∃ w, s.watchers[t]? = some w ∧
    (w.pc.inLoop = false ∨ s.cell w.args.runstate = THREAD_STOP)

theorem Leaving.step {t : Nat} {s s' : State} {e : Event} (h : Leaving t s)
    (hs : Client.step s e = some s') : Leaving t s' := by
  have hmove := move_of_step hs
  refine ⟨h.cells.step hmove, ?_⟩
  obtain ⟨w, hw, hleaves⟩ := h.leaves
  have hcell := fun hc => cell_stopped (c := w.args.runstate) hmove h.cells hc
  rcases stepsOf_cases hs t with ⟨v, reply, k, hv, hacts, -, -, hw'⟩ | ⟨-, hw'⟩ |
    ⟨w', -, hnone, -, -⟩
  · obtain rfl := Option.some.inj (hw.symm.trans hv)
    refine ⟨_, hw', ?_⟩
    rcases hleaves with hloop | hstop
    · exact Or.inl (inLoop_act hacts hloop)
    · exact Or.inr (hcell hstop)
  · refine ⟨w, hw'.trans hw, ?_⟩
    rcases hleaves with hloop | hstop
    · exact Or.inl hloop
    · exact Or.inr (hcell hstop)
  · rw [hnone] at hw
    cases hw

theorem Leaving.held {t : Nat} {s : State} (h : Leaving t s) : Held t s := by
  intro v hv
  obtain ⟨w, hw, hleaves⟩ := h.leaves
  obtain rfl := Option.some.inj (hw.symm.trans hv)
  rcases hleaves with hloop | hstop
  · exact Or.inl hloop
  · exact Or.inr (by rw [hstop]; decide)

/-- A thread that is not done has a next step; at the call, once that has ended. -/
theorem isSome_watcherStep {s : State} {t : Nat} {w : Watcher} (hw : s.watchers[t]? = some w)
    (hpc : w.pc ≠ .done) (reply : Option Int) : (step s (.watcher t reply)).isSome = true := by
  simp only [step, State.watcherStep, hw, Option.isSome_map]
  cases hp : w.pc with
  | done => exact absurd hp hpc
  | call => cases reply <;> rfl
  | errSearch rowCount i =>
    simp only [startWatch]
    split
    · split <;> rfl
    · rfl
  | _ => rfl

/-- A watcher whose server was removed, or whose call has thrown, comes to its end: until it
is done it has a next step, and it takes boundedly many of them as long as the table does
not grow beyond `rows` rows. Among them are the end of one call and one alarm at most. -/
theorem leaving_watch_ends {s : State} {t : Nat} {w : Watcher} {rows : Nat} {es : List Event}
    (hs : Reachable step start s) (hw : s.watchers[t]? = some w)
    (hleaves : w.pc = .errShow ∨ w.pc.inLoop = true ∧ s.cell w.args.runstate = THREAD_STOP)
    (hrows : Steps step (fun s _ => s.model.length ≤ rows) s es) :
    (history step (stepsOf t) s es).length ≤ rows + 8 ∧
      (history step (stepsOf t) s es).count .call ≤ 1 ∧
      (history step (stepsOf t) s es).count .show ≤ 1 ∧
      Along step (fun s' => ∃ w', s'.watchers[t]? = some w' ∧ (w'.pc ≠ .done →
        ∀ reply, (step s' (.watcher t reply)).isSome = true)) s es := by
  have hleaving : Leaving t s := by
    refine ⟨private_of_reachable hs, w, hw, ?_⟩
    rcases hleaves with hpc | ⟨-, hstop⟩
    · exact Or.inl (by rw [hpc]; rfl)
    · exact Or.inr hstop
  have hleft : w.pc.left rows ≤ rows + 8 := by
    rcases hleaves with hpc | ⟨hloop, -⟩
    · rw [hpc]
      exact Nat.le_succ _
    · cases hpc : w.pc <;> rw [hpc] at hloop <;> simp only [Pc.left] <;> first | omega | cases hloop
  obtain ⟨hcalls, halarms⟩ :=
    counts_of_held (fun _ _ _ h _ hs => h.step hs) (fun _ h _ => h.held) hrows hleaving
  refine ⟨?_, hcalls, halarms, ?_⟩
  · have hcount := countP_stepsOf_le (t := t) (fun _ => true) (Pc.left rows)
      (fun _ _ _ h _ hs => Leaving.step h hs) ?_ hrows hleaving
    · rw [List.countP_true, hw] at hcount
      exact hcount.trans hleft
    · intro s v reply k h hC hv ha
      obtain ⟨w, hw, hpc⟩ := h.leaves
      obtain rfl := Option.some.inj (hw.symm.trans hv)
      have hlt := left_act ha hpc hC
      rw [List.countP_true, List.length_singleton]
      omega
  · refine (along (fun _ _ _ h hs => Leaving.step h hs) hleaving es).mono fun s' h => ?_
    obtain ⟨w', hw', -⟩ := h.leaves
    exact ⟨w', hw', isSome_watcherStep hw'⟩

/-- The server is removed while the watch is in a call. -/
def removedInCall : List Event :=
  [.startWatch 0 ['f'] ['x'] (.found .started), .ui true,
   .watcher 0 none, .watcher 0 none, .watcher 0 none, .removeServer 0, .ui true]

theorem leaving_watch_ends_removed : ∃ s, run step start removedInCall = some s ∧
    (history step (stepsOf 0) s afterPause).length ≤ 1 + 8 ∧
    (history step (stepsOf 0) s afterPause).count .call ≤ 1 ∧
    (history step (stepsOf 0) s afterPause).count .show ≤ 1 ∧
    Along step (fun s' => ∃ w', s'.watchers[0]? = some w' ∧ (w'.pc ≠ .done →
      ∀ reply, (step s' (.watcher 0 reply)).isSome = true)) s afterPause :=
  ⟨_, rfl, leaving_watch_ends ⟨removedInCall, rfl⟩ rfl (Or.inr ⟨rfl, rfl⟩) (by decide)⟩

end Errifier.Client
