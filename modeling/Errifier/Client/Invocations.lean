import Errifier.Client.Atomic
import Errifier.Client.Failures

/-!
# What a call of a handler comes to

A handler's steps are interleaved with those of watchers, and still it comes to what it
is there for or says why not: a start adds one row or warns once, a double click on a
status writes run state and status of its row or warns once, and a removal removes what
it would remove by itself.
-/
namespace Errifier.Client

set_option autoImplicit false

open Errifier.Text Errifier.Machine
open WorkerThread (removeServerFrom)

/-- What the handlers, not the watchers, do to the table. -/
def handlerOps (s : State) : Event → List TableOp
  | .watcher _ _ => []
  | e => tableOps s e

def handled (s : State) (es : List Event) : List TableOp := history step handlerOps s es

theorem handled_cons {s s' : State} {e : Event} (h : step s e = some s') (es : List Event) :
    handled s (e :: es) = handlerOps s e ++ handled s' es := history_cons h es

section Turns
variable {s s' : State} {es : List Event}

/-- Either the handler has returned, or after some steps of watchers it takes a step. -/
theorem Finishes.turn (h : Finishes False s es s') :
    (s.ui = .idle ∧ handled s es = [] ∧ Beside False s s') ∨
      ∃ ok t u es', Beside False s t ∧ t.uiStep ok = some u ∧ Finishes False u es' s' ∧
        handled s es = handlerOps t (.ui ok) ++ handled u es' := by
  induction es generalizing s with
  | nil =>
    obtain rfl := Option.some.inj h.run
    exact Or.inl ⟨h.idle, rfl, Beside.refl False s⟩
  | cons e es ih =>
    obtain ⟨t, ht, hrest⟩ := h.cons
    have hhandler := h.handler e (List.mem_cons_self ..)
    cases e with
    | ui ok => exact Or.inr ⟨ok, s, t, es, Beside.refl False s, ht, hrest, handled_cons ht es⟩
    | watcher v reply =>
      obtain ⟨w, k, hw, -, rfl⟩ := step_watcher ht
      have hb := beside_advance not_false k hw
      have hops : handled s (.watcher v reply :: es) = handled (s.advance v w k) es :=
        handled_cons ht es
      rw [hops]
      rcases ih hrest with ⟨hui, hnil, hbs⟩ | ⟨ok, t, u, es', hbs, hstep, hfin, heq⟩
      · exact Or.inl ⟨hui, hnil, hb.trans hbs⟩
      · exact Or.inr ⟨ok, t, u, es', hb.trans hbs, hstep, hfin, heq⟩
    | addServer | removeServer | startWatch | doubleClick | doubleClickThrows => cases hhandler

theorem Finishes.returned (h : Finishes False s es s') (hui : s.ui = .idle) :
    handled s es = [] ∧ Beside False s s' := by
  rcases h.turn with ⟨-, hnil, hb⟩ | ⟨ok, t, u, es', hb, hstep, -⟩
  · exact ⟨hnil, hb⟩
  · rw [State.uiStep, hb.ui, hui] at hstep
    cases hstep

theorem Finishes.goes (h : Finishes False s es s') (hui : s.ui ≠ .idle) :
    ∃ ok t u es', Beside False s t ∧ t.uiStep ok = some u ∧ Finishes False u es' s' ∧
      handled s es = handlerOps t (.ui ok) ++ handled u es' := by
  rcases h.turn with ⟨hidle, -⟩ | hgoes
  · exact absurd hidle hui
  · exact hgoes

end Turns

/-- What the click does at once. -/
theorem startWatch_turn {s t : State} {cur : Nat} {fileloc friendlyName : QString}
    {out : StartOutcome} (h : step s (.startWatch cur fileloc friendlyName out) = some t) :
    (∃ w, t.ui = .idle ∧ t.warnings = s.warnings ++ [w] ∧ t.model = s.model ∧
        t.watchers = s.watchers ∧ t.serv.threadList = s.serv.threadList) ∨
      ∃ row w, t.ui = .append row ∧ t.warnings = s.warnings ∧ t.model = s.model ∧
        t.watchers = s.watchers ++ [w] ∧ w.args.For row ∧
        t.serv.threadList = s.serv.threadList ++ [row.thread] := by
  simp only [step] at h
  split at h
  · rename_i hg
    obtain rfl := Option.some.inj h
    unfold State.onPushButtonClicked
    cases hreq : s.request cur fileloc friendlyName with
    | error w => exact Or.inl ⟨w, hg.1, rfl, rfl, rfl, rfl⟩
    | ok parts =>
      cases out with
      | notAuthenticated => exact Or.inl ⟨.notAuthenticated, hg.1, rfl, rfl, rfl, rfl⟩
      | refused => exact Or.inl ⟨.notActivated, hg.1, rfl, rfl, rfl, rfl⟩
      | missing => exact Or.inl ⟨.noFile, hg.1, rfl, rfl, rfl, rfl⟩
      | found thread =>
        cases thread with
        | refused => exact Or.inl ⟨.watchDown, hg.1, rfl, rfl, List.append_nil _, rfl⟩
        | noThread => exact Or.inl ⟨.watchDown, hg.1, rfl, rfl, List.append_nil _, rfl⟩
        | started =>
          exact Or.inr ⟨_, _, rfl, rfl, rfl, rfl, ⟨rfl, rfl, rfl⟩, rfl⟩
  · cases h

/-- Beside a removal, and while nothing is written past the end of the table, only statuses
change between the start of one handler and that of the next. -/
theorem plain_listed_step {s s' : State} {e : Event} (hrem : s.ui.removed = none)
    (he : e.handler = false) (hin : InTable s e) (hs : step s e = some s') :
    s'.ui.removed = none ∧ s'.listed.map Row.plain = s.listed.map Row.plain := by
  have hm := move_of_step hs
  constructor
  · cases hm with
    | quiet | listed | unstarted | watched => exact hrem
    | crashed _ row r hui hclick => rfl
    | removing | started => cases he
    | threadErased _ n i thread hui | threadKept _ n i thread hui | threadsDone _ n i hui
    | rowErased _ n i row hui | rowKept _ n i row hui | rowsDone _ n i hui =>
      rw [hui] at hrem
      cases hrem
    | _ => rfl
  · rcases hm.table hin with ⟨hplain, hp⟩ | ⟨cur, fileloc, friendlyName, parts, -, rfl, -⟩ |
      ⟨ok, row, -, hui, rfl⟩ | ⟨ok, i, -, hi, -⟩
    · rw [State.listed, State.listed, List.map_append, List.map_append, hplain, hp]
    · cases he
    · simp [State.listed, Ui.pending, hui]
    · unfold State.erased at hi
      split at hi
      · rename_i hui
        rw [hui] at hrem
        cases hrem
      · cases hi

theorem plain_listed {s s' : State} {es : List Event} (hrem : s.ui.removed = none)
    (hes : ∀ e ∈ es, e.handler = false) (hin : Steps step InTable s es)
    (hr : run step s es = some s') : s'.listed.map Row.plain = s.listed.map Row.plain := by
  have hkeep : ∀ t e t', t.ui.removed = none ∧ t.listed.map Row.plain = s.listed.map Row.plain →
      InTable t e ∧ e.handler = false → step t e = some t' →
      t'.ui.removed = none ∧ t'.listed.map Row.plain = s.listed.map Row.plain := by
    rintro t e t' ⟨hrem, hl⟩ ⟨hin, he⟩ hs
    obtain ⟨hrem', hl'⟩ := plain_listed_step hrem he hin hs
    exact ⟨hrem', hl'.trans hl⟩
  exact (((hin.and (steps_of_forall hes)).along hkeep ⟨hrem, rfl⟩).last hr).2

/-- A start that has returned, with nothing written past the end of the table meanwhile, has
warned once and left rows, watchers and threads as they were, or has not warned and added
one row, its watcher and its thread. -/
theorem start_answers {s s' : State} {cur : Nat} {fileloc friendlyName : QString}
    {out : StartOutcome} {es : List Event} (hes : ∀ e ∈ es, e.handler = false)
    (hin : Steps step InTable s (.startWatch cur fileloc friendlyName out :: es))
    (hr : run step s (.startWatch cur fileloc friendlyName out :: es) = some s')
    (hui : s'.ui = .idle) :
    (∃ w, s'.warnings = s.warnings ++ [w] ∧
        s'.model.map Row.plain = s.model.map Row.plain ∧
        s'.watchers.map (·.args) = s.watchers.map (·.args) ∧
        s'.serv.threadList = s.serv.threadList) ∨
      (s'.warnings = s.warnings ∧ ∃ (row : Row) (a : WatchArgs), a.For row ∧
        s'.model.map Row.plain = s.model.map Row.plain ++ [row.plain] ∧
        s'.watchers.map (·.args) = s.watchers.map (·.args) ++ [a] ∧
        s'.serv.threadList = s.serv.threadList ++ [row.thread]) := by
  obtain ⟨t, ht, hrun⟩ := run_cons hr
  obtain ⟨-, hin⟩ := hin t ht
  have hfin : Finishes False t es s' := ⟨hes, False.elim, hrun, hui⟩
  have hl' : s'.listed = s'.model := listed_of_pending (by rw [hui]; rfl)
  rcases startWatch_turn ht with ⟨w, hidle, hw, hm, hws, hth⟩ |
    ⟨row, w, happ, hw, hm, hws, hfor, hth⟩
  · have hrows := plain_listed (by rw [hidle]; rfl) hes hin hrun
    rw [hl', listed_of_pending (by rw [hidle]; rfl), hm] at hrows
    obtain ⟨-, hb⟩ := hfin.returned hidle
    exact Or.inl ⟨w, by rw [hb.warnings, hw], hrows, by rw [hb.args, hws], by rw [hb.serv, hth]⟩
  · have hrows := plain_listed (by rw [happ]; rfl) hes hin hrun
    rw [hl', State.listed, happ, hm, List.map_append] at hrows
    obtain ⟨ok, u, v, es', hb, hstep, hfin', -⟩ := hfin.goes (by rw [happ]; exact Ui.noConfusion)
    simp only [State.uiStep, hb.ui, happ] at hstep
    obtain rfl := Option.some.inj hstep
    obtain ⟨-, hb'⟩ := hfin'.returned rfl
    refine Or.inr ⟨?_, row, w.args, hfor, hrows, ?_, ?_⟩
    · rw [hb'.warnings, ← hw]
      exact hb.warnings
    · rw [hb'.args]
      change u.watchers.map _ = _
      rw [hb.args, hws, List.map_append]
      rfl
    · rw [hb'.serv, ← hth]
      exact congrArg WorkerThread.threadList hb.serv

/-- The watcher is under way before its row is there. -/
def startsWatch : List Event :=
  [.startWatch 0 ['f'] ['x'] (.found .started), .watcher 0 none, .ui true]

theorem start_answers_started : ∃ s', run step start startsWatch = some s' ∧
    ((∃ w, s'.warnings = [] ++ [w] ∧ s'.model.map Row.plain = [] ∧
        s'.watchers.map (·.args) = [] ∧ s'.serv.threadList = []) ∨
      (s'.warnings = [] ∧ ∃ (row : Row) (a : WatchArgs), a.For row ∧
        s'.model.map Row.plain = [] ++ [row.plain] ∧
        s'.watchers.map (·.args) = [] ++ [a] ∧ s'.serv.threadList = [] ++ [row.thread])) := by
  obtain ⟨s', hr, hui⟩ : ∃ s', run step start startsWatch = some s' ∧ s'.ui = .idle :=
    ⟨_, rfl, rfl⟩
  exact ⟨s', hr, start_answers (s := start) (by decide) (by decide) hr hui⟩

/-- Row `i` and entry `i` of `threadList` have the cell `c`. -/
structure At (s : State) (i c : Nat) : Prop where
  row : (s.model.map Row.watch)[i]? = some c
  thread : ∃ thread, s.serv.threadList[i]? = some thread ∧ thread.runstate = c
  fresh : c < s.serv.cells.length

theorem At.of_eq {s t : State} {i c : Nat} (h : At s i c) (hm : t.model = s.model)
    (hserv : t.serv = s.serv) : At t i c :=
  ⟨by rw [hm]; exact h.row, by rw [hserv]; exact h.thread, by rw [hserv]; exact h.fresh⟩

theorem At.beside {s t : State} {i c : Nat} (h : At s i c) (hb : Beside False s t) : At t i c where
  row := by
    have hrows := hb.rows.map Row.watch
    rw [← map_watch_plain, ← map_watch_plain] at hrows
    obtain ⟨rest, hrest⟩ := hrows
    have hrow := h.row
    obtain ⟨hlt, -⟩ := List.getElem?_eq_some_iff.mp hrow
    rw [← hrest, List.getElem?_append_left hlt]
    exact hrow
  thread := by
    rw [hb.serv]
    exact h.thread
  fresh := by
    rw [hb.serv]
    exact h.fresh

theorem At.writes {s : State} {i c : Nat} (h : At s i c) (v : QString) :
    s.writes i v = [.write c v] := by
  have hrow := h.row
  rw [List.getElem?_map] at hrow
  obtain ⟨row, hi, rfl⟩ := Option.map_eq_some_iff.mp hrow
  rw [State.writes, hi]
  rfl

theorem cell_beside {s t : State} (hb : Beside False s t) (c : Nat) : t.cell c = s.cell c := by
  rw [State.cell, hb.serv]
  rfl

/-- The handler warns and returns. -/
def Warns (s s' : State) (ops : List TableOp) : Prop :=
  (∃ w, s'.warnings = s.warnings ++ [w]) ∧ ops = []

/-- The handler leaves cell `c` with value `state` and writes the status that says so. -/
def Writes (c : Nat) (s s' : State) (ops : List TableOp) (state : Int) (status : QString) : Prop :=
  s'.warnings = s.warnings ∧ s'.cell c = state ∧ ops = [.write c status]

section DoubleClick
variable {s s' : State} {es : List Event} {i c : Nat}

theorem warns_of_turn {t : State} {w : Warning} (hb : Beside False s t)
    (hfin : Finishes False { t.warn w with ui := .idle } es s') :
    Warns s s' (handled { t.warn w with ui := .idle } es) := by
  obtain ⟨hnil, hb'⟩ := hfin.returned rfl
  refine ⟨⟨w, ?_⟩, hnil⟩
  rw [hb'.warnings, ← hb.warnings]
  rfl

/-- The last step of the handler. -/
theorem writes_of_written (h : Finishes False s es s') (hat : At s i c) {v : QString}
    (hui : s.ui = .pausing i ∧ v = paused ∨
      (s.ui = .resuming i ∨ s.ui = .reconnected i) ∧ v = active) :
    Writes c s s' (handled s es) (s.cell c) v := by
  have hne : s.ui ≠ .idle := by
    rcases hui with ⟨hui, -⟩ | ⟨hui | hui, -⟩ <;> rw [hui] <;> exact Ui.noConfusion
  obtain ⟨ok, t, u, es', hb, hstep, hfin, hops⟩ := h.goes hne
  have hu : u.ui = .idle ∧ u.warnings = t.warnings ∧ u.serv = t.serv ∧
      handlerOps t (.ui ok) = t.writes i v := by
    rcases hui with ⟨hui, rfl⟩ | ⟨hui | hui, rfl⟩
    all_goals
      simp only [State.uiStep, hb.ui, hui] at hstep
      obtain rfl := Option.some.inj hstep
      refine ⟨rfl, rfl, rfl, ?_⟩
      simp only [handlerOps, tableOps, hb.ui, hui]
  obtain ⟨hidle, hw, hserv, hwrite⟩ := hu
  obtain ⟨hnil, hb'⟩ := hfin.returned hidle
  refine ⟨by rw [hb'.warnings, hw, hb.warnings], ?_, ?_⟩
  · rw [cell_beside hb', State.cell, hserv, ← cell_beside hb]
    rfl
  · rw [hops, hnil, List.append_nil, hwrite, (hat.beside hb).writes]

/-- The step that sets the run state, before the status is written. -/
theorem At.switched {t : State} (h : At t i c) {thread : ThreadWrap}
    (ht : t.serv.threadList[i]? = some thread) (v : Int) (ui : Ui) :
    At { t with serv := t.serv.setState thread v, ui } i c ∧
      State.cell { t with serv := t.serv.setState thread v, ui } c = v := by
  obtain ⟨thread', ht', hthread⟩ := h.thread
  obtain rfl := Option.some.inj (ht'.symm.trans ht)
  refine ⟨⟨h.row, ⟨_, ht, hthread⟩, ?_⟩, ?_⟩
  · simp only [WorkerThread.setState, List.length_set]
    exact h.fresh
  · exact (cell_setState t _ v c).trans (if_pos ⟨hthread, h.fresh⟩)

theorem writes_of_switched (h : Finishes False s es s') (hat : At s i c)
    (hui : s.ui = .lock i ∨ s.ui = .unlock i) :
    Writes c s s' (handled s es) THREAD_LOCK paused ∨
      Writes c s s' (handled s es) THREAD_RUN active := by
  have hne : s.ui ≠ .idle := by
    rcases hui with hui | hui <;> rw [hui] <;> exact Ui.noConfusion
  obtain ⟨ok, t, u, es', hb, hstep, hfin, hops⟩ := h.goes hne
  obtain ⟨thread, ht, -⟩ := (hat.beside hb).thread
  rcases hui with hui | hui
  · simp only [State.uiStep, hb.ui, hui, WorkerThread.setThreadLock, WorkerThread.setStateAt, ht,
      Option.map_some] at hstep
    obtain rfl := Option.some.inj hstep
    obtain ⟨hat', hcell⟩ := (hat.beside hb).switched ht THREAD_LOCK (.pausing i)
    obtain ⟨hw, hc, hwrite⟩ := writes_of_written hfin hat' (.inl ⟨rfl, rfl⟩)
    refine Or.inl ⟨hw.trans hb.warnings, hc.trans hcell, ?_⟩
    rw [hops, hwrite]
    simp only [handlerOps, tableOps, hb.ui, hui, List.nil_append]
  · simp only [State.uiStep, hb.ui, hui, WorkerThread.setThreadRun, WorkerThread.setStateAt, ht,
      Option.map_some] at hstep
    obtain rfl := Option.some.inj hstep
    obtain ⟨hat', hcell⟩ := (hat.beside hb).switched ht THREAD_RUN (.resuming i)
    obtain ⟨hw, hc, hwrite⟩ := writes_of_written hfin hat' (.inr ⟨.inl rfl, rfl⟩)
    refine Or.inr ⟨hw.trans hb.warnings, hc.trans hcell, ?_⟩
    rw [hops, hwrite]
    simp only [handlerOps, tableOps, hb.ui, hui, List.nil_append]

theorem outcome_of_respawn (h : Finishes False s es s') (hat : At s i c) {ip : QString}
    (hui : s.ui = .respawn i ip) (hcell : s.cell c = THREAD_RUN) :
    Warns s s' (handled s es) ∨ Writes c s s' (handled s es) THREAD_RUN active := by
  obtain ⟨ok, t, u, es', hb, hstep, hfin, hops⟩ := h.goes (by rw [hui]; exact Ui.noConfusion)
  obtain ⟨thread, ht, -⟩ := (hat.beside hb).thread
  have hnil : handlerOps t (.ui ok) = [] := by simp only [handlerOps, tableOps, hb.ui, hui]
  rw [hops, hnil, List.nil_append]
  simp only [State.uiStep, hb.ui, hui, WorkerThread.respawn, ht, Option.map_some] at hstep
  cases ok with
  | false =>
    obtain rfl := Option.some.inj hstep
    exact Or.inl (warns_of_turn hb hfin)
  | true =>
    obtain rfl := Option.some.inj hstep
    obtain ⟨hw, hc, hwrite⟩ :=
      writes_of_written hfin ((hat.beside hb).of_eq rfl rfl) (.inr ⟨.inr rfl, rfl⟩)
    exact Or.inr ⟨hw.trans hb.warnings, hc.trans ((cell_beside hb c).trans hcell), hwrite⟩

theorem outcome_of_reconnect (h : Finishes False s es s') (hat : At s i c) {ip : QString}
    (hui : s.ui = .reconnect i ip) :
    Warns s s' (handled s es) ∨ Writes c s s' (handled s es) THREAD_RUN active := by
  obtain ⟨ok, t, u, es', hb, hstep, hfin, hops⟩ := h.goes (by rw [hui]; exact Ui.noConfusion)
  obtain ⟨thread, ht, -⟩ := (hat.beside hb).thread
  have hnil : handlerOps t (.ui ok) = [] := by simp only [handlerOps, tableOps, hb.ui, hui]
  rw [hops, hnil, List.nil_append]
  simp only [State.uiStep, hb.ui, hui, WorkerThread.setThreadRun, WorkerThread.setStateAt, ht,
    Option.map_some] at hstep
  cases ok with
  | false =>
    obtain rfl := Option.some.inj hstep
    exact Or.inl (warns_of_turn hb hfin)
  | true =>
    obtain rfl := Option.some.inj hstep
    obtain ⟨hat', hcell⟩ := (hat.beside hb).switched ht THREAD_RUN (.respawn i ip)
    rcases outcome_of_respawn hfin hat' rfl hcell with ⟨⟨w, hw⟩, hops⟩ | ⟨hw, hc, hops⟩
    · exact Or.inl ⟨⟨w, hw.trans (congrArg (· ++ [w]) hb.warnings)⟩, hops⟩
    · exact Or.inr ⟨hw.trans hb.warnings, hc, hops⟩

/-- What a double click comes to once the address was found and the connection opened. -/
theorem outcome_of_clicked (h : Finishes False s es s') (hat : At s i c) {ip : QString}
    (hui : s.ui = .clicked i ip) :
    Warns s s' (handled s es) ∨ Writes c s s' (handled s es) THREAD_LOCK paused ∨
      Writes c s s' (handled s es) THREAD_RUN active := by
  obtain ⟨ok, t, u, es', hb, hstep, hfin, hops⟩ := h.goes (by rw [hui]; exact Ui.noConfusion)
  have hnil : handlerOps t (.ui ok) = [] := by simp only [handlerOps, tableOps, hb.ui, hui]
  rw [hops, hnil, List.nil_append]
  have hat' : ∀ ui, At { t with ui } i c := fun _ => (hat.beside hb).of_eq rfl rfl
  have hread : ∀ {ui : Ui} {state : Int} {v : QString} {ops : List TableOp},
      Writes c { t with ui } s' ops state v → Writes c s s' ops state v :=
    fun hwrites => ⟨hwrites.1.trans hb.warnings, hwrites.2⟩
  simp only [State.uiStep, hb.ui, hui] at hstep
  split at hstep
  · obtain rfl := Option.some.inj hstep
    exact Or.inr ((writes_of_switched hfin (hat' _) (.inl rfl)).imp hread hread)
  split at hstep
  · obtain rfl := Option.some.inj hstep
    exact Or.inr ((writes_of_switched hfin (hat' _) (.inr rfl)).imp hread hread)
  obtain rfl := Option.some.inj hstep
  rcases outcome_of_reconnect hfin (hat' _) rfl with ⟨⟨w, hw⟩, hops⟩ | hwrites
  · exact Or.inl ⟨⟨w, hw.trans (congrArg (· ++ [w]) hb.warnings)⟩, hops⟩
  · exact Or.inr (Or.inr (hread hwrites))

end DoubleClick

/-- A double click on a status that has returned has warned once and written nothing into
the table, or has not warned, has set the run state of its row and written the status
that says so into it, and nothing else. -/
theorem doubleClick_answers {s s' : State} {i : Nat} {opened answered : Bool} {es : List Event}
    (hs : ReachableBy step InTable start s) (hes : ∀ e ∈ es, e.handler = false)
    (hr : run step s (.doubleClick i 3 opened answered :: es) = some s') (hui : s'.ui = .idle) :
    ∃ row, s.model[i]? = some row ∧
      (Warns s s' (handled s (.doubleClick i 3 opened answered :: es)) ∨
        Writes row.watch s s' (handled s (.doubleClick i 3 opened answered :: es))
          THREAD_LOCK paused ∨
        Writes row.watch s s' (handled s (.doubleClick i 3 opened answered :: es))
          THREAD_RUN active) := by
  obtain ⟨t, ht, hrun⟩ := run_cons hr
  have hfin : Finishes False t es s' := ⟨hes, False.elim, hrun, hui⟩
  rw [handled_cons ht]
  change ∃ row, _ ∧ (Warns s s' (handled t es) ∨ _ ∨ _)
  have hcon := consistent_of_reachable hs
  simp only [step] at ht
  split at ht
  · rename_i hidle
    unfold State.onTableViewDoubleClicked at ht
    cases hrow : s.model[i]? with
    | none => rw [hrow] at ht; cases ht
    | some row =>
      refine ⟨row, rfl, ?_⟩
      have hmem : row ∈ s.listed := mem_listed (List.mem_of_getElem? hrow)
      obtain ⟨ip, hip⟩ := hcon.mapped row hmem
      simp only [hrow, hip, Bool.not_true, Bool.false_eq_true, if_false] at ht
      cases opened with
      | false =>
        obtain rfl := Option.some.inj ht
        obtain ⟨hnil, hb⟩ := hfin.returned hidle
        exact Or.inl ⟨⟨.notActivated, hb.warnings⟩, hnil⟩
      | true =>
        obtain rfl := Option.some.inj ht
        have hat : At s i row.watch := by
          refine ⟨by rw [List.getElem?_map, hrow]; rfl, ⟨row.thread, ?_, rfl⟩, ?_⟩
          · rw [hcon.aligned.idle hidle, List.getElem?_map, hrow]
            rfl
          · exact hcon.linked.fresh row hmem
        exact outcome_of_clicked hfin (hat.of_eq rfl rfl) rfl
  · cases ht

/-- The watch goes on beside the handler that pauses it. -/
def pausesBeside : List Event :=
  [.watcher 0 none, .ui true, .watcher 0 none, .ui true, .watcher 0 none, .ui true]

theorem doubleClick_answers_paused : ∃ s s' row, run step start startsWatch = some s ∧
    run step s (.doubleClick 0 3 true true :: pausesBeside) = some s' ∧ s.model[0]? = some row ∧
    (Warns s s' (handled s (.doubleClick 0 3 true true :: pausesBeside)) ∨
      Writes row.watch s s' (handled s (.doubleClick 0 3 true true :: pausesBeside))
        THREAD_LOCK paused ∨
      Writes row.watch s s' (handled s (.doubleClick 0 3 true true :: pausesBeside))
        THREAD_RUN active) := by
  obtain ⟨s, s', hs, hr, hui⟩ : ∃ s s', run step start startsWatch = some s ∧
      run step s (.doubleClick 0 3 true true :: pausesBeside) = some s' ∧ s'.ui = .idle :=
    ⟨_, _, rfl, rfl, rfl⟩
  obtain ⟨row, hrow, hout⟩ := doubleClick_answers ⟨startsWatch, hs, by decide⟩ (by decide) hr hui
  exact ⟨s, s', row, hs, hr, hrow, hout⟩

/-- The threads and cells as the removal in progress leaves them. -/
def State.removal (s : State) : WorkerThread :=
  match s.ui with
  | .removeThreads n i => removeServerFrom (toStdString n) s.serv.threadList.length s.serv i
  | _ => s.serv

/-- More passes than there are entries change nothing. -/
theorem removeServerFrom_passes {n : StdString} {w : WorkerThread} {i : Nat} (k k' : Nat)
    (h : w.threadList.length ≤ i + k) (h' : w.threadList.length ≤ i + k') :
    removeServerFrom n k w i = removeServerFrom n k' w i := by
  rw [WorkerThread.removeServerFrom_eq, WorkerThread.removeServerFrom_eq, eraseLoop_eq _ _ _ _ h,
    eraseLoop_eq _ _ _ _ h']

theorem removal_pass {n : StdString} {w w' : WorkerThread} {i j : Nat}
    (h : w.removeServerAt n i = some (w', j)) :
    removeServerFrom n w'.threadList.length w' j = removeServerFrom n w.threadList.length w i := by
  have hlt := removeServerAt_progress h
  have hunfold : removeServerFrom n (w.threadList.length + 1) w i =
      removeServerFrom n w.threadList.length w' j := by rw [removeServerFrom, h]
  rw [removeServerFrom_passes w.threadList.length (w.threadList.length + 1) (by omega) (by omega),
    hunfold]
  exact removeServerFrom_passes _ _ (by omega) (by omega)

theorem removal_done {n : StdString} {w : WorkerThread} {i : Nat}
    (h : w.removeServerAt n i = none) : removeServerFrom n w.threadList.length w i = w := by
  cases hk : w.threadList.length with
  | zero => rfl
  | succ k => rw [removeServerFrom, h]

theorem plain_writes (s : State) (i : Nat) (v : QString) (rows : List Row) :
    ((s.writes i v).foldl TableOp.apply rows).map Row.plain = rows.map Row.plain := by
  unfold State.writes
  cases s.model[i]? with
  | none => rfl
  | some row =>
    change (rows.map (TableOp.setRow row.watch v)).map Row.plain = _
    rw [List.map_map]
    refine List.map_congr_left fun r _ => ?_
    simp only [Function.comp_apply, TableOp.setRow]
    split <;> rfl

/-- Only statuses are written while no handler is called. -/
theorem plain_rows_step {s s' : State} {e : Event} (h : Consistent s) (he : e.handler = false)
    (hin : InTable s e) (hs : step s e = some s') :
    s'.rows.map Row.plain = s.rows.map Row.plain := by
  rw [rows_step h hin hs]
  cases e with
  | ui ok =>
    rw [tableOps]
    split
    · exact plain_writes _ _ _ _
    · exact plain_writes _ _ _ _
    · exact plain_writes _ _ _ _
    · rfl
  | watcher t reply =>
    rw [tableOps]
    split
    · exact plain_writes _ _ _ _
    · rfl
  | addServer | removeServer | startWatch | doubleClick | doubleClickThrows => cases he

/-- A removal in progress, or done, that comes to what it will come to in `s`. -/
structure Removing (s t : State) : Prop where
  consistent : Consistent t
  phase : t.ui = .idle ∨ t.ui.removed ≠ none
  serverlist : t.serverlist = s.serverlist
  ipnamemap : t.ipnamemap = s.ipnamemap
  warnings : t.warnings = s.warnings
  removal : t.removal = s.removal
  rows : t.rows.map Row.plain = s.rows.map Row.plain

theorem Removing.step {s t t' : State} {e : Event} (h : Removing s t) (he : e.handler = false)
    (hin : InTable t e) (hs : Client.step t e = some t') : Removing s t' := by
  have hframe : (t'.ui = .idle ∨ t'.ui.removed ≠ none) → t'.serverlist = t.serverlist →
      t'.ipnamemap = t.ipnamemap → t'.warnings = t.warnings → t'.removal = t.removal →
      Removing s t' := fun hphase hlist hip hw hrem =>
    ⟨h.consistent.step hin hs, hphase, hlist.trans h.serverlist, hip.trans h.ipnamemap,
      hw.trans h.warnings, hrem.trans h.removal,
      (plain_rows_step h.consistent he hin hs).trans h.rows⟩
  cases e with
  | watcher u reply =>
    obtain ⟨w, k, -, -, rfl⟩ := step_watcher hs
    exact hframe h.phase rfl rfl rfl rfl
  | ui ok =>
    simp only [Client.step, State.uiStep] at hs
    rcases h.phase with hui | hui
    · rw [hui] at hs
      cases hs
    cases hrem : t.ui with
    | removeThreads n i =>
      simp only [hrem] at hs
      cases hat : t.serv.removeServerAt (toStdString n) i with
      | none =>
        rw [hat] at hs
        obtain rfl := Option.some.inj hs
        refine hframe (.inr (Option.some_ne_none _)) rfl rfl rfl ?_
        simp only [State.removal, hrem]
        exact (removal_done hat).symm
      | some r =>
        rw [hat] at hs
        obtain rfl := Option.some.inj hs
        refine hframe (.inr (Option.some_ne_none _)) rfl rfl rfl ?_
        simp only [State.removal, hrem]
        exact removal_pass hat
    | removeRows n i =>
      simp only [hrem] at hs
      split at hs
      · obtain rfl := Option.some.inj hs
        exact hframe (.inr (Option.some_ne_none _)) rfl rfl rfl (by simp only [State.removal, hrem])
      · obtain rfl := Option.some.inj hs
        exact hframe (.inl rfl) rfl rfl rfl (by simp only [State.removal, hrem])
    | _ => rw [hrem] at hui; exact absurd rfl hui
  | addServer | removeServer | startWatch | doubleClick | doubleClickThrows => cases he

/-- A removal that has returned, with nothing written past the end of the table before or
meanwhile, has come to what it comes to without interruption, but for what watchers have
written and done beside it. -/
theorem removal_answers {s s' : State} {cur : Nat} {es : List Event}
    (hs : ReachableBy step InTable start s) (hes : ∀ e ∈ es, e.handler = false)
    (hin : Steps step InTable s (.removeServer cur :: es))
    (hr : run step s (.removeServer cur :: es) = some s') (hui : s'.ui = .idle) :
    s'.serverlist = (s.removeServerHandler cur).serverlist ∧
      s'.serv = (s.removeServerHandler cur).serv ∧
      s'.ipnamemap = (s.removeServerHandler cur).ipnamemap ∧
      s'.warnings = (s.removeServerHandler cur).warnings ∧
      s'.model.map Row.plain = (s.removeServerHandler cur).model.map Row.plain := by
  obtain ⟨t, ht, hrun⟩ := run_cons hr
  have hcon := consistent_of_reachable hs
  obtain ⟨hfirst, hin⟩ := hin t ht
  have hphase : t.ui = .idle ∨ t.ui.removed ≠ none := by
    cases move_of_step ht with
    | quiet _ ws hidle => exact Or.inl hidle
    | removing => exact Or.inr (Option.some_ne_none _)
    | crashed _ row r hidle hclick => cases hclick
  have hbegun : Removing t t := ⟨hcon.step hfirst ht, hphase, rfl, rfl, rfl, rfl, rfl⟩
  have halong : Along step (Removing t) t es :=
    (hin.and (steps_of_forall hes)).along (fun _ _ _ h hC hs => Removing.step h hC.2 hC.1 hs) hbegun
  have hlast := halong.last hrun
  simp only [step] at ht
  split at ht
  · rename_i hg
    obtain rfl := Option.some.inj ht
    refine ⟨hlast.serverlist, ?_, hlast.ipnamemap, hlast.warnings, ?_⟩
    · have hrem := hlast.removal
      simp only [State.removal, hui] at hrem
      exact hrem
    · have hrows := hlast.rows
      simp only [State.rows, hui, Ui.removed, State.listed, Ui.pending, List.append_nil] at hrows
      rw [hrows]
      simp only [State.removeServer, State.removeServerHandler, removeRows_eq]
  · cases ht

/-- The watcher goes on while its row is removed. -/
def removedBeside : List Event :=
  [.watcher 0 none, .ui true, .watcher 0 none, .ui true, .watcher 0 none, .ui true, .ui true]

theorem removal_answers_beside : ∃ s s', run step start watchOnA = some s ∧
    run step s (.removeServer 1 :: removedBeside) = some s' ∧
    s'.serverlist = (s.removeServerHandler 1).serverlist ∧
    s'.serv = (s.removeServerHandler 1).serv ∧
    s'.ipnamemap = (s.removeServerHandler 1).ipnamemap ∧
    s'.warnings = (s.removeServerHandler 1).warnings ∧
    s'.model.map Row.plain = (s.removeServerHandler 1).model.map Row.plain := by
  obtain ⟨s, s', hs, hr, hui, hin⟩ : ∃ s s', run step start watchOnA = some s ∧
      run step s (.removeServer 1 :: removedBeside) = some s' ∧ s'.ui = .idle ∧
      Steps step InTable s (.removeServer 1 :: removedBeside) :=
    ⟨_, _, rfl, rfl, rfl, by decide⟩
  exact ⟨s, s', hs, hr, removal_answers ⟨watchOnA, hs, by decide⟩ (by decide) hin hr hui⟩

end Errifier.Client
