import Errifier.Client.Entries
import Errifier.Client.OwnRow

/-!
# What a failed start or double click leaves behind

An invocation is the event that starts the handler and the events until it has
returned: the handler's own steps, with steps of watchers between them. Watchers
write statuses, past the end of the table too, and end while it runs; what they do is
no part of the comparison, and there is none of it when no watcher moves.
-/
namespace Errifier.Client

set_option autoImplicit false

open Errifier.Text Errifier.Machine
open WorkerThread (ThreadOutcome)

/-- `on_pushButton_clicked` or `on_tableView_doubleClicked` is called. -/
def Event.watches : Event → Bool
  | .startWatch .. | .doubleClick .. | .doubleClickThrows .. => true
  | _ => false

def Event.ofWatcher : Event → Bool
  | .watcher _ _ => true
  | _ => false

/-- How what each step of the handler needs came out. -/
def oks : List Event → List Bool
  | [] => []
  | .ui ok :: es => ok :: oks es
  | _ :: es => oks es

/-- No status cell has changed but by a watcher: the handlers write Active and
Paused. -/
def StatusesKept (s t : State) : Prop :=
  ∀ (i : Nat) (row row' : Row), s.model[i]? = some row → t.model[i]? = some row' →
    row'.status = row.status ∨ row'.status = connectionError

/-- No row was added, no status changed, and there was a warning. -/
structure Failed (s t : State) : Prop where
  rows : t.model.length = s.model.length
  statuses : StatusesKept s t
  warned : t.warnings ≠ s.warnings

/-- The table, `ipnamemap` and the threads are those from before; `alone` says
that no watcher has moved. -/
structure Kept (alone : Prop) (s t : State) : Prop where
  plain : t.model.map Row.plain = s.model.map Row.plain
  statuses : StatusesKept s t
  args : t.watchers.map (·.args) = s.watchers.map (·.args)
  ipnamemap : t.ipnamemap = s.ipnamemap
  same : alone → t.model = s.model ∧ t.watchers = s.watchers

/-- The whole watch state is that from before. A cell that was allocated and
belongs to no entry is not counted. -/
structure Unchanged (alone : Prop) (s t : State) : Prop extends Kept alone s t where
  threadList : t.serv.threadList = s.serv.threadList
  cells : s.serv.cells <+: t.serv.cells

/-- The rows from before are there, in front of those that a watcher's `setData` may have
added. -/
structure Grown (alone : Prop) (s t : State) : Prop where
  rows : s.model.map Row.plain <+: t.model.map Row.plain
  statuses : StatusesKept s t
  args : t.watchers.map (·.args) = s.watchers.map (·.args)
  ipnamemap : t.ipnamemap = s.ipnamemap
  same : alone → t.model = s.model ∧ t.watchers = s.watchers

/-- What watchers can do beside a handler. -/
structure Beside (alone : Prop) (s t : State) : Prop extends Grown alone s t where
  serv : t.serv = s.serv
  warnings : t.warnings = s.warnings
  ui : t.ui = s.ui

/-- Thread creation does not fail where the handler has already made its change:
in `startNewThread` for a name without address, or in `startTimedoutThread` for
an entry whose cell is not THREAD_RUN. -/
def Harmless (s : State) (es : List Event) : Event → Prop
  | .startWatch cur fileloc friendlyName out =>
    out = .found .refused ∨ out = .found .noThread →
      ∀ parts, s.request cur fileloc friendlyName = .ok parts →
        (s.ipnamemap.lookup parts.1).isSome = true
  | .doubleClick row _ _ _ =>
    (oks es)[1]? = some true →
      ∀ thread ∈ s.serv.threadList[row]?, s.cell thread.runstate = THREAD_RUN
  | _ => True

theorem Grown.of_eq {alone : Prop} {s t : State} (hm : t.model = s.model)
    (hw : t.watchers = s.watchers) (hip : t.ipnamemap = s.ipnamemap) : Grown alone s t := by
  constructor
  · simp only [hm, List.prefix_rfl]
  · intro i row row' hr hr'
    rw [hm, hr] at hr'
    obtain rfl := Option.some.inj hr'
    exact Or.inl rfl
  · rw [hw]
  · exact hip
  · exact fun _ => ⟨hm, hw⟩

theorem Grown.refl (alone : Prop) (s : State) : Grown alone s s := .of_eq rfl rfl rfl

theorem Grown.length {alone : Prop} {s t : State} (h : Grown alone s t) :
    s.model.length ≤ t.model.length := by
  have hlen := h.rows.length_le
  rwa [List.length_map, List.length_map] at hlen

theorem Grown.trans {alone : Prop} {s t u : State} (h : Grown alone s t) (h' : Grown alone t u) :
    Grown alone s u := by
  constructor
  · exact h.rows.trans h'.rows
  · intro i row row' hr hr'
    obtain ⟨hlt, -⟩ := List.getElem?_eq_some_iff.mp hr
    have hlen := h.length
    have ht : t.model[i]? = some t.model[i] := List.getElem?_eq_getElem (by omega)
    rcases h'.statuses i _ row' ht hr' with hst | hst
    · rw [hst]
      exact h.statuses i row _ hr ht
    · exact Or.inr hst
  · exact h'.args.trans h.args
  · exact h'.ipnamemap.trans h.ipnamemap
  · intro halone
    obtain ⟨hm, hw⟩ := h.same halone
    obtain ⟨hm', hw'⟩ := h'.same halone
    exact ⟨hm'.trans hm, hw'.trans hw⟩

/-- Where the table is as long as before, no row was added. -/
theorem Grown.kept {alone : Prop} {s t : State} (h : Grown alone s t)
    (hlen : t.model.length = s.model.length) : Kept alone s t where
  plain := (h.rows.eq_of_length (by rw [List.length_map, List.length_map, hlen])).symm
  statuses := h.statuses
  args := h.args
  ipnamemap := h.ipnamemap
  same := h.same

/-- A handler that leaves `threadList` and the cells has changed nothing. -/
theorem Grown.unchanged {alone : Prop} {s t : State} (h : Grown alone s t) (hf : Failed s t)
    (hserv : t.serv = s.serv) : Unchanged alone s t where
  toKept := h.kept hf.rows
  threadList := congrArg WorkerThread.threadList hserv
  cells := by
    have hcells : t.serv.cells = s.serv.cells := congrArg WorkerThread.cells hserv
    exact hcells.symm ▸ List.prefix_refl _

theorem Beside.refl (alone : Prop) (s : State) : Beside alone s s :=
  ⟨Grown.refl alone s, rfl, rfl, rfl⟩

theorem Beside.trans {alone : Prop} {s t u : State} (h : Beside alone s t)
    (h' : Beside alone t u) : Beside alone s u where
  toGrown := h.toGrown.trans h'.toGrown
  serv := h'.serv.trans h.serv
  warnings := h'.warnings.trans h.warnings
  ui := h'.ui.trans h.ui

theorem beside_advance {alone : Prop} (halone : ¬ alone) {s : State} {t : Nat} {w : Watcher}
    (k : Effect) (hw : s.watchers[t]? = some w) : Beside alone s (s.advance t w k) := by
  refine ⟨?_, rfl, rfl, rfl⟩
  constructor
  · unfold State.advance
    cases k.mark with
    | none => exact List.prefix_refl _
    | some i => exact map_prefix_setStatus Row.plain (fun _ _ => rfl) _ _ _
  · intro i row row' hr hr'
    obtain ⟨hlt, -⟩ := List.getElem?_eq_some_iff.mp hr
    rcases getElem?_advance t w k hlt with hsame | ⟨-, hmark⟩
    · rw [hsame, hr] at hr'
      obtain rfl := Option.some.inj hr'
      exact Or.inl rfl
    · rw [hmark, hr] at hr'
      obtain rfl := Option.some.inj hr'
      exact Or.inr rfl
  · change (s.watchers.set t { w with pc := k.pc }).map _ = _
    have hget : (s.watchers.map (·.args))[t]? = some w.args := by rw [List.getElem?_map, hw]; rfl
    obtain ⟨hlt, hargs⟩ := List.getElem?_eq_some_iff.mp hget
    rw [List.map_set, ← hargs, List.set_getElem_self]
  · rfl
  · exact fun h => absurd h halone

/-- The rest of an invocation, from the state `s` to its end in `s'`. -/
structure Finishes (alone : Prop) (s : State) (es : List Event) (s' : State) : Prop where
  handler : ∀ e ∈ es, e.handler = false
  alone : alone → ∀ e ∈ es, e.ofWatcher = false
  run : run step s es = some s'
  idle : s'.ui = .idle

theorem Finishes.cons {alone : Prop} {s s' : State} {e : Event} {es : List Event}
    (h : Finishes alone s (e :: es) s') :
    ∃ t, step s e = some t ∧ Finishes alone t es s' := by
  obtain ⟨t, ht, hrun⟩ := run_cons h.run
  refine ⟨t, ht, fun f hf => h.handler f (List.mem_cons_of_mem _ hf), fun ha f hf => ?_, hrun, h.idle⟩
  exact h.alone ha f (List.mem_cons_of_mem _ hf)

/-- Either the handler has returned, or after some steps of watchers it takes a
step. -/
theorem Finishes.next {alone : Prop} {s s' : State} {es : List Event}
    (h : Finishes alone s es s') :
    (s.ui = .idle ∧ oks es = [] ∧ Beside alone s s') ∨
      ∃ ok es' t u, oks es = ok :: oks es' ∧ Beside alone s t ∧ t.uiStep ok = some u ∧
        Finishes alone u es' s' := by
  induction es generalizing s with
  | nil =>
    obtain rfl := Option.some.inj h.run
    exact Or.inl ⟨h.idle, rfl, Beside.refl alone s⟩
  | cons e es ih =>
    obtain ⟨t, ht, hrest⟩ := h.cons
    have hhandler := h.handler e (List.mem_cons_self ..)
    cases e with
    | ui ok => exact Or.inr ⟨ok, es, s, t, rfl, Beside.refl alone s, ht, hrest⟩
    | watcher u reply =>
      obtain ⟨w, k, hw, -, rfl⟩ := step_watcher ht
      have halone : ¬ alone := fun ha => by
        have hf := h.alone ha _ (List.mem_cons_self ..)
        cases hf
      have hb := beside_advance halone k hw
      rcases ih hrest with ⟨hui, hoks, hbs⟩ | ⟨ok, es', v, v', hoks, hbs, hstep, hfin⟩
      · exact Or.inl ⟨hui, hoks, hb.trans hbs⟩
      · exact Or.inr ⟨ok, es', v, v', hoks, hb.trans hbs, hstep, hfin⟩
    | addServer | removeServer | startWatch | doubleClick | doubleClickThrows => cases hhandler

theorem Finishes.of_idle {alone : Prop} {s s' : State} {es : List Event}
    (h : Finishes alone s es s') (hui : s.ui = .idle) : oks es = [] ∧ Beside alone s s' := by
  rcases h.next with ⟨-, hoks, hb⟩ | ⟨ok, es', t, u, -, hb, hstep, -⟩
  · exact ⟨hoks, hb⟩
  · rw [State.uiStep, hb.ui, hui] at hstep
    cases hstep

theorem Finishes.step {alone : Prop} {s s' : State} {es : List Event}
    (h : Finishes alone s es s') (hui : s.ui ≠ .idle) :
    ∃ ok es' t u, oks es = ok :: oks es' ∧ Beside alone s t ∧ t.uiStep ok = some u ∧
      Finishes alone u es' s' := by
  rcases h.next with ⟨hidle, -⟩ | hnext
  · exact absurd hidle hui
  · exact hnext

/-- A handler that crashed or was left by an exception does not return. -/
theorem Finishes.returns {alone : Prop} {s s' : State} {es : List Event}
    (h : Finishes alone s es s') : s.ui ≠ .crashed ∧ s.ui ≠ .escaped := by
  constructor
  all_goals
    intro hui
    obtain ⟨ok, es', t, u, -, hb, hstep, -⟩ := h.step (by rw [hui]; exact Ui.noConfusion)
    rw [State.uiStep, hb.ui, hui] at hstep
    cases hstep

/-- The handler warns and returns. -/
theorem Beside.quits {alone : Prop} {s t s' : State} {es : List Event} {w : Warning}
    (hb : Beside alone s t) (hfin : Finishes alone { t.warn w with ui := .idle } es s') :
    oks es = [] ∧ Grown alone s s' ∧ s'.serv = s.serv := by
  obtain ⟨hoks, hb'⟩ := hfin.of_idle rfl
  have hwarn : Grown alone t { t.warn w with ui := .idle } := .of_eq rfl rfl rfl
  refine ⟨hoks, (hb.toGrown.trans hwarn).trans hb'.toGrown, ?_⟩
  rw [hb'.serv]
  exact hb.serv

/-- A handler that has come to its last `setData` gives no warning. -/
theorem end_of_written {alone : Prop} {s s' : State} {es : List Event}
    (h : Finishes alone s es s') {r : Nat}
    (hui : s.ui = .pausing r ∨ s.ui = .resuming r ∨ s.ui = .reconnected r) :
    s'.warnings = s.warnings := by
  have hne : s.ui ≠ .idle := by
    rcases hui with hui | hui | hui <;> rw [hui] <;> exact Ui.noConfusion
  obtain ⟨ok, es', t, u, -, hb, hstep, hfin⟩ := h.step hne
  have hu : u.ui = .idle ∧ u.warnings = t.warnings := by
    rcases hui with hui | hui | hui
    all_goals
      simp only [State.uiStep, hb.ui, hui] at hstep
      obtain rfl := Option.some.inj hstep
      exact ⟨rfl, rfl⟩
  obtain ⟨-, hb'⟩ := hfin.of_idle hu.1
  rw [hb'.warnings, hu.2, hb.warnings]

theorem end_of_switched {alone : Prop} {s s' : State} {es : List Event}
    (h : Finishes alone s es s') {r : Nat} {thread : ThreadWrap}
    (ht : s.serv.threadList[r]? = some thread) (hui : s.ui = .lock r ∨ s.ui = .unlock r) :
    s'.warnings = s.warnings := by
  have hne : s.ui ≠ .idle := by
    rcases hui with hui | hui <;> rw [hui] <;> exact Ui.noConfusion
  obtain ⟨ok, es', t, u, -, hb, hstep, hfin⟩ := h.step hne
  rcases hui with hui | hui
  · simp only [State.uiStep, hb.ui, hui, hb.serv, WorkerThread.setThreadLock,
      WorkerThread.setStateAt, ht, Option.map_some] at hstep
    obtain rfl := Option.some.inj hstep
    exact (end_of_written hfin (.inl rfl)).trans hb.warnings
  · simp only [State.uiStep, hb.ui, hui, hb.serv, WorkerThread.setThreadRun,
      WorkerThread.setStateAt, ht, Option.map_some] at hstep
    obtain rfl := Option.some.inj hstep
    exact (end_of_written hfin (.inr (.inl rfl))).trans hb.warnings

/-- `at(rowid)` throws when there is no entry of that number, before anything is changed. -/
theorem end_of_missing {alone : Prop} {s s' : State} {es : List Event}
    (h : Finishes alone s es s') {r : Nat} (ht : s.serv.threadList[r]? = none)
    (hui : s.ui = .lock r ∨ s.ui = .unlock r ∨ ∃ ip, s.ui = .reconnect r ip) :
    Grown alone s s' ∧ s'.serv = s.serv := by
  have hne : s.ui ≠ .idle := by
    rcases hui with hui | hui | ⟨ip, hui⟩ <;> rw [hui] <;> exact Ui.noConfusion
  obtain ⟨ok, es', t, u, -, hb, hstep, hfin⟩ := h.step hne
  rcases hui with hui | hui | ⟨ip, hui⟩
  · simp only [State.uiStep, hb.ui, hui, hb.serv, WorkerThread.setThreadLock,
      WorkerThread.setStateAt, ht, Option.map_none] at hstep
    obtain rfl := Option.some.inj hstep
    exact (hb.quits hfin).2
  · simp only [State.uiStep, hb.ui, hui, hb.serv, WorkerThread.setThreadRun,
      WorkerThread.setStateAt, ht, Option.map_none] at hstep
    obtain rfl := Option.some.inj hstep
    exact (hb.quits hfin).2
  · simp only [State.uiStep, hb.ui, hui, hb.serv, WorkerThread.setThreadRun,
      WorkerThread.setStateAt, ht, Option.map_none, ite_self] at hstep
    obtain rfl := Option.some.inj hstep
    exact (hb.quits hfin).2

/-- Creating the thread of `startTimedoutThread` fails, or there is no warning. -/
theorem end_of_respawn {alone : Prop} {s s' : State} {es : List Event}
    (h : Finishes alone s es s') {r : Nat} {ip : QString} {thread : ThreadWrap}
    (ht : s.serv.threadList[r]? = some thread) (hui : s.ui = .respawn r ip) :
    s'.warnings = s.warnings ∨ (oks es = [false] ∧ Grown alone s s' ∧ s'.serv = s.serv) := by
  obtain ⟨ok, es', t, u, hoks, hb, hstep, hfin⟩ := h.step (by rw [hui]; exact Ui.noConfusion)
  simp only [State.uiStep, hb.ui, hui, WorkerThread.respawn, hb.serv, ht, Option.map_some] at hstep
  cases ok with
  | false =>
    obtain rfl := Option.some.inj hstep
    obtain ⟨hnil, hkept, hserv⟩ := hb.quits hfin
    rw [hnil] at hoks
    exact Or.inr ⟨hoks, hkept, hserv⟩
  | true =>
    obtain rfl := Option.some.inj hstep
    exact Or.inl ((end_of_written hfin (.inr (.inr rfl))).trans hb.warnings)

/-- What `startTimedoutThread` leaves for entry `r`, when there is a warning:
nothing if the connection was not opened, else the cell set to THREAD_RUN. -/
structure Retries (alone : Prop) (thread : ThreadWrap) (opened : Option Bool) (s s' : State) :
    Prop extends Grown alone s s' where
  serv : opened = some false ∧ s'.serv = s.serv ∨
    opened = some true ∧ s'.serv = s.serv.setState thread THREAD_RUN

theorem end_of_reconnect {alone : Prop} {s s' : State} {es : List Event}
    (h : Finishes alone s es s') {r : Nat} {ip : QString} {thread : ThreadWrap}
    (ht : s.serv.threadList[r]? = some thread) (hui : s.ui = .reconnect r ip) :
    s'.warnings = s.warnings ∨ Retries alone thread (oks es)[0]? s s' := by
  obtain ⟨ok, es', t, u, hoks, hb, hstep, hfin⟩ := h.step (by rw [hui]; exact Ui.noConfusion)
  simp only [State.uiStep, hb.ui, hui, WorkerThread.setThreadRun, WorkerThread.setStateAt, hb.serv,
    ht, Option.map_some] at hstep
  rw [hoks]
  cases ok with
  | false =>
    obtain rfl := Option.some.inj hstep
    obtain ⟨-, hkept, hserv⟩ := hb.quits hfin
    exact Or.inr ⟨hkept, Or.inl ⟨rfl, hserv⟩⟩
  | true =>
    obtain rfl := Option.some.inj hstep
    rcases end_of_respawn hfin ht rfl with hw | ⟨-, hkept, hserv⟩
    · exact Or.inl (hw.trans hb.warnings)
    · have hset : Grown alone t
          { t with serv := s.serv.setState thread THREAD_RUN, ui := .respawn r ip } := .of_eq rfl rfl rfl
      exact Or.inr ⟨(hb.toGrown.trans hset).trans hkept, Or.inr ⟨rfl, hserv⟩⟩

theorem end_of_clicked {alone : Prop} {s s' : State} {es : List Event}
    (h : Finishes alone s es s') {r : Nat} {ip : QString} {thread : ThreadWrap}
    (ht : s.serv.threadList[r]? = some thread) (hui : s.ui = .clicked r ip) :
    s'.warnings = s.warnings ∨ Retries alone thread (oks es)[1]? s s' := by
  obtain ⟨ok, es', t, u, hoks, hb, hstep, hfin⟩ := h.step (by rw [hui]; exact Ui.noConfusion)
  simp only [State.uiStep, hb.ui, hui] at hstep
  rw [← hb.serv] at ht
  split at hstep
  · obtain rfl := Option.some.inj hstep
    exact Or.inl ((end_of_switched hfin ht (.inl rfl)).trans hb.warnings)
  split at hstep
  · obtain rfl := Option.some.inj hstep
    exact Or.inl ((end_of_switched hfin ht (.inr rfl)).trans hb.warnings)
  obtain rfl := Option.some.inj hstep
  rcases end_of_reconnect hfin ht rfl with hw | hretries
  · exact Or.inl (hw.trans hb.warnings)
  · have hread : Grown alone t { t with ui := .reconnect r ip } := .of_eq rfl rfl rfl
    refine Or.inr ⟨(hb.toGrown.trans hread).trans hretries.toGrown, ?_⟩
    rw [hoks, List.getElem?_cons_succ, ← hb.serv]
    exact hretries.serv

theorem end_of_clicked_missing {alone : Prop} {s s' : State} {es : List Event}
    (h : Finishes alone s es s') {r : Nat} {ip : QString} (ht : s.serv.threadList[r]? = none)
    (hui : s.ui = .clicked r ip) : Grown alone s s' ∧ s'.serv = s.serv := by
  obtain ⟨ok, es', t, u, -, hb, hstep, hfin⟩ := h.step (by rw [hui]; exact Ui.noConfusion)
  have hu : (u.ui = .lock r ∨ u.ui = .unlock r ∨ ∃ ip, u.ui = .reconnect r ip) ∧
      u.serv = t.serv ∧ Grown alone t u := by
    simp only [State.uiStep, hb.ui, hui] at hstep
    split at hstep
    · obtain rfl := Option.some.inj hstep
      exact ⟨Or.inl rfl, rfl, .of_eq rfl rfl rfl⟩
    split at hstep
    · obtain rfl := Option.some.inj hstep
      exact ⟨Or.inr (Or.inl rfl), rfl, .of_eq rfl rfl rfl⟩
    obtain rfl := Option.some.inj hstep
    exact ⟨Or.inr (Or.inr ⟨ip, rfl⟩), rfl, .of_eq rfl rfl rfl⟩
  obtain ⟨hnext, hserv, hgrown⟩ := hu
  rw [← hb.serv, ← hserv] at ht
  obtain ⟨hend, hserv'⟩ := end_of_missing hfin ht hnext
  exact ⟨(hb.toGrown.trans hgrown).trans hend, (hserv'.trans hserv).trans hb.serv⟩

theorem insertIp_eq_iff (m : List (QString × QString)) (servername serverip : QString) :
    insertIp m servername serverip = m ↔ (m.lookup servername).isSome = true := by
  unfold insertIp
  split
  · rename_i hsome
    exact iff_of_true rfl hsome
  · rename_i hnone
    exact iff_of_false (by simp) hnone

/-- What one click on Start comes to: nothing, an address without a watch, or a
watch. -/
theorem startWatch_cases {s t : State} {cur : Nat} {fileloc friendlyName : QString}
    {out : StartOutcome} (h : step s (.startWatch cur fileloc friendlyName out) = some t) :
    s.ui = .idle ∧
      ((∃ ws, t = { s with warnings := ws } ∧
          (out = .found .refused ∨ out = .found .noThread →
            ∀ parts, s.request cur fileloc friendlyName ≠ .ok parts)) ∨
        (∃ parts extra ws, s.request cur fileloc friendlyName = .ok parts ∧
          (out = .found .refused ∨ out = .found .noThread) ∧
          t = { s with
            ipnamemap := insertIp s.ipnamemap parts.1 parts.2
            serv := ⟨s.serv.threadList, s.serv.cells ++ extra⟩
            warnings := ws }) ∨
        ∃ row, t.ui = .append row ∧ t.model = s.model) := by
  simp only [step] at h
  split at h
  · rename_i hg
    obtain rfl := Option.some.inj h
    refine ⟨hg.1, ?_⟩
    unfold State.onPushButtonClicked
    cases hreq : s.request cur fileloc friendlyName with
    | error w => exact Or.inl ⟨_, rfl, fun _ parts hp => by cases hp⟩
    | ok parts =>
      cases out with
      | notAuthenticated | refused | missing =>
        exact Or.inl ⟨_, rfl, fun hout => by rcases hout with hout | hout <;> cases hout⟩
      | found thread =>
        cases thread with
        | refused =>
          refine Or.inr (Or.inl ⟨parts, [], s.warnings ++ [.watchDown], rfl, Or.inl rfl, ?_⟩)
          simp [WorkerThread.startNewThread, State.warn]
        | noThread =>
          refine Or.inr (Or.inl ⟨parts, [THREAD_RUN], s.warnings ++ [.watchDown], rfl, Or.inr rfl, ?_⟩)
          simp [WorkerThread.startNewThread, WorkerThread.newThreadWrap, State.warn]
        | started => exact Or.inr (Or.inr ⟨_, rfl, rfl⟩)
  · cases h

/-- The step of `appendRow` is still to come, so a row is added. -/
theorem end_of_append {alone : Prop} {s s' : State} {es : List Event}
    (h : Finishes alone s es s') {row : Row} (hui : s.ui = .append row) :
    s.model.length < s'.model.length := by
  obtain ⟨ok, es', t, u, -, hb, hstep, hfin⟩ := h.step (by rw [hui]; exact Ui.noConfusion)
  simp only [State.uiStep, hb.ui, hui] at hstep
  obtain rfl := Option.some.inj hstep
  obtain ⟨-, hb'⟩ := hfin.of_idle rfl
  have hlen := hb'.length
  rw [List.length_append, List.length_singleton] at hlen
  exact hb.length.trans_lt hlen

theorem startWatch_unchanged_iff {alone : Prop} {s t s' : State} {cur : Nat}
    {fileloc friendlyName : QString} {out : StartOutcome} {es : List Event}
    (hs : step s (.startWatch cur fileloc friendlyName out) = some t)
    (h : Finishes alone t es s') (hf : Failed s s') :
    Unchanged alone s s' ↔ Harmless s es (.startWatch cur fileloc friendlyName out) := by
  obtain ⟨hui, ⟨ws, rfl, hno⟩ | ⟨parts, extra, ws, hreq, hout, rfl⟩ | ⟨row, hrow, hmodel⟩⟩ :=
    startWatch_cases hs
  · obtain ⟨-, hb⟩ := h.of_idle hui
    have hwarn : Grown alone s { s with warnings := ws } := .of_eq rfl rfl rfl
    exact iff_of_true ((hwarn.trans hb.toGrown).unchanged hf hb.serv) fun hout parts hreq =>
      absurd hreq (hno hout parts)
  · obtain ⟨-, hb⟩ := h.of_idle hui
    constructor
    · intro hunch _ parts' hreq'
      rw [hreq] at hreq'
      cases hreq'
      have hsame := hunch.ipnamemap
      rw [hb.ipnamemap] at hsame
      exact (insertIp_eq_iff _ _ parts.2).mp hsame
    · intro hharm
      have hip := (insertIp_eq_iff _ _ parts.2).mpr (hharm hout parts hreq)
      rw [hip] at hb
      have hwarn : Grown alone s
          { s with serv := ⟨s.serv.threadList, s.serv.cells ++ extra⟩, warnings := ws } :=
        .of_eq rfl rfl rfl
      have hserv : s'.serv = ⟨s.serv.threadList, s.serv.cells ++ extra⟩ := hb.serv
      have hcells : s.serv.cells <+: s'.serv.cells := hserv.symm ▸ List.prefix_append _ _
      exact ⟨(hwarn.trans hb.toGrown).kept hf.rows, by rw [hserv], hcells⟩
  · have hlen := end_of_append h hrow
    rw [hf.rows, hmodel] at hlen
    omega

/-- Setting a cell leaves the cells as they were just when it had the value. -/
theorem prefix_set_iff {cells : List Int} {c : Nat} (hc : c < cells.length) (v : Int) :
    cells <+: cells.set c v ↔ cells.getD c 0 = v := by
  rw [List.getD_eq_getElem _ _ hc]
  constructor
  · intro h
    have heq := h.eq_of_length (by rw [List.length_set])
    have hget : cells[c]? = (cells.set c v)[c]? := congrArg (fun l : List Int => l[c]?) heq
    rw [List.getElem?_set_self hc, List.getElem?_eq_getElem hc] at hget
    exact Option.some.inj hget
  · intro h
    have hset : cells.set c v = cells := by rw [← h, List.set_getElem_self]
    exact hset.symm ▸ List.prefix_refl _

/-- The handler does nothing but warn. -/
theorem unchanged_of_quiet {alone : Prop} {s s' : State} {ws : List Warning} {es : List Event}
    (hui : s.ui = .idle) (h : Finishes alone { s with warnings := ws } es s') (hf : Failed s s') :
    oks es = [] ∧ Unchanged alone s s' := by
  obtain ⟨hoks, hb⟩ := h.of_idle hui
  have hwarn : Grown alone s { s with warnings := ws } := .of_eq rfl rfl rfl
  exact ⟨hoks, (hwarn.trans hb.toGrown).unchanged hf hb.serv⟩

theorem doubleClick_unchanged_iff {alone : Prop} {s t s' : State} {row column : Nat}
    {opened answered : Bool} {es : List Event} (hp : s.serv.Private)
    (hs : step s (.doubleClick row column opened answered) = some t)
    (h : Finishes alone t es s') (hf : Failed s s') :
    Unchanged alone s s' ↔ Harmless s es (.doubleClick row column opened answered) := by
  cases move_of_step hs with
  | quiet _ ws hui =>
    obtain ⟨hoks, hunch⟩ := unchanged_of_quiet hui h hf
    refine iff_of_true hunch fun hok => ?_
    rw [hoks] at hok
    cases hok
  | crashed => exact absurd rfl h.returns.1
  | clicked row opened answered r serverip hui hr hip =>
    have hread : Grown alone s { s with ui := .clicked row serverip } := .of_eq rfl rfl rfl
    cases ht : s.serv.threadList[row]? with
    | none =>
      obtain ⟨hgrown, hserv⟩ := end_of_clicked_missing h ht rfl
      refine iff_of_true ((hread.trans hgrown).unchanged hf hserv) fun _ thread hthread => ?_
      rw [ht] at hthread
      cases hthread
    | some own =>
      have hfresh := hp.fresh (List.mem_of_getElem? ht)
      rcases end_of_clicked h ht rfl with hw | hretries
      · exact absurd hw hf.warned
      have hgrown := hread.trans hretries.toGrown
      rcases hretries.serv with ⟨hok, hserv⟩ | ⟨hok, hserv⟩
      · refine iff_of_true (hgrown.unchanged hf hserv) fun hok' => ?_
        rw [hok] at hok'
        cases hok'
      · have hcells : s.serv.cells <+: s'.serv.cells ↔ s.cell own.runstate = THREAD_RUN := by
          rw [hserv]
          exact prefix_set_iff hfresh THREAD_RUN
        constructor
        · intro hunch _ thread hthread
          obtain rfl := Option.some.inj (ht.symm.trans hthread)
          exact hcells.mp hunch.cells
        · intro hharm
          have hlist := congrArg WorkerThread.threadList hserv
          exact ⟨hgrown.kept hf.rows, hlist, hcells.mpr (hharm hok own ht)⟩

/-- A double click that an exception left does not return. -/
theorem doubleClickThrows_unchanged {alone : Prop} {s t s' : State} {row column : Nat}
    {es : List Event} (hs : step s (.doubleClickThrows row column) = some t)
    (h : Finishes alone t es s') (hf : Failed s s') : Unchanged alone s s' := by
  cases move_of_step hs with
  | quiet _ ws hui => exact (unchanged_of_quiet hui h hf).2
  | crashed => exact absurd rfl h.returns.1
  | escaped => exact absurd rfl h.returns.2

/-- An invocation that adds no row, changes no status and warns leaves the watch
state as it was exactly when thread creation does not fail after the handler has
made its change. -/
theorem failed_unchanged_iff {s s' : State} {e : Event} {es : List Event}
    (hs : Reachable step start s) (he : e.watches = true) (hes : ∀ f ∈ es, f.handler = false)
    (hr : run step s (e :: es) = some s') (hui : s'.ui = .idle) (hf : Failed s s') :
    Unchanged (∀ f ∈ es, f.ofWatcher = false) s s' ↔ Harmless s es e := by
  obtain ⟨t, ht, hrun⟩ := run_cons hr
  have hfin : Finishes (∀ f ∈ es, f.ofWatcher = false) t es s' := ⟨hes, fun ha => ha, hrun, hui⟩
  cases e with
  | startWatch cur fileloc friendlyName out => exact startWatch_unchanged_iff ht hfin hf
  | doubleClick row column opened answered =>
    exact doubleClick_unchanged_iff (private_of_reachable hs) ht hfin hf
  | doubleClickThrows row column =>
    exact iff_of_true (doubleClickThrows_unchanged ht hfin hf) trivial
  | addServer | removeServer | ui | watcher => cases he

theorem failed_of_same {s t : State} (hm : t.model = s.model) (hw : t.warnings ≠ s.warnings) :
    Failed s t where
  rows := by rw [hm]
  statuses i row row' hr hr' := by
    rw [hm, hr] at hr'
    obtain rfl := Option.some.inj hr'
    exact Or.inl rfl
  warned := hw

/-- A watch has failed and was marked; another one has been started. -/
def failedBesideOther : List Event :=
  [.startWatch 0 ['f'] ['x'] (.found .started), .ui true] ++ List.replicate 11 (.watcher 0 none) ++
  [.startWatch 0 ['g'] ['y'] (.found .started), .ui true]

/-- The failed watch is not reconnected; the other one moves meanwhile. -/
def reconnectRefused : List Event := [.ui true, .watcher 1 none, .ui false]

theorem refused_reconnect_unchanged : ∃ s s', run step start failedBesideOther = some s ∧
    s.model.map (·.status) = [connectionError, active] ∧
    run step s (.doubleClick 0 3 true true :: reconnectRefused) = some s' ∧
    s'.warnings = [.notRunning] ∧ s'.watchers ≠ s.watchers ∧
    Unchanged (∀ f ∈ reconnectRefused, f.ofWatcher = false) s s' := by
  obtain ⟨s, s', hs, hst, hr, hui, hm, hold, hw, hne⟩ : ∃ s s',
      run step start failedBesideOther = some s ∧
      s.model.map (·.status) = [connectionError, active] ∧
      run step s (.doubleClick 0 3 true true :: reconnectRefused) = some s' ∧ s'.ui = .idle ∧
      s'.model = s.model ∧ s.warnings = [] ∧ s'.warnings = [.notRunning] ∧
      s'.watchers ≠ s.watchers := by
    refine ⟨_, _, rfl, rfl, rfl, rfl, rfl, rfl, rfl, ?_⟩
    decide
  refine ⟨s, s', hs, hst, hr, hw, hne, ?_⟩
  have hharm : Harmless s reconnectRefused (.doubleClick 0 3 true true) := by
    intro hok
    cases hok
  exact (failed_unchanged_iff ⟨failedBesideOther, hs⟩ rfl (by decide) hr hui
    (failed_of_same hm (by rw [hw, hold]; decide))).mpr hharm

/-- `startNewThread` cannot connect, and the address stays in `ipnamemap`. -/
theorem failed_start_keeps_address :
    ∃ s', run step start [.startWatch 0 ['f'] ['x'] (.found .refused)] = some s' ∧
      s'.ui = .idle ∧ Failed start s' ∧
      ¬ Unchanged (∀ f ∈ ([] : List Event), f.ofWatcher = false) start s' := by
  refine ⟨_, rfl, rfl, failed_of_same rfl (by decide), fun h => ?_⟩
  have hip := h.ipnamemap
  revert hip
  decide

end Errifier.Client
