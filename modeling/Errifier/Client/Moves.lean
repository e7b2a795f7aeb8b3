import Errifier.Client.Ui

/-!
# What one step of the client can do

`Move` lists every way a step changes the state, with the guards it was taken
under, and `move_of_step` says the list is complete. The invariants of the other
modules are case analyses of `Move`; none of them unfolds `step` again.
-/
namespace Errifier.Client

set_option autoImplicit false

open Errifier.Text Errifier.Machine
open WorkerThread (ThreadOutcome)

/-- The row that `on_pushButton_clicked` adds for the cell it is given. -/
def newRow (s : State) (cur : Nat) (fileloc friendlyName : QString) (servername : QString) : Row :=
  ⟨servername, fileloc, friendlyName, active, s.serv.cells.length, s.serverlist[cur]?⟩

/-- The state after `startNewThread` returned 1. -/
def started (s : State) (cur : Nat) (fileloc friendlyName servername serverip : QString) :
    State :=
  { s with
    ipnamemap := insertIp s.ipnamemap servername serverip
    serv := ⟨s.serv.threadList ++ [⟨toStdString servername, s.serv.cells.length⟩],
      s.serv.cells ++ [THREAD_RUN]⟩
    watchers := s.watchers ++ [⟨⟨s.serv.cells.length, toStdString fileloc, toStdString serverip,
      toStdString friendlyName, toStdString servername⟩, .init⟩]
    ui := .append (newRow s cur fileloc friendlyName servername) }

/-- The watcher that reconnecting row `rowid` starts on the cell of `thread`. -/
def respawned (s : State) (rowid : Nat) (serverip : QString) (thread : ThreadWrap) : Watcher :=
  ⟨⟨thread.runstate, toStdString (dataAt s.model rowid (·.fileloc)), toStdString serverip,
    toStdString (dataAt s.model rowid (·.friendlyName)),
    toStdString (dataAt s.model rowid (·.servername))⟩, .init⟩

/-- The events that start a handler. -/
def Event.handler : Event → Bool
  | .ui _ | .watcher _ _ => false
  | _ => true

/-- The events that start `on_tableView_doubleClicked`. -/
def Event.clicks : Event → Bool
  | .doubleClick .. | .doubleClickThrows .. => true
  | _ => false

theorem handler_of_clicks {e : Event} (h : e.clicks = true) : e.handler = true := by
  cases e with
  | doubleClick | doubleClickThrows => rfl
  | _ => cases h

inductive Move (s : State) : Event → State → Prop
  | quiet (e : Event) (ws : List Warning) (hui : s.ui = .idle) (he : e.handler = true) :
      Move s e { s with warnings := ws }
  | listed (servername serverip : QString) (entry : ServerEntry) (hui : s.ui = .idle) :
      Move s (.addServer servername serverip) { s with serverlist := s.serverlist ++ [entry] }
  | removing (cur : Nat) (hui : s.ui = .idle) (hsel : s.selects cur) :
      Move s (.removeServer cur) (s.removeServer cur)
  | unstarted (cur : Nat) (fileloc friendlyName : QString) (out : StartOutcome)
      (parts : QString × QString) (extra : List Int) (ws : List Warning) (hui : s.ui = .idle)
      (hreq : s.request cur fileloc friendlyName = .ok parts) :
      Move s (.startWatch cur fileloc friendlyName out)
        { s with
          ipnamemap := insertIp s.ipnamemap parts.1 parts.2
          serv := ⟨s.serv.threadList, s.serv.cells ++ extra⟩
          warnings := ws }
  | started (cur : Nat) (fileloc friendlyName : QString) (parts : QString × QString)
      (hui : s.ui = .idle) (hreq : s.request cur fileloc friendlyName = .ok parts) :
      Move s (.startWatch cur fileloc friendlyName (.found .started))
        (started s cur fileloc friendlyName parts.1 parts.2)
  | crashed (e : Event) (row : Nat) (r : Row) (hui : s.ui = .idle) (he : e.clicks = true)
      (hr : s.model[row]? = some r) (hip : s.ipnamemap.lookup r.servername = none) :
      Move s e { s with ui := .crashed }
  | escaped (row column : Nat) (hui : s.ui = .idle) :
      Move s (.doubleClickThrows row column) { s with ui := .escaped }
  | clicked (row : Nat) (opened answered : Bool) (r : Row) (serverip : QString)
      (hui : s.ui = .idle) (hr : s.model[row]? = some r)
      (hip : s.ipnamemap.lookup r.servername = some serverip) :
      Move s (.doubleClick row 3 opened answered) { s with ui := .clicked row serverip }
  | appended (ok : Bool) (row : Row) (hui : s.ui = .append row) :
      Move s (.ui ok) { s with model := s.model ++ [row], ui := .idle }
  | threadErased (ok : Bool) (servername : QString) (i : Nat) (thread : ThreadWrap)
      (hui : s.ui = .removeThreads servername i) (ht : s.serv.threadList[i]? = some thread)
      (hname : toStdString servername = thread.servername) :
      Move s (.ui ok)
        { s with
          serv := ⟨s.serv.threadList.eraseIdx i, s.serv.cells.set thread.runstate THREAD_STOP⟩
          ui := .removeThreads servername i }
  | threadKept (ok : Bool) (servername : QString) (i : Nat) (thread : ThreadWrap)
      (hui : s.ui = .removeThreads servername i) (ht : s.serv.threadList[i]? = some thread)
      (hname : toStdString servername ≠ thread.servername) :
      Move s (.ui ok) { s with ui := .removeThreads servername (i + 1) }
  | threadsDone (ok : Bool) (servername : QString) (i : Nat)
      (hui : s.ui = .removeThreads servername i) (ht : s.serv.threadList[i]? = none) :
      Move s (.ui ok) { s with ui := .removeRows servername 0 }
  | rowErased (ok : Bool) (servername : QString) (i : Nat) (row : Row)
      (hui : s.ui = .removeRows servername i) (hr : s.model[i]? = some row)
      (hname : toStdString row.servername = toStdString servername) :
      Move s (.ui ok) { s with model := s.model.eraseIdx i, ui := .removeRows servername i }
  | rowKept (ok : Bool) (servername : QString) (i : Nat) (row : Row)
      (hui : s.ui = .removeRows servername i) (hr : s.model[i]? = some row)
      (hname : toStdString row.servername ≠ toStdString servername) :
      Move s (.ui ok) { s with ui := .removeRows servername (i + 1) }
  | rowsDone (ok : Bool) (servername : QString) (i : Nat)
      (hui : s.ui = .removeRows servername i) (hr : s.model[i]? = none) :
      Move s (.ui ok) { s with ui := .idle }
  | readActive (ok : Bool) (rowid : Nat) (serverip : QString) (hui : s.ui = .clicked rowid serverip) :
      Move s (.ui ok) { s with ui := .lock rowid }
  | readPaused (ok : Bool) (rowid : Nat) (serverip : QString) (hui : s.ui = .clicked rowid serverip) :
      Move s (.ui ok) { s with ui := .unlock rowid }
  | readError (ok : Bool) (rowid : Nat) (serverip : QString) (hui : s.ui = .clicked rowid serverip)
      (hst : dataAt s.model rowid (·.status) ≠ active ∧ dataAt s.model rowid (·.status) ≠ paused) :
      Move s (.ui ok) { s with ui := .reconnect rowid serverip }
  | locked (ok : Bool) (rowid : Nat) (thread : ThreadWrap) (hui : s.ui = .lock rowid)
      (ht : s.serv.threadList[rowid]? = some thread) :
      Move s (.ui ok)
        { s with serv := s.serv.setState thread THREAD_LOCK, ui := .pausing rowid }
  | unlocked (ok : Bool) (rowid : Nat) (thread : ThreadWrap) (hui : s.ui = .unlock rowid)
      (ht : s.serv.threadList[rowid]? = some thread) :
      Move s (.ui ok)
        { s with serv := s.serv.setState thread THREAD_RUN, ui := .resuming rowid }
  | readied (rowid : Nat) (serverip : QString) (thread : ThreadWrap)
      (hui : s.ui = .reconnect rowid serverip) (ht : s.serv.threadList[rowid]? = some thread) :
      Move s (.ui true)
        { s with serv := s.serv.setState thread THREAD_RUN, ui := .respawn rowid serverip }
  | respawned (rowid : Nat) (serverip : QString) (thread : ThreadWrap)
      (hui : s.ui = .respawn rowid serverip) (ht : s.serv.threadList[rowid]? = some thread) :
      Move s (.ui true)
        { s with watchers := s.watchers ++ [respawned s rowid serverip thread],
                 ui := .reconnected rowid }
  | gaveUp (ok : Bool) (ws : List Warning)
      (hui : (∃ r, s.ui = .lock r ∧ s.serv.threadList[r]? = none) ∨
        (∃ r, s.ui = .unlock r ∧ s.serv.threadList[r]? = none) ∨
        (∃ r ip, s.ui = .reconnect r ip) ∨ ∃ r ip, s.ui = .respawn r ip) :
      Move s (.ui ok) { s with warnings := ws, ui := .idle }
  | paused (ok : Bool) (rowid : Nat) (hui : s.ui = .pausing rowid) :
      Move s (.ui ok) { s with model := setStatus s.model rowid paused, ui := .idle }
  | activated (ok : Bool) (rowid : Nat) (hui : s.ui = .resuming rowid ∨ s.ui = .reconnected rowid) :
      Move s (.ui ok) { s with model := setStatus s.model rowid active, ui := .idle }
  | watched (t : Nat) (reply : Option Int) (w : Watcher) (k : Effect)
      (hw : s.watchers[t]? = some w)
      (hk : startWatch s.serv.cells s.model w.args reply w.pc = some k) :
      Move s (.watcher t reply) (s.advance t w k)

theorem toStdString_ne {a b : QString} (h : toStdString a ≠ toStdString b) : a ≠ b :=
  fun he => h (congrArg toStdString he)

theorem move_of_addServer {s s' : State} {servername serverip : QString}
    (h : step s (.addServer servername serverip) = some s') :
    Move s (.addServer servername serverip) s' := by
  simp only [step] at h
  split at h
  · rename_i hui
    obtain rfl := Option.some.inj h
    unfold State.addServerHandler
    split
    · exact .listed _ _ _ hui
    · exact .quiet _ s.warnings hui rfl
  · cases h

theorem move_of_startWatch {s s' : State} {cur : Nat} {fileloc friendlyName : QString}
    {out : StartOutcome} (h : step s (.startWatch cur fileloc friendlyName out) = some s') :
    Move s (.startWatch cur fileloc friendlyName out) s' := by
  simp only [step] at h
  split at h
  · rename_i hg
    obtain rfl := Option.some.inj h
    unfold State.onPushButtonClicked
    cases hreq : s.request cur fileloc friendlyName with
    | error w => exact .quiet _ _ hg.1 rfl
    | ok parts =>
      cases out with
      | notAuthenticated => exact .quiet _ _ hg.1 rfl
      | refused => exact .quiet _ _ hg.1 rfl
      | missing => exact .quiet _ _ hg.1 rfl
      | found thread =>
        cases thread with
        | refused =>
          have hm := Move.unstarted (s := s) cur fileloc friendlyName (.found .refused) parts []
            (s.warnings ++ [.watchDown]) hg.1 hreq
          simpa [WorkerThread.startNewThread, State.warn] using hm
        | noThread =>
          have hm := Move.unstarted (s := s) cur fileloc friendlyName (.found .noThread) parts
            [THREAD_RUN] (s.warnings ++ [.watchDown]) hg.1 hreq
          simpa [WorkerThread.startNewThread, WorkerThread.newThreadWrap, State.warn] using hm
        | started => exact .started _ _ _ parts hg.1 hreq
  · cases h

theorem move_of_doubleClick {s s' : State} {row column : Nat} {opened answered : Bool}
    (h : step s (.doubleClick row column opened answered) = some s') :
    Move s (.doubleClick row column opened answered) s' := by
  simp only [step] at h
  split at h
  · rename_i hui
    unfold State.onTableViewDoubleClicked at h
    cases hr : s.model[row]? with
    | none => simp [hr] at h
    | some r =>
      cases hip : s.ipnamemap.lookup r.servername with
      | none =>
        simp only [hr, hip, Option.some.injEq] at h
        subst h
        exact .crashed _ row r hui rfl hr hip
      | some serverip =>
        simp only [hr, hip, Bool.not_true, Bool.false_eq_true, if_false] at h
        split at h
        · obtain rfl := Option.some.inj h
          exact .quiet _ _ hui rfl
        · split at h
          · obtain rfl := Option.some.inj h
            split
            · exact .quiet _ s.warnings hui rfl
            · exact .quiet _ _ hui rfl
          · obtain rfl := Option.some.inj h
            exact .clicked _ _ _ r serverip hui hr hip
          · obtain rfl := Option.some.inj h
            exact .quiet _ s.warnings hui rfl
  · cases h

theorem move_of_doubleClickThrows {s s' : State} {row column : Nat}
    (h : step s (.doubleClickThrows row column) = some s') :
    Move s (.doubleClickThrows row column) s' := by
  simp only [step] at h
  split at h
  · rename_i hui
    unfold State.onTableViewDoubleClicked at h
    cases hr : s.model[row]? with
    | none => simp [hr] at h
    | some r =>
      cases hip : s.ipnamemap.lookup r.servername with
      | none =>
        simp only [hr, hip, Option.some.injEq] at h
        subst h
        exact .crashed _ row r hui rfl hr hip
      | some serverip =>
        simp only [hr, hip, Bool.not_false, if_true, Option.some.injEq] at h
        subst h
        exact .escaped _ _ hui
  · cases h

theorem move_of_removeThreads {s s' : State} {ok : Bool} {servername : QString} {i : Nat}
    (hui : s.ui = .removeThreads servername i) (h : s.uiStep ok = some s') :
    Move s (.ui ok) s' := by
  simp only [State.uiStep, hui, WorkerThread.removeServerAt] at h
  cases ht : s.serv.threadList[i]? with
  | none =>
    simp only [ht, Option.some.injEq] at h
    subst h
    exact .threadsDone _ _ _ hui ht
  | some thread =>
    simp only [ht] at h
    by_cases hname : toStdString servername = thread.servername
    · simp only [hname, if_true, Option.some.injEq] at h
      subst h
      exact .threadErased _ _ _ thread hui ht hname
    · simp only [hname, if_false, Option.some.injEq] at h
      subst h
      exact .threadKept _ _ _ thread hui ht hname

theorem move_of_removeRows {s s' : State} {ok : Bool} {servername : QString} {i : Nat}
    (hui : s.ui = .removeRows servername i) (h : s.uiStep ok = some s') :
    Move s (.ui ok) s' := by
  simp only [State.uiStep, hui, removeRowAt] at h
  cases hr : s.model[i]? with
  | none =>
    simp only [hr, Option.some.injEq] at h
    subst h
    exact .rowsDone _ _ _ hui hr
  | some row =>
    simp only [hr] at h
    by_cases hname : toStdString row.servername = toStdString servername
    · simp only [hname, if_true, Option.some.injEq] at h
      subst h
      exact .rowErased _ _ _ row hui hr hname
    · simp only [hname, if_false, Option.some.injEq] at h
      subst h
      exact .rowKept _ _ _ row hui hr hname

/-- The branches of `on_tableView_doubleClicked` after the status was read. -/
theorem move_of_clicked {s s' : State} {ok : Bool} {rowid : Nat} {serverip : QString}
    (hui : s.ui = .clicked rowid serverip) (h : s.uiStep ok = some s') :
    Move s (.ui ok) s' := by
  simp only [State.uiStep, hui] at h
  split at h
  · obtain rfl := Option.some.inj h
    exact .readActive _ _ _ hui
  · rename_i hactive
    split at h
    · obtain rfl := Option.some.inj h
      exact .readPaused _ _ _ hui
    · rename_i hpaused
      obtain rfl := Option.some.inj h
      exact .readError _ _ _ hui ⟨toStdString_ne hactive, toStdString_ne hpaused⟩

theorem move_of_lock {s s' : State} {ok : Bool} {rowid : Nat} (hui : s.ui = .lock rowid)
    (h : s.uiStep ok = some s') : Move s (.ui ok) s' := by
  simp only [State.uiStep, hui, WorkerThread.setThreadLock, WorkerThread.setStateAt] at h
  cases ht : s.serv.threadList[rowid]? with
  | none =>
    simp only [ht, Option.map_none, Option.some.injEq] at h
    subst h
    exact .gaveUp _ _ (.inl ⟨_, hui, ht⟩)
  | some thread =>
    simp only [ht, Option.map_some, Option.some.injEq] at h
    subst h
    exact .locked _ _ thread hui ht

theorem move_of_unlock {s s' : State} {ok : Bool} {rowid : Nat} (hui : s.ui = .unlock rowid)
    (h : s.uiStep ok = some s') : Move s (.ui ok) s' := by
  simp only [State.uiStep, hui, WorkerThread.setThreadRun, WorkerThread.setStateAt] at h
  cases ht : s.serv.threadList[rowid]? with
  | none =>
    simp only [ht, Option.map_none, Option.some.injEq] at h
    subst h
    exact .gaveUp _ _ (.inr (.inl ⟨_, hui, ht⟩))
  | some thread =>
    simp only [ht, Option.map_some, Option.some.injEq] at h
    subst h
    exact .unlocked _ _ thread hui ht

theorem move_of_reconnect {s s' : State} {ok : Bool} {rowid : Nat} {serverip : QString}
    (hui : s.ui = .reconnect rowid serverip) (h : s.uiStep ok = some s') :
    Move s (.ui ok) s' := by
  have hgive : ∀ ws, Move s (.ui ok) { s with warnings := ws, ui := .idle } :=
    fun ws => .gaveUp _ ws (.inr (.inr (.inl ⟨_, _, hui⟩)))
  simp only [State.uiStep, hui, WorkerThread.setThreadRun, WorkerThread.setStateAt] at h
  cases ok with
  | false =>
    obtain rfl := Option.some.inj h
    exact hgive _
  | true =>
    cases ht : s.serv.threadList[rowid]? with
    | none =>
      simp only [ht, Option.map_none, Bool.not_true, Bool.false_eq_true, if_false,
        Option.some.injEq] at h
      subst h
      exact hgive _
    | some thread =>
      simp only [ht, Option.map_some, Bool.not_true, Bool.false_eq_true, if_false,
        Option.some.injEq] at h
      subst h
      exact .readied _ _ thread hui ht

theorem move_of_respawn {s s' : State} {ok : Bool} {rowid : Nat} {serverip : QString}
    (hui : s.ui = .respawn rowid serverip) (h : s.uiStep ok = some s') :
    Move s (.ui ok) s' := by
  have hgive : ∀ ws, Move s (.ui ok) { s with warnings := ws, ui := .idle } :=
    fun ws => .gaveUp _ ws (.inr (.inr (.inr ⟨_, _, hui⟩)))
  simp only [State.uiStep, hui, WorkerThread.respawn] at h
  cases ok with
  | false =>
    obtain rfl := Option.some.inj h
    exact hgive _
  | true =>
    cases ht : s.serv.threadList[rowid]? with
    | none =>
      simp only [ht, Option.map_none, Bool.not_true, Bool.false_eq_true, if_false,
        Option.some.injEq] at h
      subst h
      exact hgive _
    | some thread =>
      simp only [ht, Option.map_some, Bool.not_true, Bool.false_eq_true, if_false,
        Option.some.injEq] at h
      subst h
      exact .respawned _ _ thread hui ht

theorem move_of_ui {s s' : State} {ok : Bool} (h : step s (.ui ok) = some s') :
    Move s (.ui ok) s' := by
  change s.uiStep ok = some s' at h
  cases hui : s.ui with
  | idle => simp [State.uiStep, hui] at h
  | crashed => simp [State.uiStep, hui] at h
  | escaped => simp [State.uiStep, hui] at h
  | append row =>
    simp only [State.uiStep, hui, Option.some.injEq] at h
    subst h
    exact .appended _ _ hui
  | removeThreads servername i => exact move_of_removeThreads hui h
  | removeRows servername i => exact move_of_removeRows hui h
  | clicked rowid serverip => exact move_of_clicked hui h
  | lock rowid => exact move_of_lock hui h
  | unlock rowid => exact move_of_unlock hui h
  | reconnect rowid serverip => exact move_of_reconnect hui h
  | respawn rowid serverip => exact move_of_respawn hui h
  | pausing rowid =>
    simp only [State.uiStep, hui, Option.some.injEq] at h
    subst h
    exact .paused _ _ hui
  | resuming rowid =>
    simp only [State.uiStep, hui, Option.some.injEq] at h
    subst h
    exact .activated _ _ (.inl hui)
  | reconnected rowid =>
    simp only [State.uiStep, hui, Option.some.injEq] at h
    subst h
    exact .activated _ _ (.inr hui)

theorem step_watcher {s s' : State} {t : Nat} {reply : Option Int}
    (hs : step s (.watcher t reply) = some s') :
    ∃ w k, s.watchers[t]? = some w ∧
      startWatch s.serv.cells s.model w.args reply w.pc = some k ∧ s' = s.advance t w k := by
  simp only [step, State.watcherStep] at hs
  cases hw : s.watchers[t]? with
  | none => simp [hw] at hs
  | some w =>
    simp only [hw] at hs
    obtain ⟨k, hk, rfl⟩ := Option.map_eq_some_iff.mp hs
    exact ⟨w, k, rfl, hk, rfl⟩

/-- The list of moves is complete. -/
theorem move_of_step {s s' : State} {e : Event} (h : step s e = some s') : Move s e s' := by
  cases e with
  | addServer servername serverip => exact move_of_addServer h
  | removeServer cur =>
    simp only [step] at h
    split at h
    · rename_i hg
      obtain rfl := Option.some.inj h
      exact .removing _ hg.1 hg.2
    · cases h
  | startWatch cur fileloc friendlyName out => exact move_of_startWatch h
  | doubleClick row column opened answered => exact move_of_doubleClick h
  | doubleClickThrows row column => exact move_of_doubleClickThrows h
  | ui ok => exact move_of_ui h
  | watcher t reply =>
    obtain ⟨w, k, hw, hk, rfl⟩ := step_watcher h
    exact .watched t reply w k hw hk

end Errifier.Client
