import Errifier.Client.Rows

/-!
# Alarms and the run-state cell

`startWatch` reads the cell before the call that blocks and not again before
`notify_notification_show`. So an alarm respects the cell exactly when the reply
arrives while it is THREAD_RUN and no handler writes it between reply and show.
-/
namespace Errifier.Client

set_option autoImplicit false

open Errifier.Text Errifier.Machine
open WorkerThread (named)

theorem show_of_alarm {cells : List Int} {model : List Row} {a : WatchArgs}
    {reply : Option Int} {pc : Pc} {k : Effect} {friendlyname servername : StdString}
    (hk : startWatch cells model a reply pc = some k)
    (hn : k.notice = some (.alarm friendlyname servername)) : pc = .show := by
  cases acts_of_startWatch hk with
  | shows => rfl
  | _ => cases hn

/-- Only a reply of 1 leads to the alarm. -/
theorem show_iff {cells : List Int} {model : List Row} {a : WatchArgs} {reply : Option Int}
    {pc : Pc} {k : Effect} (hk : startWatch cells model a reply pc = some k) :
    k.pc = .show ↔ pc = .call ∧ reply = some 1 := by
  cases acts_of_startWatch hk with
  | replied r =>
    by_cases hr : r = 1
    · simp [afterReply, hr]
    · simp [afterReply, hr]
  | loops =>
    unfold afterLoopTest
    split <;> simp
  | tests =>
    unfold afterRunTest
    split <;> simp
  | _ => simp

/-- A watcher about to show an alarm has a cell that is THREAD_RUN. -/
def AlarmsRunning (s : State) : Prop :=
  ∀ w ∈ s.watchers, w.pc = .show → s.cell w.args.runstate = THREAD_RUN

/-- Whichever watcher moves next, it shows an alarm only while its cell is
THREAD_RUN. -/
def ShowsRunning (s : State) : Prop :=
  ∀ (t : Nat) (reply : Option Int) (w : Watcher) (s' : State), s.watchers[t]? = some w →
    step s (.watcher t reply) = some s' →
    ∀ friendlyname servername, s'.shown = s.shown ++ [.alarm friendlyname servername] →
      s.cell w.args.runstate = THREAD_RUN

theorem showsRunning_iff {s : State} : ShowsRunning s ↔ AlarmsRunning s := by
  constructor
  · intro h w hw hshow
    obtain ⟨t, ht⟩ := List.mem_iff_getElem?.mp hw
    have hs : step s (.watcher t none) = some (s.advance t w
        { pc := .loop, notice := some (.alarm w.args.friendlyname w.args.servername) }) := by
      rw [step, State.watcherStep, ht]
      simp only [hshow, startWatch, Option.map_some]
    exact h t none w _ ht hs _ _ rfl
  · intro h t reply w s' ht hs friendlyname servername hshown
    obtain ⟨w', k, hw', hk, rfl⟩ := step_watcher hs
    obtain rfl := Option.some.inj (ht.symm.trans hw')
    have hlist : k.notice.toList = [.alarm friendlyname servername] :=
      List.append_cancel_left hshown
    have hnotice : k.notice = some (.alarm friendlyname servername) :=
      Option.toList_eq_singleton_iff.mp hlist
    exact h w (List.mem_of_getElem? ht) (show_of_alarm hk hnotice)

/-- The cell that the next step of the handler locks or stops. -/
def State.silenced (s : State) : Option Nat :=
  match s.ui with
  | .lock rowid => s.serv.threadList[rowid]?.map (·.runstate)
  | .removeThreads servername i =>
    (s.serv.threadList[i]?.filter (named (toStdString servername))).map (·.runstate)
  | _ => none

/-- The reply 1 comes while the cell is THREAD_RUN, and no handler locks or
stops the cell of a watcher that has the reply and has not shown it yet. -/
def RepliedRunning (s : State) : Event → Prop
  | .watcher t reply => ∀ w ∈ s.watchers[t]?, w.pc = .call → reply = some 1 →
      s.cell w.args.runstate = THREAD_RUN
  | .ui _ => ∀ w ∈ s.watchers, w.pc = .show → s.silenced ≠ some w.args.runstate
  | _ => True

theorem alarmsRunning_advance {s : State} {t : Nat} {reply : Option Int} {w : Watcher} {k : Effect}
    (h : AlarmsRunning s) (hw : s.watchers[t]? = some w)
    (hk : startWatch s.serv.cells s.model w.args reply w.pc = some k) :
    AlarmsRunning (s.advance t w k) ↔ RepliedRunning s (.watcher t reply) := by
  have hmem : ∀ v, v ∈ (s.advance t w k).watchers ↔
      v = { w with pc := k.pc } ∨ v ∈ s.watchers.eraseIdx t := fun v => mem_set_iff hw
  have hcell : ∀ c, (s.advance t w k).cell c = s.cell c := fun _ => rfl
  unfold AlarmsRunning RepliedRunning
  dsimp only
  rw [hw]
  simp only [Option.mem_some_iff, forall_eq', hmem, hcell]
  constructor
  · intro hall hcall hreply
    exact hall { w with pc := k.pc } (Or.inl rfl) ((show_iff hk).mpr ⟨hcall, hreply⟩)
  · rintro hcond v (rfl | hv) hshow
    · obtain ⟨hcall, hreply⟩ := (show_iff hk).mp hshow
      exact hcond hcall hreply
    · exact h v (List.mem_of_mem_eraseIdx hv) hshow

/-- A cell that is read as THREAD_RUN has been allocated. -/
theorem lt_of_running {s : State} {c : Nat} (h : s.cell c = THREAD_RUN) :
    c < s.serv.cells.length := by
  by_contra hc
  have hd : s.cell c = 0 := List.getD_eq_default _ _ (by omega)
  rw [hd] at h
  cases h

/-- A handler that writes `state` to the cell of `thread`. -/
theorem alarmsRunning_write {s s' : State} (thread : ThreadWrap) {state : Int}
    (h : AlarmsRunning s) (hw : s'.watchers = s.watchers)
    (hc : s'.serv.cells = (s.serv.setState thread state).cells) (hstate : state ≠ THREAD_RUN) :
    AlarmsRunning s' ↔ ∀ w ∈ s.watchers, w.pc = .show → thread.runstate ≠ w.args.runstate := by
  have hcell : ∀ c, s'.cell c =
      if thread.runstate = c ∧ c < s.serv.cells.length then state else s.cell c := by
    intro c
    rw [State.cell, hc, cell_setState]
  unfold AlarmsRunning
  rw [hw]
  constructor
  · intro hall w hm hshow he
    have hrun := hall w hm hshow
    rw [hcell, if_pos ⟨he, lt_of_running (h w hm hshow)⟩] at hrun
    exact hstate hrun
  · intro hall w hm hshow
    rw [hcell, if_neg fun he => hall w hm hshow he.1]
    exact h w hm hshow

theorem alarmsRunning_run {s s' : State} {thread : ThreadWrap} (h : AlarmsRunning s)
    (hw : ∀ w ∈ s'.watchers, w ∈ s.watchers ∨ w.pc = .init)
    (hc : s'.serv.cells = (s.serv.setState thread THREAD_RUN).cells) : AlarmsRunning s' := by
  intro w hm hshow
  rcases hw w hm with hm | hinit
  · rw [State.cell, hc, cell_setState]
    split
    · rfl
    · exact h w hm hshow
  · rw [hinit] at hshow
    cases hshow

theorem alarmsRunning_grow {s s' : State} (extra : List Int) (h : AlarmsRunning s)
    (hw : ∀ w ∈ s'.watchers, w ∈ s.watchers ∨ w.pc = .init)
    (hc : s'.serv.cells = s.serv.cells ++ extra) : AlarmsRunning s' := by
  intro w hm hshow
  rcases hw w hm with hm | hinit
  · have hrun := h w hm hshow
    rw [cell_append hc (lt_of_running hrun)]
    exact hrun
  · rw [hinit] at hshow
    cases hshow

theorem repliedRunning_of_silent {s : State} (hsil : s.silenced = none) (ok : Bool) :
    RepliedRunning s (.ui ok) := by
  intro w _ _ he
  rw [hsil] at he
  cases he

/-- A step of a handler that silences nothing and leaves the cells as they are. -/
theorem alarmsRunning_silent {s s' : State} (h : AlarmsRunning s) (hsil : s.silenced = none)
    (hw : ∀ w ∈ s'.watchers, w ∈ s.watchers ∨ w.pc = .init)
    (hc : s'.serv.cells = s.serv.cells) (ok : Bool) :
    AlarmsRunning s' ↔ RepliedRunning s (.ui ok) := by
  constructor
  · intro _
    exact repliedRunning_of_silent hsil ok
  · intro _
    exact alarmsRunning_grow [] h hw (by rw [hc, List.append_nil])

theorem alarmsRunning_ui {s s' : State} {ok : Bool} (h : AlarmsRunning s)
    (hm : Move s (.ui ok) s') : AlarmsRunning s' ↔ RepliedRunning s (.ui ok) := by
  have same : ∀ w ∈ s.watchers, w ∈ s.watchers ∨ w.pc = .init := fun _ => Or.inl
  have writes : ∀ (thread : ThreadWrap), s.silenced = some thread.runstate →
      ((∀ w ∈ s.watchers, w.pc = .show → thread.runstate ≠ w.args.runstate) ↔
        RepliedRunning s (.ui ok)) := by
    intro thread hsil
    unfold RepliedRunning
    dsimp only
    rw [hsil]
    simp only [ne_eq, Option.some.injEq]
  cases hm with
  | locked _ rowid thread hui ht =>
    rw [← writes thread (by simp [State.silenced, hui, ht])]
    exact alarmsRunning_write thread h rfl rfl (by decide)
  | threadErased _ servername i thread hui ht hname =>
    rw [← writes thread (by simp [State.silenced, hui, ht, named, hname])]
    exact alarmsRunning_write thread h rfl rfl (by decide)
  | unlocked _ rowid thread hui ht =>
    have hsil : s.silenced = none := by simp [State.silenced, hui]
    exact ⟨fun _ => repliedRunning_of_silent hsil _, fun _ => alarmsRunning_run h same rfl⟩
  | readied rowid serverip thread hui ht =>
    have hsil : s.silenced = none := by simp [State.silenced, hui]
    exact ⟨fun _ => repliedRunning_of_silent hsil _, fun _ => alarmsRunning_run h same rfl⟩
  | quiet _ ws hui he => cases he
  | crashed _ row r hui he => cases he
  | respawned rowid serverip thread hui ht =>
    refine alarmsRunning_silent h (by simp [State.silenced, hui]) (fun w hw => ?_) ?_ _
    · rcases List.mem_append.mp hw with hw | hw
      · exact Or.inl hw
      · exact Or.inr (by rw [List.mem_singleton.mp hw]; rfl)
    · rfl
  | gaveUp _ ws hui =>
    refine alarmsRunning_silent h ?_ same rfl _
    rcases hui with ⟨r, hui, ht⟩ | ⟨r, hui, -⟩ | ⟨r, ip, hui⟩ | ⟨r, ip, hui⟩
    · simp [State.silenced, hui, ht]
    all_goals simp [State.silenced, hui]
  | threadKept _ servername i thread hui ht hname =>
    exact alarmsRunning_silent h (by simp [State.silenced, hui, ht, named, hname]) same rfl _
  | threadsDone _ servername i hui ht =>
    exact alarmsRunning_silent h (by simp [State.silenced, hui, ht]) same rfl _
  | activated _ rowid hui =>
    refine alarmsRunning_silent h ?_ same rfl _
    rcases hui with hui | hui <;> simp [State.silenced, hui]
  | _ => exact alarmsRunning_silent h (by simp [State.silenced, *]) same rfl _

theorem alarmsRunning_step {s s' : State} {e : Event} (h : AlarmsRunning s)
    (hs : step s e = some s') : AlarmsRunning s' ↔ RepliedRunning s e := by
  have same : ∀ w ∈ s.watchers, w ∈ s.watchers ∨ w.pc = .init := fun _ => Or.inl
  cases e with
  | watcher t reply =>
    obtain ⟨w, k, hw, hk, rfl⟩ := step_watcher hs
    exact alarmsRunning_advance h hw hk
  | ui ok => exact alarmsRunning_ui h (move_of_step hs)
  | addServer | removeServer | doubleClick | doubleClickThrows =>
    refine ⟨fun _ => trivial, fun _ => ?_⟩
    cases move_of_step hs with
    | _ => exact h
  | startWatch =>
    refine ⟨fun _ => trivial, fun _ => ?_⟩
    cases move_of_step hs with
    | quiet | crashed => exact h
    | unstarted => exact alarmsRunning_grow _ h same rfl
    | started =>
      refine alarmsRunning_grow _ h (fun w hw => ?_) rfl
      rcases List.mem_append.mp hw with hw | hw
      · exact Or.inl hw
      · exact Or.inr (by rw [List.mem_singleton.mp hw])

/-- Along a run alarms are shown only while the cell is THREAD_RUN exactly when
the replies arrive so and are shown before the next pause or removal. -/
theorem alarms_running_iff (es : List Event) :
    Along step ShowsRunning start es ↔ Steps step RepliedRunning start es := by
  refine along_iff_steps (I := fun _ => True) (fun _ _ _ _ _ => trivial) ?_ trivial
    (fun t reply w s' ht => by cases ht) es
  intro s e s' _ h hs
  rw [showsRunning_iff] at h ⊢
  exact alarmsRunning_step h hs

/-- The watch is paused while its call is pending; the file is modified then. -/
def pausedInCall : List Event :=
  [.startWatch 0 ['f'] ['x'] (.found .started), .ui true,
   .watcher 0 none, .watcher 0 none, .watcher 0 none,
   .doubleClick 0 3 true true, .ui true, .ui true, .ui true,
   .watcher 0 (some 1), .watcher 0 none]

theorem alarm_while_paused : ∃ s row w, run step start pausedInCall = some s ∧
    s.model = [row] ∧ row.status = Client.paused ∧ s.watchers = [w] ∧
    s.cell w.args.runstate = THREAD_LOCK ∧
    s.shown = [.alarm (toStdString ['x']) (toStdString host.servername)] :=
  ⟨_, _, _, rfl, rfl, rfl, rfl, rfl, rfl⟩

end Errifier.Client
