import Errifier.Client.Entries
import Errifier.Client.Search

/-!
# Rows that look alive

A row shows Active or Paused because a handler wrote it, and stops doing so
because the row's watcher marks it in its catch block. No dead watch is left
looking alive as long as the watcher's search finds its own row, a handler
writes such a status only while a watcher of the row has its own write ahead, and
nothing is written past the end of the table.
-/
namespace Errifier.Client

set_option autoImplicit false

open Errifier.Text Errifier.Machine

/-- In the loop, or in the catch block on the way to a row of the table. -/
def Pc.willMark : Pc → Bool
  | .errSet none | .uninit | .close | .done => false
  | _ => true

/-- Some watcher on the cell has not left its loop, or has its `setData` ahead. -/
def Guards (s : State) (c : Nat) : Prop :=
  ∃ w ∈ s.watchers, w.args.runstate = c ∧ w.pc.willMark = true

instance (s : State) (c : Nat) : Decidable (Guards s c) :=
  inferInstanceAs (Decidable (∃ w ∈ s.watchers, _ ∧ _))

/-- The run-state cell of the row that the next step of the handler shows as
Active or Paused. -/
def State.announced (s : State) : Option Nat :=
  match s.ui with
  | .append row => some row.watch
  | .pausing rowid | .resuming rowid | .reconnected rowid => s.model[rowid]?.map (·.watch)
  | _ => none

/-- A handler shows a row as Active or Paused while a watcher guards it. -/
def Announced (s : State) : Event → Prop
  | .ui _ => ∀ c ∈ s.announced, Guards s c
  | _ => True

instance (s : State) : ∀ e, Decidable (Announced s e)
  | .ui _ => inferInstanceAs (Decidable (∀ c ∈ s.announced, Guards s c))
  | .addServer _ _ | .removeServer _ | .startWatch _ _ _ _ | .doubleClick _ _ _ _
  | .doubleClickThrows _ _ | .watcher _ _ => isTrue trivial

/-- Every row that looks alive is guarded, or its watch is being removed. -/
def Guarded (s : State) : Prop :=
  ∀ row ∈ s.model, row.Alive → s.cell row.watch = THREAD_STOP ∨ Guards s row.watch

/-- A watcher that guards row `r` still does after its step, unless it found its
cell stopped or has just marked the row. -/
theorem willMark_act {cells : List Int} {model : List Row} {a : WatchArgs} {reply : Option Int}
    {pc : Pc} {k : Effect} {r : Nat} (hk : startWatch cells model a reply pc = some k)
    (hpc : pc.willMark = true) (hseek : Seeks model a r pc) (hr : r < model.length) :
    k.pc.willMark = true ∨ cells.getD a.runstate 0 = THREAD_STOP ∨ k.mark = some r := by
  cases acts_of_startWatch hk with
  | loops =>
    unfold afterLoopTest
    split
    · exact Or.inl rfl
    · rename_i hstop
      exact Or.inr (Or.inl (not_not.mp hstop))
  | tests =>
    unfold afterRunTest
    split <;> exact Or.inl rfl
  | replied =>
    unfold afterReply
    split <;> exact Or.inl rfl
  | indexes _ i =>
    have hi : i = r := hseek
    dsimp only
    rw [if_pos (by omega)]
    exact Or.inl rfl
  | marks _ index =>
    cases index with
    | none => cases hpc
    | some i => exact Or.inr (Or.inr (congrArg some (hseek i rfl).1))
  | closes | uninits => cases hpc
  | _ => exact Or.inl rfl

theorem not_alive_connectionError (row : Row) :
    ¬ Row.Alive { row with status := connectionError } := by
  have ha : connectionError ≠ active := by decide
  have hp : connectionError ≠ Client.paused := by decide
  rintro (h | h)
  · exact ha h
  · exact hp h

/-- A row that looks alive after a watcher's step was there before and is not
the one marked. -/
theorem alive_of_advance {s : State} {t : Nat} {w : Watcher} {k : Effect} {row : Row}
    (hin : ∀ i ∈ k.mark, i < s.model.length) (hr : row ∈ (s.advance t w k).model)
    (ha : row.Alive) :
    ∃ j, s.model[j]? = some row ∧ k.mark ≠ some j := by
  obtain ⟨j, hj⟩ := List.mem_iff_getElem?.mp hr
  unfold State.advance at hj
  cases hmark : k.mark with
  | none =>
    rw [hmark] at hj
    exact ⟨j, hj, fun h => by cases h⟩
  | some i =>
    rw [hmark] at hj
    change (setStatus s.model i connectionError)[j]? = some row at hj
    rw [getElem?_setStatus (hin i hmark)] at hj
    split at hj
    · obtain ⟨old, -, rfl⟩ := Option.map_eq_some_iff.mp hj
      exact absurd ha (not_alive_connectionError old)
    · rename_i hne
      exact ⟨j, hj, fun h => hne (Option.some.inj h)⟩

theorem guarded_advance {s : State} {t : Nat} {reply : Option Int} {w : Watcher} {k : Effect}
    (h : Guarded s) (hsought : Sought s) (hin : InTable s (.watcher t reply))
    (hw : s.watchers[t]? = some w) (hk : startWatch s.serv.cells s.model w.args reply w.pc = some k) :
    Guarded (s.advance t w k) := by
  intro row hr ha
  obtain ⟨j, hj, hmark⟩ := alive_of_advance (mark_inTable hin hw hk) hr ha
  obtain ⟨hlt, -⟩ := List.getElem?_eq_some_iff.mp hj
  have hset : ∀ v, v = { w with pc := k.pc } ∨ v ∈ s.watchers.eraseIdx t →
      v ∈ (s.advance t w k).watchers := fun v => (mem_set_iff hw).mpr
  rcases h row (List.mem_of_getElem? hj) ha with hstop | ⟨v, hv, hcell, hv'⟩
  · exact Or.inl hstop
  · rcases (mem_iff_eraseIdx hw).mp hv with rfl | hother
    · have hown := ownsAt_of_row hj hcell.symm
      have hseek := hsought v hv j hown
      rcases willMark_act hk hv' hseek hlt with hnext | hstop | hm
      · exact Or.inr ⟨_, hset _ (Or.inl rfl), hcell, hnext⟩
      · rw [hcell] at hstop
        exact Or.inl hstop
      · exact absurd hm hmark
    · exact Or.inr ⟨v, hset v (Or.inr hother), hcell, hv'⟩

/-- A step that shows no row as alive, loses no watcher and keeps stopped cells
stopped. -/
theorem guarded_mono {s s' : State} (h : Guarded s) (hm : ∀ row ∈ s'.model, row ∈ s.model)
    (hw : ∀ w ∈ s.watchers, w ∈ s'.watchers)
    (hc : ∀ row ∈ s'.model, s.cell row.watch = THREAD_STOP → s'.cell row.watch = THREAD_STOP) :
    Guarded s' := by
  intro row hr ha
  rcases h row (hm row hr) ha with hstop | ⟨w, hmem, hcell, hmark⟩
  · exact Or.inl (hc row hr hstop)
  · exact Or.inr ⟨w, hw w hmem, hcell, hmark⟩

/-- Locking or running a listed thread touches no stopped cell. -/
theorem guarded_write {s s' : State} (h : Guarded s) (hp : s.serv.Private) {rowid : Nat}
    {thread : ThreadWrap} {state : Int} (ht : s.serv.threadList[rowid]? = some thread)
    (hm : s'.model = s.model) (hw : s'.watchers = s.watchers)
    (hc : s'.serv.cells = (s.serv.setState thread state).cells) : Guarded s' := by
  refine guarded_mono h (fun row hr => by rwa [hm] at hr) (fun w hmem => by rwa [hw]) ?_
  intro row _ hstop
  have hne : thread.runstate ≠ row.watch := by
    intro he
    rw [← he] at hstop
    exact cell_of_entry hp (List.mem_of_getElem? ht) hstop
  rw [State.cell, hc, cell_setState, if_neg fun hb => hne hb.1]
  exact hstop

/-- A handler shows row `rowid`, which is guarded. -/
theorem guarded_status {s : State} (h : Guarded s) {rowid : Nat} (hlt : rowid < s.model.length)
    {v : QString} (hg : ∀ row ∈ s.model[rowid]?, Guards s row.watch) :
    Guarded { s with model := setStatus s.model rowid v, ui := .idle } := by
  intro row hr ha
  obtain ⟨j, hj⟩ := List.mem_iff_getElem?.mp hr
  change (setStatus s.model rowid v)[j]? = some row at hj
  rw [getElem?_setStatus hlt] at hj
  split at hj
  · rename_i he
    obtain ⟨old, ho, rfl⟩ := Option.map_eq_some_iff.mp hj
    exact Or.inr (hg old (by rw [he]; exact ho))
  · exact h row (List.mem_of_getElem? hj) ha

theorem guarded_step {s s' : State} {e : Event} (h : Guarded s) (hcon : Consistent s)
    (hp : s.serv.Private) (hsought : Sought s) (hC : Announced s e) (hin : InTable s e)
    (hs : step s e = some s') : Guarded s' := by
  have keep : ∀ {l : List Row}, (∀ row ∈ l, row ∈ s.model) → ∀ ui : Ui,
      Guarded { s with model := l, ui } := fun hl _ =>
    guarded_mono h hl (fun _ hw => hw) fun _ _ hstop => hstop
  have grow : ∀ extra : List Int, ∀ t : State, t.model = s.model →
      t.serv.cells = s.serv.cells ++ extra → (∀ w ∈ s.watchers, w ∈ t.watchers) → Guarded t := by
    intro extra t hm hc hw
    refine guarded_mono h (fun row hr => by rwa [hm] at hr) hw fun row hr hstop => ?_
    rw [hm] at hr
    rw [cell_append hc (hcon.linked.fresh row (mem_listed hr))]
    exact hstop
  cases move_of_step hs with
  | watched t reply w k hw hk => exact guarded_advance h hsought hin hw hk
  | started => exact grow _ _ rfl rfl fun w hw => List.mem_append_left _ hw
  | unstarted => exact grow _ _ rfl rfl fun w hw => hw
  | respawned =>
    exact guarded_mono h (fun _ hr => hr) (fun w hw => List.mem_append_left _ hw) fun _ _ hb => hb
  | appended _ row hui =>
    intro row' hr' ha
    rcases List.mem_append.mp hr' with hr' | hr'
    · exact h row' hr' ha
    · rw [List.mem_singleton.mp hr']
      exact Or.inr (hC row.watch (by simp [State.announced, hui]))
  | threadErased _ n i thread hui ht hname =>
    refine guarded_mono h (fun _ hr => hr) (fun _ hw => hw) fun row hr hstop => ?_
    have hcell := cell_setState s thread THREAD_STOP row.watch
    change (s.serv.cells.set thread.runstate THREAD_STOP).getD row.watch 0 = _
    refine hcell.trans ?_
    split
    · rfl
    · exact hstop
  | rowErased => exact keep (fun _ hr => List.mem_of_mem_eraseIdx hr) _
  | locked _ rowid thread hui ht => exact guarded_write h hp ht rfl rfl rfl
  | unlocked _ rowid thread hui ht => exact guarded_write h hp ht rfl rfl rfl
  | readied rowid serverip thread hui ht => exact guarded_write h hp ht rfl rfl rfl
  | paused _ rowid hui =>
    refine guarded_status h (hin rowid (by rw [State.written, hui]; rfl)) fun row hr =>
      hC row.watch ?_
    simp only [State.announced, hui]
    exact Option.map_eq_some_iff.mpr ⟨row, hr, rfl⟩
  | activated _ rowid hui =>
    have hlt : rowid < s.model.length := by
      rcases hui with hui | hui <;> exact hin rowid (by rw [State.written, hui]; rfl)
    refine guarded_status h hlt fun row hr => hC row.watch ?_
    rcases hui with hui | hui
    all_goals
      simp only [State.announced, hui]
      exact Option.map_eq_some_iff.mpr ⟨row, hr, rfl⟩
  | _ => exact h

/-- Searches end at the watcher's own row, no status is written over a watcher that is done
with its row, and no `setData` goes through an index past the end of the table. -/
def Timely (s : State) (e : Event) : Prop := Steady s e ∧ Announced s e ∧ InTable s e

instance (s : State) (e : Event) : Decidable (Timely s e) :=
  inferInstanceAs (Decidable (_ ∧ _ ∧ _))

structure Attended (s : State) : Prop where
  consistent : Consistent s
  cells : s.serv.Private
  sought : Sought s
  guarded : Guarded s

theorem attended_start : Attended start :=
  ⟨consistent_start, WorkerThread.private_empty, fun _ hw => (by cases hw), fun _ hr => (by cases hr)⟩

theorem Attended.step {s s' : State} {e : Event} (h : Attended s) (hC : Timely s e)
    (hs : Client.step s e = some s') : Attended s' := by
  obtain ⟨hsteady, hannounced, hin⟩ := hC
  exact ⟨h.consistent.step hin hs, h.cells.step (move_of_step hs),
    sought_step h.consistent.linked h.sought hsteady hin hs,
    guarded_step h.guarded h.consistent h.cells h.sought hannounced hin hs⟩

/-- In every run whose steps are timely, between two handlers each row that
shows Active or Paused has a watcher of its own that is in its loop or has still
to mark the row. -/
theorem alive_rows_watched {es : List Event} (h : Steps step Timely start es) :
    Along step (fun s => s.ui = .idle → ∀ row ∈ s.model, row.Alive →
      ∃ w ∈ s.watchers, w.args.runstate = row.watch ∧ w.args.For row ∧ w.pc.willMark = true) start es := by
  have hrun := h.along (fun _ _ _ hI hC hs => hI.step hC hs) attended_start
  refine hrun.mono fun s hI hui row hr ha => ?_
  rcases hI.guarded row hr ha with hstop | ⟨w, hw, hcell, hmark⟩
  · have ht : row.thread ∈ s.serv.threadList := by
      rw [hI.consistent.aligned.idle hui]
      exact List.mem_map_of_mem hr
    exact absurd hstop (cell_of_entry hI.cells ht)
  · exact ⟨w, hw, hcell, hI.consistent.linked.own row (mem_listed hr) w hw hcell, hmark⟩

theorem reconnected_row_watched : ∃ s row, run step start failsAndReconnects = some s ∧
    s.model = [row] ∧ row.status = Client.paused ∧
    ∃ w ∈ s.watchers, w.args.runstate = row.watch ∧ w.args.For row ∧ w.pc.willMark = true := by
  refine ⟨_, _, rfl, rfl, rfl, ?_⟩
  exact (alive_rows_watched (by decide : Steps step Timely start failsAndReconnects)).last rfl rfl _
    (List.mem_singleton_self _) (Or.inr rfl)

/-- The watcher fails and finishes before `appendRow`. -/
def failsBeforeAppend : List Event :=
  .startWatch 0 ['f'] ['x'] (.found .started) :: (List.replicate 11 (.watcher 0 none) ++ [.ui true])

theorem dead_row_active : ∃ s row, run step start failsBeforeAppend = some s ∧
    s.ui = .idle ∧ s.model = [row] ∧ row.status = active ∧ ∀ w ∈ s.watchers, w.pc = .done := by
  refine ⟨_, _, rfl, rfl, rfl, rfl, ?_⟩
  decide

end Errifier.Client
