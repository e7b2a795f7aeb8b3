import Errifier.Client.OwnRow

/-!
# The status column and the run state

The text of a row and the cell of its entry are written one after the other, and
watchers write texts at any time. `Settled` says what the two have to do with
each other in every state: a row that a click handler is working on has the cell
value that its text is about to say, every other row has the value that its text
says. Rows whose entry has been erased are left out.
-/
namespace Errifier.Client

set_option autoImplicit false

open Errifier.Text Errifier.Machine

/-- The row whose text is still to be written, and what its cell holds by now. -/
def Ui.settles : Ui → Option (Nat × Int)
  | .pausing r => some (r, THREAD_LOCK)
  | .resuming r | .respawn r _ | .reconnected r => some (r, THREAD_RUN)
  | _ => none

def State.Settling (s : State) (row : Row) (v : Int) : Prop :=
  ∃ r, s.ui.settles = some (r, v) ∧ s.serv.threadList[r]? = some row.thread

/-- The text says nothing else than the cell. -/
def Fits (status : QString) (v : Int) : Prop :=
  (status = active → v = THREAD_RUN) ∧ (status = paused → v = THREAD_LOCK)

theorem active_ne_paused : active ≠ paused := by decide

theorem fits_active : Fits active THREAD_RUN :=
  ⟨fun _ => rfl, fun h => absurd h active_ne_paused⟩

theorem fits_paused : Fits paused THREAD_LOCK :=
  ⟨fun h => absurd h.symm active_ne_paused, fun _ => rfl⟩

theorem fits_connectionError (v : Int) : Fits connectionError v := by
  have hactive : connectionError ≠ active := by decide
  have hpaused : connectionError ≠ paused := by decide
  exact ⟨fun h => absurd h hactive, fun h => absurd h hpaused⟩

theorem fits_of_not_alive {row : Row} (h : ¬ row.Alive) (v : Int) : Fits row.status v :=
  ⟨fun ha => absurd (Or.inl ha) h, fun hp => absurd (Or.inr hp) h⟩

def Settled (s : State) : Prop :=
  ∀ row ∈ s.listed, row.thread ∈ s.serv.threadList →
    (∀ v, s.Settling row v → s.cell row.watch = v) ∧
      ((∀ v, ¬ s.Settling row v) → Fits row.status (s.cell row.watch))

def Known (s : State) : Prop := ∀ row ∈ s.listed, row.status ∈ [active, paused, connectionError]

theorem not_settling {s : State} (h : s.ui.settles = none) (row : Row) (v : Int) :
    ¬ s.Settling row v := by
  rintro ⟨r, hr, -⟩
  rw [h] at hr
  cases hr

/-- A step between states in which no text is outstanding, that lists no row and
leaves the cells of the entries. -/
theorem settled_calm {s s' : State} (h : Settled s) (hu : s.ui.settles = none)
    (hu' : s'.ui.settles = none) (hl : ∀ row ∈ s'.listed, row ∈ s.listed)
    (ht : ∀ thread ∈ s'.serv.threadList, thread ∈ s.serv.threadList)
    (hc : ∀ thread ∈ s'.serv.threadList, s'.cell thread.runstate = s.cell thread.runstate) :
    Settled s' := by
  intro row hr hm
  refine ⟨fun v hv => absurd hv (not_settling hu' row v), fun _ => ?_⟩
  have hcell : s'.cell row.watch = s.cell row.watch := hc row.thread hm
  rw [hcell]
  exact (h row (hl row hr) (ht _ hm)).2 (not_settling hu row)

theorem settled_started {s : State} (h : Settled s) (hcon : Consistent s) (hui : s.ui = .idle)
    (cur : Nat) (fileloc friendlyName servername serverip : QString) :
    Settled (started s cur fileloc friendlyName servername serverip) := by
  intro row hr hm
  have hu' : (started s cur fileloc friendlyName servername serverip).ui.settles = none := rfl
  refine ⟨fun v hv => absurd hv (not_settling hu' row v), fun _ => ?_⟩
  rw [listed_started] at hr
  rcases List.mem_append.mp hr with hr | hr
  · have hlisted := mem_listed hr
    rw [cell_append rfl (hcon.linked.fresh row hlisted)]
    have hmem : row.thread ∈ s.serv.threadList := by
      rw [hcon.aligned.idle hui]
      exact List.mem_map_of_mem hr
    exact (h row hlisted hmem).2 (not_settling (by rw [hui]; rfl) row)
  · rw [List.mem_singleton.mp hr]
    have hcell : (started s cur fileloc friendlyName servername serverip).cell
        (newRow s cur fileloc friendlyName servername).watch = THREAD_RUN := by
      simp only [State.cell, started, newRow]
      rw [List.getD_append_right _ _ _ _ (Nat.le_refl _), Nat.sub_self]
      rfl
    rw [hcell]
    exact fits_active

/-- The cell of row `r` gets the value that the row's text is about to say. -/
theorem settled_written {s : State} (h : Settled s) (hcon : Consistent s) {r : Nat}
    {thread : ThreadWrap} (hr : s.ui.rowid = some r) (ht : s.serv.threadList[r]? = some thread)
    (hu : s.ui.settles = none) {v : Int} {ui : Ui} (hui : ui.settles = some (r, v))
    (hp : ui.pending = s.ui.pending) :
    Settled { s with serv := s.serv.setState thread v, ui := ui } := by
  intro row hlisted hm
  have hrow : row ∈ s.listed := by
    rw [State.listed, ← hp]
    exact hlisted
  have hcell : State.cell { s with serv := s.serv.setState thread v, ui := ui } row.watch =
      if thread.runstate = row.watch ∧ row.watch < s.serv.cells.length then v
      else s.cell row.watch := cell_setState s thread v row.watch
  obtain ⟨own, hown, rfl⟩ := row_of_thread hcon.aligned hr ht
  have hfresh := hcon.linked.fresh row hrow
  rw [hcell]
  by_cases hsame : row = own
  · subst hsame
    rw [if_pos ⟨rfl, hfresh⟩]
    refine ⟨?_, fun hno => absurd ⟨r, hui, ht⟩ (hno v)⟩
    rintro v' ⟨r', hr', -⟩
    obtain ⟨-, rfl⟩ := Prod.mk.inj (Option.some.inj (hui.symm.trans hr'))
    rfl
  · have hne : ¬ own.thread.runstate = row.watch := fun he =>
      hsame (hcon.linked.unique hrow (mem_listed (List.mem_of_getElem? hown)) he.symm)
    rw [if_neg fun hb => hne hb.1]
    refine ⟨?_, fun _ => (h row hrow hm).2 (not_settling hu row)⟩
    rintro v' ⟨r', hr', ht'⟩
    obtain ⟨rfl, -⟩ := Prod.mk.inj (Option.some.inj (hui.symm.trans hr'))
    obtain he := Option.some.inj (ht.symm.trans ht')
    exact absurd (congrArg ThreadWrap.runstate he) hne

/-- The text of row `r` is written. -/
theorem settled_status {s : State} (h : Settled s) (hcon : Consistent s) {r : Nat} {v : Int}
    (hr : s.ui.rowid = some r) (hu : s.ui.settles = some (r, v)) {status : QString}
    (hfits : Fits status v) :
    Settled { s with model := setStatus s.model r status, ui := .idle } := by
  intro row hrow hm
  have hu' : (State.ui { s with model := setStatus s.model r status, ui := .idle }).settles = none :=
    rfl
  refine ⟨fun v' hv => absurd hv (not_settling hu' row v'), fun _ => ?_⟩
  change Fits row.status (s.cell row.watch)
  obtain ⟨heq, hlt⟩ := hcon.aligned.clicked hr
  rw [listed_of_pending (s := { s with model := setStatus s.model r status, ui := .idle }) rfl] at hrow
  obtain ⟨j, hj⟩ := List.mem_iff_getElem?.mp hrow
  dsimp only at hj
  rw [getElem?_setStatus hlt] at hj
  split at hj
  · rename_i hrj
    subst hrj
    obtain ⟨old, hold, rfl⟩ := Option.map_eq_some_iff.mp hj
    have hthread : s.serv.threadList[r]? = some old.thread := by
      rw [heq, List.getElem?_map, hold]
      rfl
    have hcell := (h old (mem_listed (List.mem_of_getElem? hold))
      (List.mem_of_getElem? hthread)).1 v ⟨r, hu, hthread⟩
    change Fits status (s.cell old.watch)
    rw [hcell]
    exact hfits
  · rename_i hrj
    have hlisted := mem_listed (List.mem_of_getElem? hj)
    refine (h row hlisted hm).2 ?_
    -- no other row has this entry
    rintro v' ⟨r', hr', ht'⟩
    obtain ⟨rfl, -⟩ := Prod.mk.inj (Option.some.inj (hu.symm.trans hr'))
    obtain ⟨own, hown, hthread⟩ := row_of_thread hcon.aligned hr ht'
    have hn := hcon.linked.nodup
    rw [State.listed, List.map_append] at hn
    obtain ⟨hlt, -⟩ := List.getElem?_eq_some_iff.mp hown
    refine hrj ((List.getElem?_inj (by rw [List.length_map]; exact hlt) hn.of_append_left).mp ?_)
    rw [List.getElem?_map, List.getElem?_map, hown, hj]
    exact congrArg some (congrArg ThreadWrap.runstate hthread)

/-- A row after a watcher's step, and the row it was. -/
theorem row_of_advance {s : State} {t : Nat} {w : Watcher} {k : Effect} {row : Row}
    (hin : ∀ i ∈ k.mark, i < s.model.length) (h : row ∈ (s.advance t w k).listed) :
    ∃ old ∈ s.listed, row.thread = old.thread ∧
      (row.status = old.status ∨ row.status = connectionError) := by
  obtain ⟨i, hi⟩ := List.mem_iff_getElem?.mp h
  rcases listed_advance hin hi with hsame | ⟨-, old, hold, rfl⟩
  · exact ⟨row, List.mem_of_getElem? hsame, rfl, Or.inl rfl⟩
  · exact ⟨old, mem_listed (List.mem_of_getElem? hold), rfl, Or.inr rfl⟩

theorem settled_advance {s : State} (h : Settled s) (t : Nat) (w : Watcher) {k : Effect}
    (hin : ∀ i ∈ k.mark, i < s.model.length) : Settled (s.advance t w k) := by
  intro row hr hm
  obtain ⟨old, hold, hthread, hstatus⟩ := row_of_advance hin hr
  have hcell : (s.advance t w k).cell row.watch = s.cell old.watch :=
    congrArg s.cell (congrArg ThreadWrap.runstate hthread)
  have hsettling : ∀ v, (s.advance t w k).Settling row v ↔ s.Settling old v := by
    intro v
    unfold State.Settling
    rw [ui_advance, hthread]
    rfl
  rw [hthread] at hm
  obtain ⟨h1, h2⟩ := h old hold hm
  rw [hcell]
  refine ⟨fun v hv => h1 v ((hsettling v).mp hv), fun hno => ?_⟩
  rcases hstatus with hstatus | hstatus
  · rw [hstatus]
    exact h2 fun v hv => hno v ((hsettling v).mpr hv)
  · rw [hstatus]
    exact fits_connectionError _

/-- The handler ends after `setThreadRun` because the thread did not come about;
the row still shows an error. -/
theorem settled_gaveUp {s : State} (h : Settled s) (hcon : Consistent s) (hret : Retried s)
    {r : Nat} {ip : QString} (hui : s.ui = .respawn r ip) (ws : List Warning) :
    Settled { s with warnings := ws, ui := .idle } := by
  intro row hr hm
  have hu' : (State.ui { s with warnings := ws, ui := .idle }).settles = none := rfl
  refine ⟨fun v hv => absurd hv (not_settling hu' row v), fun _ => ?_⟩
  change Fits row.status (s.cell row.watch)
  rw [listed_of_pending (s := { s with warnings := ws, ui := .idle }) rfl] at hr
  by_cases ht : s.serv.threadList[r]? = some row.thread
  · obtain ⟨own, hown, hthread⟩ := row_of_thread hcon.aligned (by rw [hui]; rfl) ht
    have hsame : own = row :=
      hcon.linked.unique (mem_listed (List.mem_of_getElem? hown)) (mem_listed hr)
        (congrArg ThreadWrap.runstate hthread)
    rw [← hsame]
    exact fits_of_not_alive (hret r (by rw [hui]; rfl) own hown) _
  · refine (h row (mem_listed hr) hm).2 ?_
    rintro v ⟨r', hr', ht'⟩
    rw [hui] at hr'
    obtain ⟨rfl, -⟩ := Prod.mk.inj (Option.some.inj hr')
    exact ht ht'

theorem settled_respawned {s : State} (h : Settled s) {r : Nat} {ip : QString}
    (hui : s.ui = .respawn r ip) (ws : List Watcher) :
    Settled { s with watchers := ws, ui := .reconnected r } := by
  have hl : State.listed { s with watchers := ws, ui := .reconnected r } = s.listed := by
    rw [listed_of_pending (s := s) (by rw [hui]; rfl)]
    exact listed_of_pending rfl
  have hsettling : ∀ row v, State.Settling { s with watchers := ws, ui := .reconnected r } row v ↔
      s.Settling row v := by
    intro row v
    unfold State.Settling
    rw [hui]
    rfl
  intro row hr hm
  rw [hl] at hr
  obtain ⟨h1, h2⟩ := h row hr hm
  refine ⟨fun v hv => h1 v ((hsettling row v).mp hv), fun hno => ?_⟩
  exact h2 fun v hv => hno v ((hsettling row v).mpr hv)

theorem settled_step {s s' : State} {e : Event} (h : Settled s) (hcon : Consistent s)
    (hp : s.serv.Private) (hret : Retried s) (hin : InTable s e) (hs : step s e = some s') :
    Settled s' := by
  have calm : ∀ {t : State}, s.ui.settles = none → t.ui.settles = none → t.listed = s.listed →
      t.serv = s.serv → Settled t := by
    intro t hu hu' hl hserv
    refine settled_calm h hu hu' (fun row hr => by rwa [← hl]) (fun thread ht => by rwa [← hserv]) ?_
    intro thread _
    rw [State.cell, State.cell, hserv]
  cases move_of_step hs with
  | quiet _ ws hui | listed servername serverip entry hui =>
    exact calm (by rw [hui]; rfl) (by simp [hui, Ui.settles]) rfl rfl
  | removing cur hui hsel =>
    have hl : (s.removeServer cur).listed = s.listed := by
      rw [listed_of_pending (s := s) (by rw [hui]; rfl)]
      exact listed_of_pending rfl
    exact calm (by rw [hui]; rfl) rfl hl rfl
  | unstarted cur fileloc friendlyName out parts extra ws hui =>
    refine settled_calm h (by rw [hui]; rfl) (by simp [hui, Ui.settles]) (fun _ hr => hr)
      (fun _ ht => ht) fun thread ht => ?_
    exact cell_append rfl (hp.fresh ht)
  | started cur fileloc friendlyName parts hui hreq => exact settled_started h hcon hui _ _ _ _ _
  | threadErased ok n i thread hui ht hname =>
    refine settled_calm h (by rw [hui]; rfl) rfl (by simp [State.listed, hui, Ui.pending])
      (fun _ hm => List.mem_of_mem_eraseIdx hm) fun other ho => ?_
    exact (cell_setState s thread THREAD_STOP other.runstate).trans
      (if_neg fun hb => hp.apart ht ho hb.1)
  | rowErased ok n i row hui hr hname =>
    refine settled_calm h (by rw [hui]; rfl) rfl (fun other ho => ?_) (fun _ ht => ht)
      fun _ _ => rfl
    rw [listed_of_pending (by rfl)] at ho
    exact mem_listed (List.mem_of_mem_eraseIdx ho)
  | crashed _ row r hui | escaped row column hui | clicked row opened answered r serverip hui
  | appended ok row hui | threadKept ok n i thread hui | threadsDone ok n i hui
  | rowKept ok n i row hui | rowsDone ok n i hui | readActive ok r ip hui
  | readPaused ok r ip hui | readError ok r ip hui =>
    exact calm (by rw [hui]; rfl) rfl (by simp [State.listed, hui, Ui.pending]) rfl
  | locked ok r thread hui ht | unlocked ok r thread hui ht | readied r ip thread hui ht =>
    exact settled_written h hcon (by rw [hui]; rfl) ht (by rw [hui]; rfl) rfl (by rw [hui]; rfl)
  | respawned r ip thread hui ht => exact settled_respawned h hui _
  | gaveUp ok ws hui =>
    rcases hui with ⟨r, hui, -⟩ | ⟨r, hui, -⟩ | ⟨r, ip, hui⟩ | ⟨r, ip, hui⟩
    · exact calm (by rw [hui]; rfl) rfl (by simp [State.listed, hui, Ui.pending]) rfl
    · exact calm (by rw [hui]; rfl) rfl (by simp [State.listed, hui, Ui.pending]) rfl
    · exact calm (by rw [hui]; rfl) rfl (by simp [State.listed, hui, Ui.pending]) rfl
    · exact settled_gaveUp h hcon hret hui ws
  | paused ok r hui =>
    exact settled_status h hcon (by rw [hui]; rfl) (by rw [hui]; rfl) fits_paused
  | activated ok r hui =>
    rcases hui with hui | hui
    all_goals exact settled_status h hcon (by rw [hui]; rfl) (by rw [hui]; rfl) fits_active
  | watched t reply w k hw hk => exact settled_advance h t w (mark_inTable hin hw hk)

/-- No handler and no watcher writes another text. -/
theorem known_step {s s' : State} {e : Event} (h : Known s) (hin : InTable s e)
    (hs : step s e = some s') : Known s' := by
  have status : ∀ {r : Nat} {v : QString}, r < s.model.length →
      v ∈ [active, paused, connectionError] →
      Known { s with model := setStatus s.model r v, ui := .idle } := by
    intro r v hlt hv row hr
    rw [listed_of_pending (s := { s with model := setStatus s.model r v, ui := .idle }) rfl] at hr
    obtain ⟨j, hj⟩ := List.mem_iff_getElem?.mp hr
    dsimp only at hj
    rw [getElem?_setStatus hlt] at hj
    split at hj
    · obtain ⟨old, -, rfl⟩ := Option.map_eq_some_iff.mp hj
      exact hv
    · exact h row (mem_listed (List.mem_of_getElem? hj))
  have rows : ∀ {t : State}, t.ui.pending = [] → (∀ row ∈ t.model, row ∈ s.model) → Known t := by
    intro t hp hm row hr
    rw [listed_of_pending hp] at hr
    exact h row (mem_listed (hm row hr))
  cases move_of_step hs with
  | paused _ r hui => exact status (hin r (by rw [State.written, hui]; rfl)) (by simp)
  | activated _ r hui =>
    refine status ?_ (by simp)
    rcases hui with hui | hui <;> exact hin r (by rw [State.written, hui]; rfl)
  | watched t reply w k hw hk =>
    intro row hr
    obtain ⟨old, hold, -, hst | hst⟩ := row_of_advance (mark_inTable hin hw hk) hr
    · rw [hst]
      exact h old hold
    · rw [hst]
      simp
  | started cur fileloc friendlyName parts hui hreq =>
    intro row hr
    rw [listed_started] at hr
    rcases List.mem_append.mp hr with hr | hr
    · exact h row (mem_listed hr)
    · rw [List.mem_singleton.mp hr]
      simp [newRow]
  | rowErased => exact rows rfl fun _ ho => List.mem_of_mem_eraseIdx ho
  | removing | gaveUp => exact rows rfl fun _ hr => hr
  | quiet | listed | unstarted => exact h
  | _ =>
    intro row hr
    refine h row ?_
    simpa [State.listed, Ui.pending, *] using hr

structure Shown (s : State) : Prop where
  consistent : Consistent s
  cells : s.serv.Private
  retried : Retried s
  settled : Settled s
  known : Known s

theorem shown_start : Shown start := by
  constructor
  · exact consistent_start
  · exact WorkerThread.private_empty
  · intro r hr; cases hr
  · intro row hr; cases hr
  · intro row hr; cases hr

theorem Shown.step {s s' : State} {e : Event} (h : Shown s) (hin : InTable s e)
    (hs : Client.step s e = some s') : Shown s' where
  consistent := h.consistent.step hin hs
  cells := h.cells.step (move_of_step hs)
  retried := retried_step h.retried hin hs
  settled := settled_step h.settled h.consistent h.cells h.retried hin hs
  known := known_step h.known hin hs

/-- In every state of a run without stale `setData` between two handlers the text of row `i`
and the run state of entry `i` agree, the text is one of three, and the entry is not
stopped. -/
theorem statuses_match_cells {es : List Event} (h : Steps step InTable start es) :
    Along step (fun s => s.ui = .idle → ∀ (i : Nat) (row : Row), s.model[i]? = some row →
      ∃ thread v, s.serv.threadList[i]? = some thread ∧
        s.serv.cells[thread.runstate]? = some v ∧
        (row.status = active → v = THREAD_RUN) ∧ (row.status = paused → v = THREAD_LOCK) ∧
        row.status ∈ [active, paused, connectionError] ∧ v ≠ THREAD_STOP) start es := by
  have hrun := h.along (fun _ _ _ h hin hs => Shown.step h hin hs) shown_start
  refine hrun.mono fun s h hui i row hr => ?_
  have hlisted := mem_listed (List.mem_of_getElem? hr)
  have ht : s.serv.threadList[i]? = some row.thread := by
    rw [h.consistent.aligned.idle hui, List.getElem?_map, hr]
    rfl
  have hmem := List.mem_of_getElem? ht
  have hcell := getElem?_cell (h.consistent.linked.fresh row hlisted)
  obtain ⟨-, hfits⟩ := h.settled row hlisted hmem
  have hf := hfits (not_settling (by rw [hui]; rfl) row)
  exact ⟨row.thread, _, ht, hcell, hf.1, hf.2, h.known row hlisted, cell_of_entry h.cells hmem⟩

theorem reconnected_row_paused : ∃ s row, run step start failsAndReconnects = some s ∧
    s.model = [row] ∧ row.status = paused ∧
    ∃ thread, s.serv.threadList[0]? = some thread ∧
      s.serv.cells[thread.runstate]? = some THREAD_LOCK := by
  obtain ⟨s, row, hr, hui, hm, hstatus⟩ : ∃ s row, run step start failsAndReconnects = some s ∧
      s.ui = .idle ∧ s.model = [row] ∧ row.status = paused := ⟨_, _, rfl, rfl, rfl, rfl⟩
  have hsteps : Steps step InTable start failsAndReconnects := by decide
  obtain ⟨thread, v, ht, hv, -, hlock, -⟩ :=
    (statuses_match_cells hsteps).last hr hui 0 row (by rw [hm]; rfl)
  rw [hlock hstatus] at hv
  exact ⟨s, row, hr, hm, hstatus, thread, ht, hv⟩

/-- A watch on `A` fails and has taken the index of its row, the second; then both servers
are removed. -/
def marksSecond : List Event :=
  [.addServer ['A'] ['1'], .startWatch 0 ['f'] ['x'] (.found .started), .ui true,
   .startWatch 1 ['f'] ['y'] (.found .started), .ui true] ++
  List.replicate 10 (.watcher 1 none) ++
  [.removeServer 1, .ui true, .ui true, .ui true, .ui true, .ui true, .ui true,
   .removeServer 0, .ui true, .ui true, .ui true, .ui true, .watcher 1 none]

theorem empty_status_shown : ∃ s row, run step start marksSecond = some s ∧ s.ui = .idle ∧
    s.model[0]? = some row ∧ row.status ∉ [active, paused, connectionError] ∧
    s.serv.threadList = [] := by
  refine ⟨_, _, rfl, rfl, rfl, ?_, rfl⟩
  decide

end Errifier.Client
