import Errifier.Client.Moves
import Errifier.Machine.Pool
import Mathlib.Data.List.GetD
import Mathlib.Data.List.Nodup

/-!
# The rows and watchers along a run

`listed` adds to the table the row that the start handler is about to append.
As long as no `setData` goes through an index past the end of the table, only the
status of a listed row is written again, so the invariants speak of rows without
status (`plain`), and a step leaves a sublist of them or adds the row of a new watch.
Watchers are only added; their arguments never change.
-/
namespace Errifier.Client

set_option autoImplicit false

open Errifier.Text Errifier.Machine

/-- A row without its status. -/
def Row.plain (row : Row) : Row := { row with status := [] }

theorem Row.fields_of_plain {a b : Row} (h : a.plain = b.plain) :
    a.servername = b.servername ∧ a.fileloc = b.fileloc ∧ a.friendlyName = b.friendlyName ∧
      a.watch = b.watch ∧ a.entry = b.entry := by
  unfold Row.plain at h
  rw [Row.mk.injEq] at h
  exact ⟨h.1, h.2.1, h.2.2.1, h.2.2.2.2.1, h.2.2.2.2.2⟩

/-- Tables that agree in some part of each row have as many rows. -/
theorem length_of_map {β : Type} {f : Row → β} {model model' : List Row}
    (h : model'.map f = model.map f) : model'.length = model.length := by
  have hl := congrArg List.length h
  rwa [List.length_map, List.length_map] at hl

theorem plain_setStatus {model : List Row} {i : Nat} (h : i < model.length) (v : QString) :
    (setStatus model i v).map Row.plain = model.map Row.plain :=
  map_setStatus Row.plain (fun _ _ => rfl) h v

def Ui.pending : Ui → List Row
  | .append row => [row]
  | _ => []

/-- The rows of the table and the one that `appendRow` is about to add. -/
def State.listed (s : State) : List Row := s.model ++ s.ui.pending

theorem mem_listed {s : State} {row : Row} (h : row ∈ s.model) : row ∈ s.listed :=
  List.mem_append_left _ h

theorem listed_of_pending {s : State} (h : s.ui.pending = []) : s.listed = s.model := by
  rw [State.listed, h, List.append_nil]

@[simp] theorem ui_advance (s : State) (t : Nat) (w : Watcher) (k : Effect) :
    (s.advance t w k).ui = s.ui := rfl

theorem plain_advance {s : State} (t : Nat) (w : Watcher) {k : Effect}
    (h : ∀ i ∈ k.mark, i < s.model.length) :
    (s.advance t w k).model.map Row.plain = s.model.map Row.plain := by
  unfold State.advance
  cases hmark : k.mark with
  | none => rfl
  | some i => exact plain_setStatus (h i hmark) _

/-- The index that a watcher's `setData` goes through. -/
theorem mark_inTable {s : State} {t : Nat} {reply : Option Int} {w : Watcher} {k : Effect}
    (hC : InTable s (.watcher t reply)) (hw : s.watchers[t]? = some w)
    (hk : startWatch s.serv.cells s.model w.args reply w.pc = some k) :
    ∀ i ∈ k.mark, i < s.model.length := by
  intro i hi
  refine hC i ?_
  rw [mark_eq hk] at hi
  rw [State.written, hw]
  exact hi

/-- The row that the next step of the handler erases. -/
def State.erased (s : State) : Option Nat :=
  match s.ui with
  | .removeRows servername i =>
    match s.model[i]? with
    | some row => if toStdString row.servername = toStdString servername then some i else none
    | none => none
  | _ => none

/-- What became of the table in a step: nothing but statuses changed, a watch was
started, its row was appended, or a row was erased. -/
theorem Move.table {s s' : State} {e : Event} (h : Move s e s') (hC : InTable s e) :
    (s'.model.map Row.plain = s.model.map Row.plain ∧ s'.ui.pending = s.ui.pending) ∨
      (∃ (cur : Nat) (fileloc friendlyName : QString) (parts : QString × QString),
        s.ui = .idle ∧ e = .startWatch cur fileloc friendlyName (.found .started) ∧
        s.request cur fileloc friendlyName = .ok parts ∧
        s' = Client.started s cur fileloc friendlyName parts.1 parts.2) ∨
      (∃ ok row, e = .ui ok ∧ s.ui = .append row ∧
        s' = { s with model := s.model ++ [row], ui := .idle }) ∨
      ∃ ok i, e = .ui ok ∧ s.erased = some i ∧ i < s.model.length ∧ s.ui.pending = [] ∧
        s' = { s with model := s.model.eraseIdx i } := by
  cases h with
  | started cur fileloc friendlyName parts hui hreq =>
    exact Or.inr (Or.inl ⟨cur, fileloc, friendlyName, parts, hui, rfl, hreq, rfl⟩)
  | appended ok row hui => exact Or.inr (Or.inr (Or.inl ⟨ok, row, rfl, hui, rfl⟩))
  | rowErased ok servername i row hui hr hname =>
    obtain ⟨hlt, -⟩ := List.getElem?_eq_some_iff.mp hr
    refine Or.inr (Or.inr (Or.inr ⟨ok, i, rfl, ?_, hlt, ?_, ?_⟩))
    · simp [State.erased, hui, hr, hname]
    · rw [hui]; rfl
    · rw [← hui]
  | paused ok rowid hui =>
    have hlt := hC rowid (by rw [State.written, hui]; rfl)
    exact Or.inl ⟨plain_setStatus hlt _, by simp [Ui.pending, hui]⟩
  | activated ok rowid hui =>
    have hlt : rowid < s.model.length := by
      rcases hui with hui | hui <;> exact hC rowid (by rw [State.written, hui]; rfl)
    refine Or.inl ⟨plain_setStatus hlt _, ?_⟩
    rcases hui with hui | hui <;> simp [Ui.pending, hui]
  | watched t reply w k hw hk => exact Or.inl ⟨plain_advance t w (mark_inTable hC hw hk), rfl⟩
  | gaveUp ok ws hui =>
    refine Or.inl ⟨rfl, ?_⟩
    rcases hui with ⟨r, hui, -⟩ | ⟨r, hui, -⟩ | ⟨r, ip, hui⟩ | ⟨r, ip, hui⟩ <;>
      simp [Ui.pending, hui]
  | removing cur hui hsel => exact Or.inl ⟨rfl, by simp [State.removeServer, Ui.pending, hui]⟩
  | quiet | listed | unstarted => exact Or.inl ⟨rfl, rfl⟩
  -- the others keep the table, and the handler has no row to append
  | _ => exact Or.inl ⟨rfl, by simp [Ui.pending, *]⟩

/-- What became of the listed rows in a step. -/
theorem Move.rows {s s' : State} {e : Event} (h : Move s e s') (hC : InTable s e) :
    (s'.listed.map Row.plain).Sublist (s.listed.map Row.plain) ∨
      ∃ (cur : Nat) (fileloc friendlyName : QString) (parts : QString × QString), s.ui = .idle ∧
        e = .startWatch cur fileloc friendlyName (.found .started) ∧
        s.request cur fileloc friendlyName = .ok parts ∧
        s' = Client.started s cur fileloc friendlyName parts.1 parts.2 := by
  rcases h.table hC with ⟨hm, hu⟩ | hstart | ⟨ok, row, -, hui, rfl⟩ | ⟨ok, i, -, -, -, hp, rfl⟩
  · refine Or.inl ?_
    rw [State.listed, State.listed, List.map_append, List.map_append, hm, hu]
  · exact Or.inr hstart
  · refine Or.inl ?_
    simp [State.listed, Ui.pending, hui]
  · refine Or.inl ?_
    rw [State.listed, State.listed]
    dsimp only
    rw [hp, List.append_nil, List.append_nil]
    exact (List.eraseIdx_sublist _ _).map _

theorem listed_started (s : State) (cur : Nat) (fileloc friendlyName servername serverip : QString) :
    (Client.started s cur fileloc friendlyName servername serverip).listed =
      s.model ++ [newRow s cur fileloc friendlyName servername] := rfl

/-- A listed row was listed before, with some status, or belongs to the watch
that the step started. -/
theorem Move.mem_listed {s s' : State} {e : Event} (h : Move s e s') (hC : InTable s e)
    {row' : Row} (hr' : row' ∈ s'.listed) :
    (∃ row ∈ s.listed, row'.plain = row.plain) ∨
      ∃ (cur : Nat) (fileloc friendlyName : QString) (parts : QString × QString),
        s.ui = .idle ∧ e = .startWatch cur fileloc friendlyName (.found .started) ∧
        s.request cur fileloc friendlyName = .ok parts ∧
        s' = Client.started s cur fileloc friendlyName parts.1 parts.2 ∧
        row' = newRow s cur fileloc friendlyName parts.1 := by
  rcases h.rows hC with hsub | ⟨cur, fileloc, friendlyName, parts, hui, he, hreq, rfl⟩
  · have hm := hsub.subset (List.mem_map_of_mem hr')
    obtain ⟨row, hr, hp⟩ := List.mem_map.mp hm
    exact Or.inl ⟨row, hr, hp.symm⟩
  · rw [listed_started] at hr'
    rcases List.mem_append.mp hr' with hr' | hr'
    · exact Or.inl ⟨row', Client.mem_listed hr', rfl⟩
    · exact Or.inr
        ⟨cur, fileloc, friendlyName, parts, hui, he, hreq, rfl, List.mem_singleton.mp hr'⟩

/-- The row of the watch that the event starts, when the thread comes about. -/
def State.starting (s : State) : Event → Option Row
  | .startWatch cur fileloc friendlyName (.found .started) =>
    match s.request cur fileloc friendlyName with
    | .ok parts => some (newRow s cur fileloc friendlyName parts.1)
    | .error _ => none
  | _ => none

theorem step_of_request {s s' : State} {cur : Nat} {fileloc friendlyName : QString}
    {parts : QString × QString} (hreq : s.request cur fileloc friendlyName = .ok parts)
    (hs : step s (.startWatch cur fileloc friendlyName (.found .started)) = some s') :
    s.ui = .idle ∧ s' = started s cur fileloc friendlyName parts.1 parts.2 := by
  simp only [step] at hs
  split at hs
  · rename_i hg
    refine ⟨hg.1, ?_⟩
    have he := Option.some.inj hs
    unfold State.onPushButtonClicked at he
    rw [hreq] at he
    exact he.symm
  · cases hs

/-- A step starts a watch and lists its row, or lists no new row. -/
theorem starting_cases {s s' : State} {e : Event} (hC : InTable s e) (hs : step s e = some s') :
    (s.starting e = none ∧ (s'.listed.map Row.plain).Sublist (s.listed.map Row.plain)) ∨
      ∃ (cur : Nat) (fileloc friendlyName : QString) (parts : QString × QString),
        s.ui = .idle ∧ s.request cur fileloc friendlyName = .ok parts ∧
        s.starting e = some (newRow s cur fileloc friendlyName parts.1) ∧
        s' = started s cur fileloc friendlyName parts.1 parts.2 := by
  cases hstart : s.starting e with
  | none =>
    refine Or.inl ⟨rfl, ?_⟩
    rcases (move_of_step hs).rows hC with hsub | ⟨cur, fileloc, friendlyName, parts, -, rfl, hreq, -⟩
    · exact hsub
    · simp [State.starting, hreq] at hstart
  | some new =>
    refine Or.inr ?_
    unfold State.starting at hstart
    split at hstart
    · rename_i cur fileloc friendlyName
      cases hreq : s.request cur fileloc friendlyName with
      | error w => rw [hreq] at hstart; cases hstart
      | ok parts =>
        rw [hreq] at hstart
        obtain ⟨hui, hs'⟩ := step_of_request hreq hs
        exact ⟨cur, fileloc, friendlyName, parts, hui, hreq, hstart.symm, hs'⟩
    · cases hstart

/-- What became of the watchers in a step. -/
theorem Move.watchers {s s' : State} {e : Event} (h : Move s e s') :
    s'.watchers = s.watchers ∨ (∃ w, w.pc = .init ∧ s'.watchers = s.watchers ++ [w]) ∨
      ∃ t reply w k, s.watchers[t]? = some w ∧ e = .watcher t reply ∧
        startWatch s.serv.cells s.model w.args reply w.pc = some k ∧ s' = s.advance t w k := by
  cases h with
  | started => exact Or.inr (Or.inl ⟨_, rfl, rfl⟩)
  | respawned => exact Or.inr (Or.inl ⟨_, rfl, rfl⟩)
  | watched t reply w k hw hk => exact Or.inr (Or.inr ⟨t, reply, w, k, hw, rfl, hk, rfl⟩)
  | _ => exact Or.inl rfl

/-- Where a watcher's arguments were bound. -/
theorem Move.args {s s' : State} {e : Event} (h : Move s e s') {w' : Watcher}
    (hw' : w' ∈ s'.watchers) :
    (∃ w ∈ s.watchers, w'.args = w.args) ∨
      (∃ (cur : Nat) (fileloc friendlyName : QString) (parts : QString × QString),
        s' = Client.started s cur fileloc friendlyName parts.1 parts.2 ∧
        w' = ⟨⟨s.serv.cells.length, toStdString fileloc, toStdString parts.2,
          toStdString friendlyName, toStdString parts.1⟩, .init⟩) ∨
      ∃ rowid serverip thread, s.ui = .respawn rowid serverip ∧
        s.serv.threadList[rowid]? = some thread ∧
        w' = Client.respawned s rowid serverip thread := by
  cases h with
  | started cur fileloc friendlyName parts hui hreq =>
    rcases List.mem_append.mp hw' with hw' | hw'
    · exact Or.inl ⟨w', hw', rfl⟩
    · exact Or.inr (Or.inl ⟨cur, fileloc, friendlyName, parts, rfl, List.mem_singleton.mp hw'⟩)
  | respawned rowid serverip thread hui ht =>
    rcases List.mem_append.mp hw' with hw' | hw'
    · exact Or.inl ⟨w', hw', rfl⟩
    · exact Or.inr (Or.inr ⟨rowid, serverip, thread, hui, ht, List.mem_singleton.mp hw'⟩)
  | watched t reply w k hw hk =>
    rcases List.mem_or_eq_of_mem_set hw' with hw' | rfl
    · exact Or.inl ⟨w', hw', rfl⟩
    · exact Or.inl ⟨w, List.mem_of_getElem? hw, rfl⟩
  | _ => exact Or.inl ⟨w', hw', rfl⟩

/-- No watcher is ever forgotten. -/
theorem Move.kept {s s' : State} {e : Event} (h : Move s e s') {w : Watcher}
    (hw : w ∈ s.watchers) : ∃ w' ∈ s'.watchers, w'.args = w.args := by
  rcases h.watchers with hs | ⟨v, -, hs⟩ | ⟨t, reply, v, k, hv, -, -, rfl⟩
  · exact ⟨w, by rwa [hs], rfl⟩
  · exact ⟨w, by rw [hs]; exact List.mem_append_left _ hw, rfl⟩
  · obtain ⟨u, hu⟩ := List.mem_iff_getElem?.mp hw
    by_cases htu : t = u
    · subst htu
      obtain rfl := Option.some.inj (hv.symm.trans hu)
      obtain ⟨hlt, -⟩ := List.getElem?_eq_some_iff.mp hu
      exact ⟨{ v with pc := k.pc }, List.mem_set hlt _, rfl⟩
    · refine ⟨w, List.mem_iff_getElem?.mpr ⟨u, ?_⟩, rfl⟩
      exact (List.getElem?_set_ne htu).trans hu

/-- The value of a run-state cell. -/
def State.cell (s : State) (c : Nat) : Int := s.serv.cells.getD c 0

theorem getElem?_cell {s : State} {c : Nat} (h : c < s.serv.cells.length) :
    s.serv.cells[c]? = some (s.cell c) := by
  rw [State.cell, List.getD_eq_getElem _ _ h, List.getElem?_eq_getElem h]

theorem cell_setState (s : State) (thread : ThreadWrap) (state : Int) (c : Nat) :
    ((s.serv.setState thread state).cells).getD c 0 =
      if thread.runstate = c ∧ c < s.serv.cells.length then state else s.cell c := by
  unfold WorkerThread.setState State.cell
  rw [List.getD_eq_getElem?_getD, List.getD_eq_getElem?_getD, List.getElem?_set]
  by_cases hc : thread.runstate = c
  · subst hc
    by_cases hlt : thread.runstate < s.serv.cells.length
    · simp [hlt]
    · simp [hlt]
  · simp [hc]

/-- New cells are allocated behind the old ones. -/
theorem cell_append {s s' : State} {extra : List Int} (h : s'.serv.cells = s.serv.cells ++ extra)
    {c : Nat} (hc : c < s.serv.cells.length) : s'.cell c = s.cell c := by
  rw [State.cell, State.cell, h, List.getD_append _ _ _ _ hc]

theorem Move.cells_length {s s' : State} {e : Event} (h : Move s e s') :
    s.serv.cells.length ≤ s'.serv.cells.length := by
  cases h with
  | started => simp [Client.started]
  | unstarted => simp
  | threadErased => simp
  | locked | unlocked | readied => simp [WorkerThread.setState]
  | _ => exact Nat.le_refl _

theorem lookup_insertIp_of_some {m : List (QString × QString)} {key value : QString}
    (h : m.lookup key = some value) (servername serverip : QString) :
    (insertIp m servername serverip).lookup key = some value := by
  unfold insertIp
  split
  · exact h
  · rw [List.lookup_append, h]
    rfl

/-- `std::map::insert` keeps the value of a key that is there. -/
theorem lookup_insertIp_self (m : List (QString × QString)) (servername serverip : QString) :
    (insertIp m servername serverip).lookup servername =
      some ((m.lookup servername).getD serverip) := by
  unfold insertIp
  cases h : m.lookup servername with
  | none => simp [List.lookup_append, h]
  | some value => simp [h]

/-- `ipnamemap` never changes a value. -/
theorem Move.lookup {s s' : State} {e : Event} (h : Move s e s') {key value : QString}
    (hk : s.ipnamemap.lookup key = some value) : s'.ipnamemap.lookup key = some value := by
  cases h with
  | started => exact lookup_insertIp_of_some hk _ _
  | unstarted => exact lookup_insertIp_of_some hk _ _
  | _ => exact hk

end Errifier.Client
