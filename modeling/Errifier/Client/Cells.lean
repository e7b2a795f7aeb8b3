import Errifier.Client.Moves

/-!
# The run-state cells under every sequence of operations

`threadList` holds copies of `ThreadWrap` that share their cell with the watcher,
and erasing shifts them. The operations keep the cells of the entries apart and
not stopped. So none of them reaches the cell of an erased entry again.
-/
namespace Errifier.Client.WorkerThread

set_option autoImplicit false

open Errifier.Text Errifier.Machine

/-- `startTimedoutThread`: the connection is opened, the cell is set, and only
then the thread is created; -100 when one of these throws, `at` included. -/
def startTimedoutThread (w : WorkerThread) (filename ip friendlyname servername : StdString)
    (threadNum : Nat) : ThreadOutcome → WorkerThread × List Watcher × Int
  | .refused => (w, [], -100)
  | .noThread => ((w.setThreadRun threadNum).getD w, [], -100)
  | .started =>
    match w.setThreadRun threadNum, w.respawn filename ip friendlyname servername threadNum with
    | some w, some watcher => (w, [watcher], 1)
    | _, _ => (w, [], -100)

inductive Op where
  | startNewThread (filename ip friendlyname servername : StdString) (out : ThreadOutcome)
  | startTimedoutThread (filename ip friendlyname servername : StdString) (threadNum : Nat)
      (out : ThreadOutcome)
  | setThreadLock (threadnumber : Nat)
  | setThreadRun (threadnumber : Nat)
  | removeServer (servername : StdString)

/-- One operation; none for an index that is not valid. -/
def apply (w : WorkerThread) : Op → Option WorkerThread
  | .startNewThread filename ip friendlyname servername out =>
    some (w.startNewThread filename ip friendlyname servername out).1
  | .startTimedoutThread filename ip friendlyname servername threadNum out =>
    if threadNum < w.threadList.length then
      some (w.startTimedoutThread filename ip friendlyname servername threadNum out).1
    else none
  | .setThreadLock threadnumber => w.setThreadLock threadnumber
  | .setThreadRun threadnumber => w.setThreadRun threadnumber
  | .removeServer servername => some (w.removeServer servername)

/-- The loop of `removeServer`, entered with index `i`, comes to its end. -/
inductive RemoveLoop (servername : StdString) : WorkerThread → Nat → WorkerThread → Prop
  | ends (w : WorkerThread) (i : Nat) (h : w.removeServerAt servername i = none) :
      RemoveLoop servername w i w
  | pass (w w' t : WorkerThread) (i j : Nat) (h : w.removeServerAt servername i = some (w', j))
      (hrest : RemoveLoop servername w' j t) : RemoveLoop servername w i t

/-- What an operation does to the entries and the cells. -/
def Does (w w' : WorkerThread) : Op → Prop
  | .startNewThread _ _ _ servername _ =>
    w.cells <+: w'.cells ∧ (w'.threadList = w.threadList ∨
      w'.threadList = w.threadList ++ [⟨servername, w.cells.length⟩])
  | .startTimedoutThread _ _ _ _ i _ | .setThreadLock i | .setThreadRun i =>
    ∃ thread, w.threadList[i]? = some thread ∧ w'.threadList = w.threadList ∧
      ∀ c, c ≠ thread.runstate → w'.cells[c]? = w.cells[c]?
  | .removeServer servername =>
    RemoveLoop servername w 0 w' ∧
    w'.threadList = w.threadList.filter (fun thread => thread.servername ≠ servername) ∧
    (∀ thread ∈ w.threadList, thread.servername = servername →
      w'.cells[thread.runstate]? = some THREAD_STOP) ∧
    (∀ c, (∀ thread ∈ w.threadList, thread.servername = servername → thread.runstate ≠ c) →
      w'.cells[c]? = w.cells[c]?) ∧
    ∀ thread ∈ w'.threadList, w'.cells[thread.runstate]? = w.cells[thread.runstate]?

theorem removeLoop_from (servername : StdString) (n : Nat) (w : WorkerThread) (i : Nat)
    (hn : w.threadList.length ≤ i + n) :
    RemoveLoop servername w i (removeServerFrom servername n w i) := by
  induction n generalizing w i with
  | zero =>
    refine .ends w i ?_
    rw [removeServerAt, List.getElem?_eq_none (by omega)]
  | succ n ih =>
    rw [removeServerFrom]
    cases hat : w.removeServerAt servername i with
    | none => exact .ends w i hat
    | some r =>
      obtain ⟨w', j⟩ := r
      have hlt := removeServerAt_progress hat
      exact .pass w w' _ i j hat (ih w' j (by omega))

/-- Writing THREAD_STOP leaves a stopped cell stopped. -/
theorem stop_stays {cells : List Int} {c : Nat} (h : cells[c]? = some THREAD_STOP)
    (thread : ThreadWrap) : (stop thread cells)[c]? = some THREAD_STOP := by
  obtain ⟨hlt, -⟩ := List.getElem?_eq_some_iff.mp h
  rw [stop, List.getElem?_set]
  by_cases hc : thread.runstate = c
  · rw [if_pos hc, if_pos (by omega)]
  · rw [if_neg hc, h]

theorem foldl_stop_stays (l : List ThreadWrap) {cells : List Int} {c : Nat}
    (h : cells[c]? = some THREAD_STOP) :
    (l.foldl (fun cells t => stop t cells) cells)[c]? = some THREAD_STOP := by
  induction l generalizing cells with
  | nil => exact h
  | cons thread l ih => exact ih (stop_stays h thread)

theorem foldl_stop_of_mem {l : List ThreadWrap} {cells : List Int} {thread : ThreadWrap}
    (ht : thread ∈ l) (hc : thread.runstate < cells.length) :
    (l.foldl (fun cells t => stop t cells) cells)[thread.runstate]? = some THREAD_STOP := by
  induction l generalizing cells with
  | nil => cases ht
  | cons other l ih =>
    rcases List.mem_cons.mp ht with rfl | ht
    · exact foldl_stop_stays l (List.getElem?_set_self hc)
    · have hlen : (stop other cells).length = cells.length := List.length_set
      exact ih ht (by rw [hlen]; exact hc)

theorem named_eq (servername : StdString) (thread : ThreadWrap) :
    named servername thread = decide (thread.servername = servername) := by
  rw [named, Bool.eq_iff_iff, beq_iff_eq, decide_eq_true_iff]
  exact eq_comm

theorem mem_named {w : WorkerThread} {servername : StdString} {thread : ThreadWrap} :
    thread ∈ w.threadList.filter (named servername) ↔
      thread ∈ w.threadList ∧ thread.servername = servername := by
  rw [List.mem_filter, named_eq, decide_eq_true_iff]

theorem threadList_removed (w : WorkerThread) (servername : StdString) :
    (w.removeServer servername).threadList =
      w.threadList.filter fun thread => thread.servername ≠ servername := by
  rw [removeServer_eq]
  refine List.filter_congr fun thread _ => ?_
  rw [named_eq, ← decide_not]

theorem cells_removed (w : WorkerThread) (servername : StdString) {c : Nat}
    (hc : ∀ thread ∈ w.threadList, thread.servername = servername → thread.runstate ≠ c) :
    (w.removeServer servername).cells[c]? = w.cells[c]? := by
  rw [removeServer_eq]
  refine getElem?_foldl_stop _ _ fun thread ht => ?_
  obtain ⟨hmem, hname⟩ := mem_named.mp ht
  exact hc thread hmem hname

/-- An entry that is left keeps its cell's value. -/
theorem cell_of_left {w : WorkerThread} (h : Private w) {servername : StdString}
    {thread : ThreadWrap} (ht : thread ∈ (w.removeServer servername).threadList) :
    (w.removeServer servername).cells[thread.runstate]? = w.cells[thread.runstate]? := by
  rw [threadList_removed, List.mem_filter, decide_eq_true_iff] at ht
  obtain ⟨hmem, hne⟩ := ht
  refine cells_removed w servername fun other ho hname hc => ?_
  obtain rfl := h.unique ho hmem hc
  exact hne hname

theorem does_removeServer {w : WorkerThread} (h : Private w) (servername : StdString) :
    Does w (w.removeServer servername) (.removeServer servername) := by
  refine ⟨removeLoop_from _ _ _ _ (by omega), threadList_removed _ _, fun thread ht hname => ?_,
    fun c hc => cells_removed w servername hc, fun thread ht => cell_of_left h ht⟩
  rw [removeServer_eq]
  exact foldl_stop_of_mem (mem_named.mpr ⟨ht, hname⟩) (h.fresh ht)

theorem setStateAt_cases {w w' : WorkerThread} {i : Nat} {v : Int}
    (h : w.setStateAt i v = some w') :
    ∃ thread, w.threadList[i]? = some thread ∧ w' = w.setState thread v := by
  obtain ⟨thread, ht, rfl⟩ := Option.map_eq_some_iff.mp h
  exact ⟨thread, ht, rfl⟩

/-- `startTimedoutThread` leaves everything or writes THREAD_RUN. -/
theorem startTimedoutThread_cases {w w' : WorkerThread}
    {filename ip friendlyname servername : StdString} {i : Nat} {out : ThreadOutcome}
    (h : w.apply (.startTimedoutThread filename ip friendlyname servername i out) = some w') :
    ∃ thread, w.threadList[i]? = some thread ∧ (w' = w ∨ w' = w.setState thread THREAD_RUN) := by
  simp only [apply] at h
  split at h
  · rename_i hi
    obtain rfl := Option.some.inj h
    have ht : w.threadList[i]? = some w.threadList[i] := List.getElem?_eq_getElem hi
    refine ⟨_, ht, ?_⟩
    cases out with
    | refused => exact Or.inl rfl
    | noThread | started =>
      refine Or.inr ?_
      simp [startTimedoutThread, setThreadRun, setStateAt, respawn, hi]
  · cases h

/-- What becomes of the entries and the cells. -/
inductive Change (w : WorkerThread) : WorkerThread → Prop
  | nothing : Change w w
  | cell : Change w ⟨w.threadList, w.cells ++ [THREAD_RUN]⟩
  | entry (servername : StdString) :
      Change w ⟨w.threadList ++ [⟨servername, w.cells.length⟩], w.cells ++ [THREAD_RUN]⟩
  | write (thread : ThreadWrap) (v : Int) (ht : thread ∈ w.threadList) (hv : v ≠ THREAD_STOP) :
      Change w (w.setState thread v)
  | removed (servername : StdString) : Change w (w.removeServer servername)

theorem change_of_apply {w w' : WorkerThread} {op : Op} (h : w.apply op = some w') :
    Change w w' := by
  cases op with
  | startNewThread filename ip friendlyname servername out =>
    obtain rfl := Option.some.inj h
    cases out with
    | refused => exact .nothing
    | noThread => exact .cell
    | started => exact .entry servername
  | startTimedoutThread filename ip friendlyname servername i out =>
    obtain ⟨thread, ht, rfl | rfl⟩ := startTimedoutThread_cases h
    · exact .nothing
    · exact .write _ _ (List.mem_of_getElem? ht) (by decide)
  | setThreadLock i =>
    obtain ⟨thread, ht, rfl⟩ := setStateAt_cases h
    exact .write _ _ (List.mem_of_getElem? ht) (by decide)
  | setThreadRun i =>
    obtain ⟨thread, ht, rfl⟩ := setStateAt_cases h
    exact .write _ _ (List.mem_of_getElem? ht) (by decide)
  | removeServer servername =>
    obtain rfl := Option.some.inj h
    exact .removed servername

theorem cell_setState_ne (w : WorkerThread) (thread : ThreadWrap) (v : Int) {c : Nat}
    (hc : c ≠ thread.runstate) : (w.setState thread v).cells[c]? = w.cells[c]? :=
  List.getElem?_set_ne hc.symm

theorem Private.change {w w' : WorkerThread} (h : Private w) (hc : Change w w') : Private w' := by
  cases hc with
  | nothing => exact h
  | cell => exact h.allocated _
  | entry servername => exact h.entered servername
  | write thread v ht hv => exact h.written ht hv
  | removed servername =>
    constructor
    · rw [threadList_removed]
      exact h.nodup.sublist (List.filter_sublist.map _)
    · intro thread ht
      rw [cell_of_left h ht]
      rw [threadList_removed] at ht
      exact h.live thread (List.mem_of_mem_filter ht)

/-- No operation changes a stopped cell: it belongs to no entry. -/
theorem Private.stopped {w w' : WorkerThread} (h : Private w) (hc : Change w w') {c : Nat}
    (hstop : w.cells[c]? = some THREAD_STOP) : w'.cells[c]? = some THREAD_STOP := by
  obtain ⟨hlt, -⟩ := List.getElem?_eq_some_iff.mp hstop
  cases hc with
  | nothing => exact hstop
  | cell | entry =>
    dsimp only
    rw [List.getElem?_append_left hlt, hstop]
  | write thread v ht hv =>
    have hne : c ≠ thread.runstate := by
      rintro rfl
      obtain ⟨v', hv', hne⟩ := h.live thread ht
      exact hne (Option.some.inj (hv'.symm.trans hstop))
    rw [cell_setState_ne w thread v hne, hstop]
  | removed servername =>
    rw [removeServer_eq]
    exact foldl_stop_stays _ hstop

theorem does_of_apply {w w' : WorkerThread} (h : Private w) {op : Op} (ha : w.apply op = some w') :
    Does w w' op := by
  cases op with
  | startNewThread filename ip friendlyname servername out =>
    obtain rfl := Option.some.inj ha
    cases out with
    | refused => exact ⟨List.prefix_rfl, Or.inl rfl⟩
    | noThread => exact ⟨List.prefix_append _ _, Or.inl rfl⟩
    | started => exact ⟨List.prefix_append _ _, Or.inr rfl⟩
  | startTimedoutThread filename ip friendlyname servername i out =>
    obtain ⟨thread, ht, rfl | rfl⟩ := startTimedoutThread_cases ha
    · exact ⟨thread, ht, rfl, fun c _ => rfl⟩
    · exact ⟨thread, ht, rfl, fun c hc => cell_setState_ne w _ _ hc⟩
  | setThreadLock i =>
    obtain ⟨thread, ht, rfl⟩ := setStateAt_cases ha
    exact ⟨thread, ht, rfl, fun c hc => cell_setState_ne w _ _ hc⟩
  | setThreadRun i =>
    obtain ⟨thread, ht, rfl⟩ := setStateAt_cases ha
    exact ⟨thread, ht, rfl, fun c hc => cell_setState_ne w _ _ hc⟩
  | removeServer servername =>
    obtain rfl := Option.some.inj ha
    exact does_removeServer h servername

theorem Private.run_stopped {w w' : WorkerThread} {ops : List Op} (h : Private w)
    (hr : run apply w ops = some w') {c : Nat} (hstop : w.cells[c]? = some THREAD_STOP) :
    w'.cells[c]? = some THREAD_STOP := by
  have keep : ∀ w op w', Private w ∧ w.cells[c]? = some THREAD_STOP → apply w op = some w' →
      Private w' ∧ w'.cells[c]? = some THREAD_STOP := by
    intro w op w' hw ha
    have hc := change_of_apply ha
    exact ⟨hw.1.change hc, hw.1.stopped hc hw.2⟩
  exact ((along keep ⟨h, hstop⟩ ops).last hr).2

/-- The handler's steps for `startTimedoutThread`. -/
def retrySteps : ThreadOutcome → List Event
  | .refused => [.ui false]
  | .noThread => [.ui true, .ui false]
  | .started => [.ui true, .ui true]

/-- The two steps into which the click handler is cut, uninterrupted, are
`startTimedoutThread`. -/
theorem run_reconnect {s : State} {r : Nat} {ip : QString} {thread : ThreadWrap}
    (hui : s.ui = .reconnect r ip) (ht : s.serv.threadList[r]? = some thread)
    (out : ThreadOutcome) :
    ∃ s', run step s (retrySteps out) = some s' ∧
      let result := s.serv.startTimedoutThread (toStdString (dataAt s.model r (·.fileloc)))
        (toStdString ip) (toStdString (dataAt s.model r (·.friendlyName)))
        (toStdString (dataAt s.model r (·.servername))) r out
      s'.serv = result.1 ∧ s'.watchers = s.watchers ++ result.2.1 := by
  cases out with
  | refused =>
    refine ⟨{ s.warn .notRunning with ui := .idle }, ?_, rfl, (List.append_nil _).symm⟩
    simp [retrySteps, run, step, State.uiStep, hui]
  | noThread =>
    refine ⟨{ s.warn .notRunning with serv := s.serv.setState thread THREAD_RUN, ui := .idle },
      ?_, ?_, (List.append_nil _).symm⟩
    · simp [retrySteps, run, step, State.uiStep, hui, setThreadRun, setStateAt, ht, State.warn]
    · simp [startTimedoutThread, setThreadRun, setStateAt, ht]
  | started =>
    refine ⟨{ s with serv := s.serv.setState thread THREAD_RUN, ui := .reconnected r
                     watchers := s.watchers ++ [respawned s r ip thread] }, ?_, ?_, ?_⟩
    · simp [retrySteps, run, step, State.uiStep, hui, setThreadRun, setStateAt, respawn, setState,
        ht, respawned]
    · simp [startTimedoutThread, setThreadRun, setStateAt, respawn, ht]
    · simp [startTimedoutThread, setThreadRun, setStateAt, respawn, ht, respawned]

end Errifier.Client.WorkerThread
