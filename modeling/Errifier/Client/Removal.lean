import Errifier.Client.Address

/-!
# `removeServerHandler` and the watches of other entries

The handler, run without interruption, is two erasing loops over the same name.
Both compare what `toStdString` makes of names that were parsed out of the
entries, so a watch of another entry survives exactly when the two parsed names
still look different there.
-/
namespace Errifier.Client

set_option autoImplicit false

open Errifier.Text Errifier.Machine
open WorkerThread (named stop)

/-- The loop over the rows from index `i`, at most `n` passes. -/
def removeRowsFrom (servername : StdString) : Nat → List Row → Nat → List Row
  | 0, model, _ => model
  | n + 1, model, i =>
    match removeRowAt servername model i with
    | none => model
    | some (model, i) => removeRowsFrom servername n model i

/-- `removeServerHandler` as one step: the item goes, then the threads of the
server named in its text, then the rows. -/
def State.removeServerHandler (s : State) (cur : Nat) : State :=
  let servername := toStdString (splitEntry (s.currentText cur)).1
  { s with
    serverlist := s.serverlist.eraseIdx cur
    serv := s.serv.removeServer servername
    model := removeRowsFrom servername s.model.length s.model 0 }

/-- The comparison in the loop over the rows. -/
def rowNamed (servername : StdString) (row : Row) : Bool := toStdString row.servername == servername

theorem removeRowAt_eq (servername : StdString) (model : List Row) (i : Nat) :
    removeRowAt servername model i =
      (eraseStep (rowNamed servername) (fun _ (u : Unit) => u) model () i).map
        fun r => (r.1, r.2.2) := by
  unfold removeRowAt eraseStep
  cases model[i]? with
  | none => rfl
  | some row =>
    by_cases h : toStdString row.servername = servername
    · simp [h, rowNamed]
    · simp [h, rowNamed]

theorem removeRowsFrom_eq (servername : StdString) (n : Nat) (model : List Row) (i : Nat) :
    removeRowsFrom servername n model i =
      (eraseLoop (rowNamed servername) (fun _ (u : Unit) => u) n model () i).1 := by
  induction n generalizing model i with
  | zero => rfl
  | succ n ih =>
    unfold removeRowsFrom eraseLoop
    rw [removeRowAt_eq]
    cases eraseStep (rowNamed servername) (fun _ (u : Unit) => u) model () i with
    | none => rfl
    | some r => exact ih _ _

theorem removeRows_eq (servername : StdString) (model : List Row) :
    removeRowsFrom servername model.length model 0 = survivors (rowNamed servername) model := by
  rw [removeRowsFrom_eq, eraseLoop_all]

theorem removeServerHandler_eq (s : State) (cur : Nat) (servername : StdString)
    (hn : toStdString (splitEntry (s.currentText cur)).1 = servername) :
    s.removeServerHandler cur =
      { s with
        serverlist := s.serverlist.eraseIdx cur
        serv := ⟨survivors (named servername) s.serv.threadList,
          (s.serv.threadList.filter (named servername)).foldl (fun cells t => stop t cells)
            s.serv.cells⟩
        model := survivors (rowNamed servername) s.model } := by
  subst hn
  unfold State.removeServerHandler
  dsimp only
  rw [WorkerThread.removeServer_eq, removeRows_eq]

/-- A pass either shortens the list or advances the index. -/
theorem removeRowAt_progress {servername : StdString} {model model' : List Row} {i j : Nat}
    (h : removeRowAt servername model i = some (model', j)) :
    model'.length + i < model.length + j := by
  rw [removeRowAt_eq] at h
  obtain ⟨⟨l, u, k⟩, hr, he⟩ := Option.map_eq_some_iff.mp h
  obtain ⟨rfl, rfl⟩ := Prod.mk.inj he
  exact eraseStep_progress hr

/-- The steps of the first loop, uninterrupted. -/
theorem run_removeThreads (n : QString) (k : Nat) (s : State) (i : Nat)
    (hui : s.ui = .removeThreads n i) (hk : s.serv.threadList.length ≤ i + k) :
    ∃ m, run step s (List.replicate m (.ui true)) =
      some { s with
        serv := WorkerThread.removeServerFrom (toStdString n) k s.serv i
        ui := .removeRows n 0 } := by
  induction k generalizing s i with
  | zero =>
    have hat : s.serv.removeServerAt (toStdString n) i = none := by
      unfold WorkerThread.removeServerAt
      rw [List.getElem?_eq_none (by omega)]
    refine ⟨1, ?_⟩
    simp only [List.replicate_one, run, step, State.uiStep, hui, hat,
      WorkerThread.removeServerFrom, Option.bind_some]
  | succ k ih =>
    cases hat : s.serv.removeServerAt (toStdString n) i with
    | none =>
      refine ⟨1, ?_⟩
      simp only [List.replicate_one, run, step, State.uiStep, hui, hat,
        WorkerThread.removeServerFrom, Option.bind_some]
    | some r =>
      obtain ⟨serv, j⟩ := r
      have hlt := removeServerAt_progress hat
      obtain ⟨m, hm⟩ := ih { s with serv, ui := .removeThreads n j } j rfl
        (by dsimp only; omega)
      refine ⟨m + 1, ?_⟩
      simp only [List.replicate_succ, run, step, State.uiStep, hui, hat, Option.bind_some,
        hm, WorkerThread.removeServerFrom]

/-- The steps of the second loop, uninterrupted. -/
theorem run_removeRows (n : QString) (k : Nat) (s : State) (i : Nat)
    (hui : s.ui = .removeRows n i) (hk : s.model.length ≤ i + k) :
    ∃ m, run step s (List.replicate m (.ui true)) =
      some { s with model := removeRowsFrom (toStdString n) k s.model i, ui := .idle } := by
  induction k generalizing s i with
  | zero =>
    have hat : removeRowAt (toStdString n) s.model i = none := by
      unfold removeRowAt
      rw [List.getElem?_eq_none (by omega)]
    refine ⟨1, ?_⟩
    simp only [List.replicate_one, run, step, State.uiStep, hui, hat, removeRowsFrom,
      Option.bind_some]
  | succ k ih =>
    cases hat : removeRowAt (toStdString n) s.model i with
    | none =>
      refine ⟨1, ?_⟩
      simp only [List.replicate_one, run, step, State.uiStep, hui, hat, removeRowsFrom,
        Option.bind_some]
    | some r =>
      obtain ⟨model, j⟩ := r
      have hlt := removeRowAt_progress hat
      obtain ⟨m, hm⟩ := ih { s with model, ui := .removeRows n j } j rfl (by dsimp only; omega)
      refine ⟨m + 1, ?_⟩
      simp only [List.replicate_succ, run, step, State.uiStep, hui, hat, Option.bind_some, hm,
        removeRowsFrom]

/-- `removeServerHandler` is what the steps come to when no watcher interrupts. -/
theorem run_removeServer {s : State} {cur : Nat} (hui : s.ui = .idle) (hsel : s.selects cur) :
    ∃ m, run step s (.removeServer cur :: List.replicate m (.ui true)) =
      some (s.removeServerHandler cur) := by
  have hstep : step s (.removeServer cur) = some (s.removeServer cur) := if_pos ⟨hui, hsel⟩
  have hlen : (s.removeServer cur).serv.threadList.length ≤ 0 + s.serv.threadList.length := by
    rw [Nat.zero_add]
    exact Nat.le_refl _
  obtain ⟨m, hm⟩ := run_removeThreads _ _ (s.removeServer cur) 0 rfl hlen
  obtain ⟨m', hm'⟩ := run_removeRows (splitEntry (s.currentText cur)).1 s.model.length
    { s.removeServer cur with
      serv := s.serv.removeServer (toStdString (splitEntry (s.currentText cur)).1)
      ui := .removeRows (splitEntry (s.currentText cur)).1 0 } 0 rfl (by
        rw [Nat.zero_add]
        exact Nat.le_refl _)
  refine ⟨m + m', ?_⟩
  rw [← List.replicate_append_replicate]
  refine Option.bind_eq_some_iff.mpr ⟨_, hstep, (run_append hm hm').trans ?_⟩
  simp only [State.removeServerHandler, State.removeServer, hui]

/-- Every row with its thread and the value of that thread's run-state cell. -/
def State.watches (s : State) : List (Row × ThreadWrap × Option Int) :=
  (s.model.zip s.serv.threadList).map fun p => (p.1, p.2, s.serv.cells[p.2.runstate]?)

/-- Started while another entry was selected. -/
def Row.elsewhere (e : ServerEntry) (row : Row) : Bool := row.entry.any fun e' => e' ≠ e

/-- The watches of other entries are what and where they were: row, thread and
run state, in the same order. -/
def Untouched (e : ServerEntry) (s s' : State) : Prop :=
  s'.watches.filter (fun p => p.1.elsewhere e) = s.watches.filter (fun p => p.1.elsewhere e)

instance (e : ServerEntry) (s s' : State) : Decidable (Untouched e s s') :=
  inferInstanceAs (Decidable (_ = _))

/-- The names parsed from `e` and from the entries of other rows differ after
conversion. -/
def LooksOther (e : ServerEntry) (s : State) : Prop :=
  ∀ row ∈ s.model, row.elsewhere e = true →
    toStdString row.server.1 ≠ toStdString (splitEntry e.text).1

instance (e : ServerEntry) (s : State) : Decidable (LooksOther e s) :=
  inferInstanceAs (Decidable (∀ row ∈ s.model, _ → _ ≠ _))

theorem watches_eq {s : State} (h : s.serv.threadList = s.model.map Row.thread) :
    s.watches = s.model.map fun row => (row, row.thread, s.serv.cells[row.watch]?) := by
  unfold State.watches
  rw [h, ← List.map_prod_left_eq_zip, List.map_map]
  rfl

theorem filter_watches {s : State} (h : s.serv.threadList = s.model.map Row.thread)
    (e : ServerEntry) :
    s.watches.filter (fun p => p.1.elsewhere e) =
      (s.model.filter (Row.elsewhere e)).map
        fun row => (row, row.thread, s.serv.cells[row.watch]?) := by
  rw [watches_eq h, List.filter_map]
  rfl

theorem named_thread (servername : StdString) (row : Row) :
    named servername row.thread = rowNamed servername row := BEq.comm

theorem survivors_threads (servername : StdString) (model : List Row) :
    survivors (named servername) (model.map Row.thread) =
      (survivors (rowNamed servername) model).map Row.thread := by
  unfold survivors
  rw [List.filter_map]
  refine congrArg (List.map Row.thread) (List.filter_congr fun row _ => ?_)
  exact congrArg (!·) (named_thread servername row)

/-- The cell of a row with another name is not stopped. -/
theorem cell_of_other {s : State} (hc : Consistent s) (hui : s.ui = .idle) {name : StdString}
    {row : Row} (hr : row ∈ s.model) (hother : rowNamed name row = false) :
    ((s.serv.threadList.filter (named name)).foldl (fun cells t => stop t cells)
        s.serv.cells)[row.watch]? = s.serv.cells[row.watch]? := by
  refine getElem?_foldl_stop _ _ fun thread hthread hcell => ?_
  obtain ⟨hmem, hname⟩ := List.mem_filter.mp hthread
  rw [hc.aligned.idle hui] at hmem
  obtain ⟨row', hr', rfl⟩ := List.mem_map.mp hmem
  obtain rfl := hc.linked.unique (mem_listed hr') (mem_listed hr) hcell
  rw [named_thread, hother] at hname
  cases hname

theorem filter_survivors {name : StdString} {model : List Row} {e : ServerEntry}
    (h : ∀ row ∈ model, row.elsewhere e = true → rowNamed name row = false) :
    (survivors (rowNamed name) model).filter (Row.elsewhere e) =
      model.filter (Row.elsewhere e) := by
  unfold survivors
  rw [List.filter_filter]
  refine List.filter_congr fun row hr => ?_
  cases hel : row.elsewhere e with
  | false => rfl
  | true => rw [h row hr hel]; rfl

/-- The watches of the other entries after `removeServerHandler` for the name
`name`. -/
theorem filter_watches_removed {s : State} (hc : Consistent s) (hui : s.ui = .idle) {cur : Nat}
    {name : StdString} (hname : toStdString (splitEntry (s.currentText cur)).1 = name)
    (e : ServerEntry) :
    (s.removeServerHandler cur).watches.filter (fun p => p.1.elsewhere e) =
      ((survivors (rowNamed name) s.model).filter (Row.elsewhere e)).map fun row =>
        (row, row.thread, s.serv.cells[row.watch]?) := by
  have hthreads : (s.removeServerHandler cur).serv.threadList =
      (s.removeServerHandler cur).model.map Row.thread := by
    rw [removeServerHandler_eq s cur name hname, hc.aligned.idle hui]
    exact survivors_threads _ _
  rw [filter_watches hthreads, removeServerHandler_eq s cur name hname]
  refine List.map_congr_left fun row hr => ?_
  obtain ⟨hr, hkept⟩ := List.mem_filter.mp (List.mem_filter.mp hr).1
  dsimp only
  rw [cell_of_other hc hui hr ((Bool.not_eq_true' _).mp hkept)]

/-- Reached without stale `setData`: removing the server of entry `e` leaves the watches of
the other entries alone exactly when their parsed names look different from that of `e`. -/
theorem removeServerHandler_untouched_iff {s : State} (hs : ReachableBy step InTable start s)
    (hui : s.ui = .idle) {cur : Nat} {e : ServerEntry} (he : s.serverlist[cur]? = some e) :
    Untouched e s (s.removeServerHandler cur) ↔ LooksOther e s := by
  have hc := consistent_of_reachable hs
  have hserver : ∀ row ∈ s.model, row.servername = row.server.1 := fun row hr =>
    named_of_reachable hs row (mem_listed hr)
  have htext : s.currentText cur = e.text := by rw [State.currentText, he]; rfl
  obtain ⟨name, hname⟩ : ∃ name, toStdString (splitEntry e.text).1 = name := ⟨_, rfl⟩
  unfold Untouched LooksOther
  rw [filter_watches (hc.aligned.idle hui),
    filter_watches_removed hc hui (by rw [htext, hname]), hname]
  constructor
  · intro heq row hr hel hsame
    have hmem := List.mem_map_of_mem (f := fun row : Row => (row, row.thread, s.serv.cells[row.watch]?))
      (List.mem_filter.mpr ⟨hr, hel⟩)
    rw [← heq] at hmem
    obtain ⟨row', hr', hp⟩ := List.mem_map.mp hmem
    obtain rfl : row' = row := congrArg Prod.fst hp
    have hkeep := (List.mem_filter.mp (List.mem_filter.mp hr').1).2
    rw [← hserver row' hr] at hsame
    simp [rowNamed, hsame] at hkeep
  · intro hother
    rw [filter_survivors]
    intro row hr hel
    have hne := hother row hr hel
    rw [← hserver row hr] at hne
    exact beq_eq_false_iff_ne.mpr hne

/-- A watch on server `A` while the list also shows `HOST`. -/
def watchOnA : List Event :=
  [.addServer ['A'] ['1'], .startWatch 1 ['f'] ['x'] (.found .started), .ui true]

theorem removing_host_leaves_a : ∃ s, run step start watchOnA = some s ∧
    s.model.length = 1 ∧ Untouched host s (s.removeServerHandler 0) := by
  refine ⟨_, rfl, rfl, ?_⟩
  exact (removeServerHandler_untouched_iff ⟨watchOnA, rfl, by decide⟩ rfl rfl).mpr (by decide)

/-- Two servers of the same name; the watch is on the second. -/
def twoOfOneName : List Event :=
  [.addServer ['A'] ['1'], .addServer ['A'] ['2'],
   .startWatch 2 ['f'] ['x'] (.found .started), .ui true]

theorem removing_one_stops_other : ∃ s e, run step start twoOfOneName = some s ∧
    s.ui = .idle ∧ s.serverlist[1]? = some e ∧ e.text = ['A', '(', '1', ')'] ∧
    ¬ Untouched e s (s.removeServerHandler 1) := by
  refine ⟨_, _, rfl, rfl, rfl, rfl, ?_⟩
  decide

end Errifier.Client
