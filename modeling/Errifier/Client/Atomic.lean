import Errifier.Client.Orphans
import Errifier.Client.OwnRow
import Errifier.Client.Removal
import Errifier.Machine.History

/-!
# The table as if every change were made at once

Between the steps of a handler watchers write statuses into the table, and a removal
takes its rows one by one. To the table it is as if a start had added its row, and a
removal taken all of its rows, when the handler was called. So the table between two
handlers is told by the changes in that order alone: the rows that were started and
not removed since, each with the status written last. A `setData` past the end of the
table would add rows that no start made.
-/
namespace Errifier.Client

set_option autoImplicit false

open Errifier.Text Errifier.Machine
open WorkerThread (named)

/-- A row is known by the run-state cell of its watch. -/
inductive TableOp where
  | start (row : Row)
  | remove (servername : StdString)
  | write (watch : Nat) (status : QString)

namespace TableOp

def setRow (watch : Nat) (status : QString) (row : Row) : Row :=
  if row.watch = watch then { row with status } else row

def apply (rows : List Row) : TableOp → List Row
  | .start row => rows ++ [row]
  | .remove servername => survivors (rowNamed servername) rows
  | .write watch status => rows.map (setRow watch status)

/-- The status of the row with the cell `watch` that has status `v` before the changes. -/
def lastStatus (watch : Nat) : QString → List TableOp → QString
  | v, [] => v
  | v, .write c v' :: ops => lastStatus watch (if watch = c then v' else v) ops
  | v, _ :: ops => lastStatus watch v ops

/-- The row after the changes, unless they remove it. -/
def after (row : Row) (ops : List TableOp) : Row :=
  { row with status := lastStatus row.watch row.status ops }

/-- No change removes the row. -/
def Stays (row : Row) (ops : List TableOp) : Prop :=
  ∀ servername, .remove servername ∈ ops → rowNamed servername row = false

theorem rowNamed_setRow (servername : StdString) (watch : Nat) (status : QString) (row : Row) :
    rowNamed servername (setRow watch status row) = rowNamed servername row := by
  unfold setRow
  split <;> rfl

/-- A removal does not look at statuses. -/
theorem survivors_setRow (servername : StdString) (watch : Nat) (status : QString)
    (rows : List Row) :
    survivors (rowNamed servername) (rows.map (setRow watch status)) =
      (survivors (rowNamed servername) rows).map (setRow watch status) := by
  unfold survivors
  rw [List.filter_map]
  congr 1
  refine List.filter_congr fun row _ => ?_
  rw [Function.comp_apply, rowNamed_setRow]

theorem after_write (row : Row) (watch : Nat) (status : QString) (ops : List TableOp) :
    after row (.write watch status :: ops) = after (setRow watch status row) ops := by
  unfold after setRow
  rw [lastStatus]
  split <;> rfl

theorem stays_write (row : Row) (watch : Nat) (status : QString) (ops : List TableOp) :
    Stays row (.write watch status :: ops) ↔ Stays (setRow watch status row) ops := by
  constructor
  · intro h servername hmem
    rw [rowNamed_setRow]
    exact h servername (List.mem_cons_of_mem _ hmem)
  · intro h servername hmem
    have hrest := h servername ((List.mem_cons.mp hmem).resolve_left TableOp.noConfusion)
    rwa [rowNamed_setRow] at hrest

theorem stays_start (row new : Row) (ops : List TableOp) :
    Stays row (.start new :: ops) ↔ Stays row ops := by
  constructor
  · exact fun h servername hmem => h servername (List.mem_cons_of_mem _ hmem)
  · exact fun h servername hmem =>
      h servername ((List.mem_cons.mp hmem).resolve_left TableOp.noConfusion)

theorem stays_remove (row : Row) (n : StdString) (ops : List TableOp) :
    Stays row (.remove n :: ops) ↔ rowNamed n row = false ∧ Stays row ops := by
  constructor
  · exact fun h => ⟨h n (List.mem_cons_self ..),
      fun servername hmem => h servername (List.mem_cons_of_mem _ hmem)⟩
  · rintro ⟨hn, h⟩ servername hmem
    rcases List.mem_cons.mp hmem with he | hmem
    · rw [TableOp.remove.inj he]
      exact hn
    · exact h servername hmem

theorem mem_apply_remove {n : StdString} {rows : List Row} {row : Row} :
    row ∈ apply rows (.remove n) ↔ row ∈ rows ∧ rowNamed n row = false := by
  simp [apply, survivors]

theorem exists_suffix_cons {P : Row → List TableOp → Prop} (op : TableOp) (ops : List TableOp) :
    (∃ r rest, .start r :: rest <:+ op :: ops ∧ P r rest) ↔
      (∃ r, op = .start r ∧ P r ops) ∨ ∃ r rest, .start r :: rest <:+ ops ∧ P r rest := by
  constructor
  · rintro ⟨r, rest, hsuffix, hP⟩
    rcases List.suffix_cons_iff.mp hsuffix with heq | hsuffix
    · obtain ⟨rfl, rfl⟩ := List.cons.inj heq
      exact Or.inl ⟨r, rfl, hP⟩
    · exact Or.inr ⟨r, rest, hsuffix, hP⟩
  · rintro (⟨r, rfl, hP⟩ | ⟨r, rest, hsuffix, hP⟩)
    · exact ⟨r, ops, List.suffix_refl _, hP⟩
    · exact ⟨r, rest, hsuffix.trans (List.suffix_cons _ _), hP⟩

/-- The rows after the changes: those that stay of the rows before them and of the rows
that they start. -/
theorem mem_foldl_apply (ops : List TableOp) (rows : List Row) (row : Row) :
    row ∈ ops.foldl apply rows ↔
      (∃ r ∈ rows, Stays r ops ∧ row = after r ops) ∨
        ∃ r rest, .start r :: rest <:+ ops ∧ Stays r rest ∧ row = after r rest := by
  induction ops generalizing rows with
  | nil =>
    constructor
    · exact fun hr => Or.inl ⟨row, hr, fun _ hmem => absurd hmem List.not_mem_nil, rfl⟩
    · rintro (⟨r, hr, -, rfl⟩ | ⟨r, rest, hsuffix, -⟩)
      · exact hr
      · exact absurd (List.suffix_nil.mp hsuffix) (List.cons_ne_nil _ _)
  | cons op ops ih =>
    rw [List.foldl_cons, ih, exists_suffix_cons, ← or_assoc]
    refine or_congr_left ?_
    cases op with
    | start new =>
      constructor
      · rintro ⟨r, hr, hstays, hrow⟩
        rcases List.mem_append.mp hr with hr | hr
        · exact Or.inl ⟨r, hr, (stays_start r new ops).mpr hstays, hrow⟩
        · obtain rfl := List.mem_singleton.mp hr
          exact Or.inr ⟨r, rfl, hstays, hrow⟩
      · rintro (⟨r, hr, hstays, hrow⟩ | ⟨r, heq, hstays, hrow⟩)
        · exact ⟨r, List.mem_append_left _ hr, (stays_start r new ops).mp hstays, hrow⟩
        · obtain rfl := TableOp.start.inj heq
          exact ⟨new, List.mem_append_right _ (List.mem_singleton_self _), hstays, hrow⟩
    | remove n =>
      constructor
      · rintro ⟨r, hr, hstays, hrow⟩
        obtain ⟨hr, hname⟩ := mem_apply_remove.mp hr
        exact Or.inl ⟨r, hr, (stays_remove r n ops).mpr ⟨hname, hstays⟩, hrow⟩
      · rintro (⟨r, hr, hstays, hrow⟩ | ⟨r, heq, -⟩)
        · obtain ⟨hname, hrest⟩ := (stays_remove r n ops).mp hstays
          exact ⟨r, mem_apply_remove.mpr ⟨hr, hname⟩, hrest, hrow⟩
        · cases heq
    | write watch status =>
      constructor
      · rintro ⟨r', hr', hstays, hrow⟩
        obtain ⟨r, hr, rfl⟩ := List.mem_map.mp hr'
        exact Or.inl ⟨r, hr, (stays_write r watch status ops).mpr hstays,
          hrow.trans (after_write r watch status ops).symm⟩
      · rintro (⟨r, hr, hstays, hrow⟩ | ⟨r, heq, -⟩)
        · exact ⟨_, List.mem_map_of_mem hr, (stays_write r watch status ops).mp hstays,
            hrow.trans (after_write r watch status ops)⟩
        · cases heq

end TableOp

/-- The table as the handler in progress leaves it, but for the statuses still to be
written. -/
def State.rows (s : State) : List Row :=
  match s.ui.removed with
  | some n => survivors (rowNamed (toStdString n)) s.model
  | none => s.listed

def State.writes (s : State) (i : Nat) (status : QString) : List TableOp :=
  s.model[i]?.toList.map fun row => .write row.watch status

/-- A start and a removal count when they are called, a status when it is written. -/
def tableOps (s : State) : Event → List TableOp
  | .addServer _ _ | .doubleClick _ _ _ _ | .doubleClickThrows _ _ => []
  | .startWatch cur fileloc friendlyName out =>
    (s.starting (.startWatch cur fileloc friendlyName out)).toList.map .start
  | .removeServer cur => [.remove (toStdString (splitEntry (s.currentText cur)).1)]
  | .ui _ =>
    match s.ui with
    | .pausing r => s.writes r paused
    | .resuming r | .reconnected r => s.writes r active
    | _ => []
  | .watcher t _ =>
    match (s.watchers[t]?).bind (·.pc.marks) with
    | some i => s.writes i connectionError
    | none => []

theorem setStatus_append {model : List Row} {i : Nat} (hi : i < model.length) (l : List Row)
    (v : QString) : setStatus (model ++ l) i v = setStatus model i v ++ l := by
  have hi' : i < (model ++ l).length := by
    rw [List.length_append]
    omega
  apply List.ext_getElem?
  intro j
  rw [getElem?_setStatus hi', List.getElem?_append, List.getElem?_append,
    length_setStatus_of_lt hi, getElem?_setStatus hi]
  by_cases hj : j < model.length
  · simp only [if_pos hj]
  · rw [if_neg (by omega), if_neg hj, if_neg hj]

/-- Of rows with different cells one is found by its cell. -/
theorem setStatus_eq_apply {model : List Row} (h : (model.map Row.watch).Nodup) {i : Nat}
    {row : Row} (hi : model[i]? = some row) (v : QString) :
    setStatus model i v = TableOp.apply model (.write row.watch v) := by
  obtain ⟨hlt, -⟩ := List.getElem?_eq_some_iff.mp hi
  apply List.ext_getElem?
  intro j
  rw [getElem?_setStatus hlt, TableOp.apply, List.getElem?_map]
  cases hj : model[j]? with
  | none => split <;> rfl
  | some r =>
    have hsame : r.watch = row.watch ↔ i = j := by
      have hinj := List.getElem?_inj (j := j) (by rw [List.length_map]; exact hlt) h
      rw [List.getElem?_map, List.getElem?_map, hi, hj, Option.map_some, Option.map_some,
        Option.some.injEq] at hinj
      rw [← hinj]
      exact eq_comm
    simp only [Option.map_some, TableOp.setRow, hsame]
    split <;> rfl

theorem rows_same {s s' : State} (hr : s'.ui.removed = s.ui.removed)
    (hp : s'.ui.pending = s.ui.pending) (hm : s'.model = s.model) : s'.rows = s.rows := by
  rw [State.rows, State.rows, hr, State.listed, State.listed, hp, hm]

/-- A status is written into the row as it will be. -/
theorem rows_write {s t : State} (h : Consistent s) (hr : t.ui.removed = s.ui.removed)
    (hp : t.ui.pending = s.ui.pending) {i : Nat} (hlt : i < s.model.length) {v : QString}
    (hm : t.model = setStatus s.model i v) :
    t.rows = (s.writes i v).foldl TableOp.apply s.rows := by
  obtain ⟨row, hi⟩ : ∃ row, s.model[i]? = some row := ⟨_, List.getElem?_eq_getElem hlt⟩
  have hnodup := h.linked.nodup
  rw [State.writes, hi, State.rows, hr, State.rows, hm, Option.toList_some, List.map_singleton,
    List.foldl_cons, List.foldl_nil]
  cases s.ui.removed with
  | none =>
    have hlisted : s.listed[i]? = some row := (List.getElem?_append_left hlt).trans hi
    rw [← setStatus_eq_apply hnodup hlisted, State.listed, State.listed, hp, hm,
      setStatus_append hlt]
  | some n =>
    rw [State.listed, List.map_append] at hnodup
    rw [setStatus_eq_apply (List.Nodup.of_append_left hnodup) hi]
    exact TableOp.survivors_setRow _ _ _ _

/-- At its end the loop over the rows has left none of the name. -/
theorem survivors_rowsDone {s : State} {n : QString} {i : Nat} (h : Aligned s)
    (hui : s.ui = .removeRows n i) (hr : s.model[i]? = none) :
    survivors (rowNamed (toStdString n)) s.model = s.model := by
  simp only [Aligned, hui] at h
  refine survivors_of_done (i := i) (fun row hmem => ?_) hr
  rw [← named_thread]
  refine h.2 row.thread ?_
  rw [← List.map_take]
  exact List.mem_map_of_mem hmem

/-- A step of the handler in progress. -/
theorem rows_ui {s s' : State} {ok : Bool} (h : Consistent s) (hin : InTable s (.ui ok))
    (hm : Move s (.ui ok) s') :
    s'.rows = (tableOps s (.ui ok)).foldl TableOp.apply s.rows := by
  cases hm with
  | quiet _ ws hui he => cases he
  | crashed _ row r hui he => cases he
  | appended _ row hui => simp [State.rows, State.listed, tableOps, hui, Ui.removed, Ui.pending]
  | threadErased _ n i thread hui | threadKept _ n i thread hui | threadsDone _ n i hui =>
    simp [State.rows, tableOps, hui, Ui.removed]
  | rowErased _ n i row hui hr hname =>
    have hnamed : rowNamed (toStdString n) row = true := beq_iff_eq.mpr hname
    simp [State.rows, tableOps, hui, Ui.removed, survivors_eraseIdx hr hnamed]
  | rowKept _ n i row hui => simp [State.rows, tableOps, hui, Ui.removed]
  | rowsDone _ n i hui hr =>
    simp [State.rows, State.listed, tableOps, hui, Ui.removed, Ui.pending,
      survivors_rowsDone h.aligned hui hr]
  | readActive _ r ip hui | readPaused _ r ip hui | readError _ r ip hui | locked _ r thread hui
  | unlocked _ r thread hui | readied r ip thread hui | respawned r ip thread hui =>
    simp [State.rows, State.listed, tableOps, hui, Ui.removed, Ui.pending]
  | gaveUp _ ws hui =>
    rcases hui with ⟨r, hui, -⟩ | ⟨r, hui, -⟩ | ⟨r, ip, hui⟩ | ⟨r, ip, hui⟩ <;>
      simp [State.rows, State.listed, tableOps, hui, Ui.removed, Ui.pending]
  | paused _ r hui =>
    have hrows := rows_write (t := { s with model := setStatus s.model r paused, ui := .idle }) h
      (by rw [hui]; rfl) (by rw [hui]; rfl) (hin r (by rw [State.written, hui]; rfl)) rfl
    simpa [tableOps, hui] using hrows
  | activated _ r hui =>
    have hlt : r < s.model.length := by
      rcases hui with hui | hui <;> exact hin r (by rw [State.written, hui]; rfl)
    have hrows := rows_write (t := { s with model := setStatus s.model r active, ui := .idle }) h
      (by rcases hui with hui | hui <;> rw [hui] <;> rfl)
      (by rcases hui with hui | hui <;> rw [hui] <;> rfl) hlt rfl
    rcases hui with hui | hui <;> simpa [tableOps, hui] using hrows

/-- Every step does to the table as it will be what `tableOps` says. -/
theorem rows_step {s s' : State} {e : Event} (h : Consistent s) (hin : InTable s e)
    (hs : step s e = some s') : s'.rows = (tableOps s e).foldl TableOp.apply s.rows := by
  cases e with
  | ui ok => exact rows_ui h hin (move_of_step hs)
  | addServer servername serverip =>
    cases move_of_step hs with
    | quiet => rfl
    | listed => rfl
    | crashed _ row r hui he => cases he
  | doubleClick row column opened answered =>
    cases move_of_step hs with
    | quiet => rfl
    | crashed _ _ r hui => simp [State.rows, State.listed, tableOps, hui, Ui.removed, Ui.pending]
    | clicked _ _ _ r ip hui =>
      simp [State.rows, State.listed, tableOps, hui, Ui.removed, Ui.pending]
  | doubleClickThrows row column =>
    cases move_of_step hs with
    | quiet => rfl
    | crashed _ _ r hui => simp [State.rows, State.listed, tableOps, hui, Ui.removed, Ui.pending]
    | escaped _ _ hui => simp [State.rows, State.listed, tableOps, hui, Ui.removed, Ui.pending]
  | removeServer cur =>
    simp only [step] at hs
    split at hs
    · rename_i hg
      obtain rfl := Option.some.inj hs
      simp [State.rows, State.listed, State.removeServer, tableOps, TableOp.apply, hg.1, Ui.removed,
        Ui.pending]
    · cases hs
  | startWatch cur fileloc friendlyName out =>
    rcases starting_cases hin hs with
      ⟨hnone, -⟩ | ⟨cur', fileloc', friendlyName', parts, hui, -, hstart, rfl⟩
    · rw [tableOps, hnone]
      cases move_of_step hs with
      | quiet => rfl
      | unstarted => rfl
      | started _ _ _ parts hui hreq => simp [State.starting, hreq] at hnone
      | crashed _ row r hui he => cases he
    · rw [tableOps, hstart]
      simp [State.rows, State.listed, started, TableOp.apply, hui, Ui.removed, Ui.pending]
  | watcher t reply =>
    obtain ⟨w, k, hw, hk, rfl⟩ := step_watcher hs
    have hmark := mark_eq hk
    rw [tableOps, hw, Option.bind_some, ← hmark]
    cases hi : k.mark with
    | none => exact rows_same rfl rfl (model_of_no_mark hi)
    | some i =>
      exact rows_write (t := s.advance t w k) h rfl rfl (mark_inTable hin hw hk i hi)
        (model_of_mark hi)

/-- In every state of such a run the table, as the handler in progress leaves it, is what
the changes so far make of an empty one. -/
theorem rows_of_history {s : State} {es : List Event} (h : Steps step InTable start es)
    (hr : run step start es = some s) :
    s.rows = (history step tableOps start es).foldl TableOp.apply [] :=
  h.history_foldl (fun _ _ _ h hin hs => Consistent.step h hin hs)
    (fun _ _ _ h hin hs => rows_step h hin hs) consistent_start hr

/-- Between two handlers of a run without stale `setData` the table has, in the order of
their starts, the rows that were started and not removed since, each with the status
written last, as if every handler had made its change at once. -/
theorem table_tells_history {s : State} {es : List Event} (h : Steps step InTable start es)
    (hr : run step start es = some s) (hui : s.ui = .idle) :
    s.model = (history step tableOps start es).foldl TableOp.apply [] ∧
      ∀ row, row ∈ s.model ↔
        ∃ r rest, .start r :: rest <:+ history step tableOps start es ∧
          TableOp.Stays r rest ∧ row = TableOp.after r rest := by
  have hmodel : s.model = (history step tableOps start es).foldl TableOp.apply [] := by
    rw [← rows_of_history h hr]
    simp [State.rows, State.listed, hui, Ui.removed, Ui.pending]
  refine ⟨hmodel, fun row => ?_⟩
  rw [hmodel, TableOp.mem_foldl_apply]
  refine or_iff_right ?_
  rintro ⟨r, hr, -⟩
  cases hr

/-- A watch that failed and was reconnected. -/
theorem table_tells_history_reconnected :
    ∃ s, run step start failsAndReconnects = some s ∧ s.ui = .idle ∧
      s.model = (history step tableOps start failsAndReconnects).foldl TableOp.apply [] ∧
      ∀ row, row ∈ s.model ↔
        ∃ r rest, .start r :: rest <:+ history step tableOps start failsAndReconnects ∧
          TableOp.Stays r rest ∧ row = TableOp.after r rest :=
  ⟨_, rfl, rfl, table_tells_history (by decide) rfl rfl⟩

end Errifier.Client
