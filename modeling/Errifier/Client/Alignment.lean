import Errifier.Client.Rows
import Mathlib.Data.List.InsertIdx

/-!
# Row `i` of the table and entry `i` of `threadList`

No key links the two lists: they are extended by separate calls and shrunk by
separate loops. Between the first and the last step of a removal they agree on
the servers that stay, and what each loop has walked past is clean; in every
other state the table with the row about to be appended is the thread list.
-/
namespace Errifier.Client

set_option autoImplicit false

open Errifier.Text Errifier.Machine
open WorkerThread (named)

/-- The entry of `threadList` that belongs to a row. -/
def Row.thread (row : Row) : ThreadWrap := ⟨toStdString row.servername, row.watch⟩

/-- The row that `on_tableView_doubleClicked` is working on. -/
def Ui.rowid : Ui → Option Nat
  | .clicked r _ | .lock r | .pausing r | .unlock r | .resuming r | .reconnect r _
  | .respawn r _ | .reconnected r => some r
  | _ => none

def Aligned (s : State) : Prop :=
  match s.ui with
  | .removeThreads n i =>
    s.serv.threadList.Sublist (s.model.map Row.thread) ∧
    survivors (named (toStdString n)) s.serv.threadList =
      survivors (named (toStdString n)) (s.model.map Row.thread) ∧
    ∀ thread ∈ s.serv.threadList.take i, named (toStdString n) thread = false
  | .removeRows n i =>
    s.serv.threadList = survivors (named (toStdString n)) (s.model.map Row.thread) ∧
    ∀ thread ∈ (s.model.map Row.thread).take i, named (toStdString n) thread = false
  | .crashed => False
  | _ => s.serv.threadList = s.listed.map Row.thread ∧ ∀ r ∈ s.ui.rowid, r < s.model.length

/-- Every listed row's server has an address. -/
def Mapped (s : State) : Prop := ∀ row ∈ s.listed, ∃ ip, s.ipnamemap.lookup row.servername = some ip

theorem mapped_start : Mapped start := by
  intro row hr
  cases hr

theorem Mapped.step {s s' : State} {e : Event} (h : Mapped s) (hC : InTable s e)
    (hm : Move s e s') : Mapped s' := by
  intro row' hr'
  rcases hm.mem_listed hC hr' with ⟨row, hr, hp⟩ | ⟨cur, fileloc, friendlyName, parts, -, -, -, rfl, rfl⟩
  · obtain ⟨ip, hip⟩ := h row hr
    rw [(Row.fields_of_plain hp).1]
    exact ⟨ip, hm.lookup hip⟩
  · exact ⟨_, lookup_insertIp_self _ _ _⟩

theorem thread_of_plain (rows : List Row) :
    rows.map Row.thread = (rows.map Row.plain).map Row.thread := by
  rw [List.map_map]
  rfl

theorem map_thread_setStatus {model : List Row} {i : Nat} (h : i < model.length) (v : QString) :
    (setStatus model i v).map Row.thread = model.map Row.thread :=
  map_setStatus Row.thread (fun _ _ => rfl) h v

/-- What a watcher writes into a row that is there is no part of the alignment. -/
theorem aligned_advance {s : State} (t : Nat) (w : Watcher) {k : Effect} (h : Aligned s)
    (hmark : ∀ i ∈ k.mark, i < s.model.length) : Aligned (s.advance t w k) := by
  have hplain := plain_advance t w hmark
  have ht : (s.advance t w k).serv.threadList = s.serv.threadList := rfl
  have hthreads : (s.advance t w k).model.map Row.thread = s.model.map Row.thread := by
    rw [thread_of_plain, hplain, ← thread_of_plain]
  have hl : (s.advance t w k).listed.map Row.thread = s.listed.map Row.thread := by
    rw [State.listed, State.listed, List.map_append, List.map_append, hthreads]
    rfl
  unfold Aligned at h ⊢
  rw [ui_advance, ht, hl, hthreads, length_of_map hplain]
  exact h

theorem Aligned.idle {s : State} (h : Aligned s) (hui : s.ui = .idle) :
    s.serv.threadList = s.model.map Row.thread := by
  simp only [Aligned, hui, State.listed, Ui.pending, List.append_nil] at h
  exact h.1

/-- In a click handler the two lists agree and the row is there. -/
theorem Aligned.clicked {s : State} {r : Nat} (h : Aligned s) (hr : s.ui.rowid = some r) :
    s.serv.threadList = s.model.map Row.thread ∧ r < s.model.length := by
  unfold Aligned at h
  cases hui : s.ui with
  | clicked | lock | pausing | unlock | resuming | reconnect | respawn | reconnected =>
    rw [hui] at h hr
    simp only [State.listed, hui, Ui.pending, List.append_nil] at h
    exact ⟨h.1, h.2 r hr⟩
  | _ => rw [hui] at hr; cases hr

/-- Any state in which no handler removes or appends, and the row that is worked
on, if any, is in the table. -/
theorem aligned_of_eq {s : State} (ht : s.serv.threadList = s.model.map Row.thread)
    (hp : s.ui = .idle ∨ ∃ r, s.ui.rowid = some r ∧ r < s.model.length) : Aligned s := by
  unfold Aligned
  rcases hp with hui | ⟨r, hr, hlt⟩
  · rw [hui]
    refine ⟨?_, fun r hr => ?_⟩
    · rw [ht, listed_of_pending (by rw [hui]; rfl)]
    · cases hr
  · cases hui : s.ui with
    | clicked | lock | pausing | unlock | resuming | reconnect | respawn | reconnected =>
      rw [hui] at hr
      refine ⟨?_, fun r' hr' => ?_⟩
      · rw [ht, listed_of_pending (by rw [hui]; rfl)]
      · obtain rfl := Option.some.inj (hr.symm.trans hr')
        exact hlt
    | _ => rw [hui] at hr; cases hr

theorem Aligned.started {s : State} (h : Aligned s) (hui : s.ui = .idle) (cur : Nat)
    (fileloc friendlyName servername serverip : QString) :
    Aligned (Client.started s cur fileloc friendlyName servername serverip) := by
  have ht := h.idle hui
  refine ⟨?_, fun r hr => by cases hr⟩
  rw [listed_started, List.map_append, ← ht]
  rfl

theorem Aligned.removing {s : State} (h : Aligned s) (hui : s.ui = .idle) (cur : Nat) :
    Aligned (s.removeServer cur) := by
  have ht : (s.removeServer cur).serv.threadList = (s.removeServer cur).model.map Row.thread :=
    h.idle hui
  refine ⟨?_, ?_, fun thread hm => ?_⟩
  · rw [ht]
  · rw [ht]
  · rw [List.take_zero] at hm
    cases hm

theorem Aligned.appended {s : State} {row : Row} (h : Aligned s) (hui : s.ui = .append row) :
    Aligned { s with model := s.model ++ [row], ui := .idle } := by
  refine aligned_of_eq ?_ (Or.inl rfl)
  simp only [Aligned, hui, State.listed, Ui.pending] at h
  exact h.1

theorem Aligned.threadErased {s : State} {n : QString} {i : Nat} {thread : ThreadWrap}
    (h : Aligned s) (hui : s.ui = .removeThreads n i) (ht : s.serv.threadList[i]? = some thread)
    (hname : named (toStdString n) thread = true) (cells : List Int) :
    Aligned { s with serv := ⟨s.serv.threadList.eraseIdx i, cells⟩, ui := .removeThreads n i } := by
  simp only [Aligned, hui] at h ⊢
  obtain ⟨hsub, heq, hclean⟩ := h
  refine ⟨(List.eraseIdx_sublist _ _).trans hsub, ?_, ?_⟩
  · rw [survivors_eraseIdx ht hname, heq]
  · rw [take_eraseIdx]
    exact hclean

theorem Aligned.threadKept {s : State} {n : QString} {i : Nat} {thread : ThreadWrap}
    (h : Aligned s) (hui : s.ui = .removeThreads n i) (ht : s.serv.threadList[i]? = some thread)
    (hname : named (toStdString n) thread = false) :
    Aligned { s with ui := .removeThreads n (i + 1) } := by
  simp only [Aligned, hui] at h ⊢
  obtain ⟨hsub, heq, hclean⟩ := h
  exact ⟨hsub, heq, clean_take_succ hclean ht hname⟩

theorem Aligned.threadsDone {s : State} {n : QString} {i : Nat} (h : Aligned s)
    (hui : s.ui = .removeThreads n i) (ht : s.serv.threadList[i]? = none) :
    Aligned { s with ui := .removeRows n 0 } := by
  simp only [Aligned, hui] at h ⊢
  obtain ⟨-, heq, hclean⟩ := h
  rw [survivors_of_done hclean ht] at heq
  exact ⟨heq, fun thread hm => by cases hm⟩

theorem Aligned.rowErased {s : State} {n : QString} {i : Nat} {row : Row} (h : Aligned s)
    (hui : s.ui = .removeRows n i) (hr : s.model[i]? = some row)
    (hname : named (toStdString n) row.thread = true) :
    Aligned { s with model := s.model.eraseIdx i, ui := .removeRows n i } := by
  simp only [Aligned, hui] at h ⊢
  obtain ⟨heq, hclean⟩ := h
  have ht : (s.model.map Row.thread)[i]? = some row.thread := by rw [List.getElem?_map, hr]; rfl
  rw [← List.eraseIdx_map, survivors_eraseIdx ht hname, take_eraseIdx]
  exact ⟨heq, hclean⟩

theorem Aligned.rowKept {s : State} {n : QString} {i : Nat} {row : Row} (h : Aligned s)
    (hui : s.ui = .removeRows n i) (hr : s.model[i]? = some row)
    (hname : named (toStdString n) row.thread = false) :
    Aligned { s with ui := .removeRows n (i + 1) } := by
  simp only [Aligned, hui] at h ⊢
  obtain ⟨heq, hclean⟩ := h
  have ht : (s.model.map Row.thread)[i]? = some row.thread := by rw [List.getElem?_map, hr]; rfl
  exact ⟨heq, clean_take_succ hclean ht hname⟩

theorem Aligned.rowsDone {s : State} {n : QString} {i : Nat} (h : Aligned s)
    (hui : s.ui = .removeRows n i) (hr : s.model[i]? = none) : Aligned { s with ui := .idle } := by
  simp only [Aligned, hui] at h
  obtain ⟨heq, hclean⟩ := h
  have ht : (s.model.map Row.thread)[i]? = none := by rw [List.getElem?_map, hr]; rfl
  rw [survivors_of_done hclean ht] at heq
  exact aligned_of_eq heq (Or.inl rfl)

/-- Between two steps of a click handler. -/
theorem Aligned.next {s s' : State} {r : Nat} (h : Aligned s) (hr : s.ui.rowid = some r)
    (ht : s'.serv.threadList = s.serv.threadList)
    (hm : s'.model.map Row.thread = s.model.map Row.thread)
    (hui : s'.ui = .idle ∨ s'.ui.rowid = some r) : Aligned s' := by
  obtain ⟨heq, hlt⟩ := h.clicked hr
  have hlen := length_of_map hm
  refine aligned_of_eq (by rw [ht, hm, heq]) ?_
  rcases hui with hui | hui
  · exact Or.inl hui
  · exact Or.inr ⟨r, hui, by omega⟩

theorem named_iff (n : QString) (thread : ThreadWrap) :
    named (toStdString n) thread = true ↔ toStdString n = thread.servername := beq_iff_eq

theorem named_eq_false {n : QString} {thread : ThreadWrap}
    (h : toStdString n ≠ thread.servername) : named (toStdString n) thread = false :=
  beq_eq_false_iff_ne.mpr h

theorem Aligned.step {s s' : State} {e : Event} (h : Aligned s) (hmap : Mapped s)
    (hC : InTable s e) (hm : Move s e s') : Aligned s' := by
  have ofIdle : ∀ {t : State}, s.ui = .idle → t.serv.threadList = s.serv.threadList →
      t.model = s.model → t.ui = .idle → Aligned t := by
    intro t hui ht hmod hui'
    exact aligned_of_eq (by rw [ht, hmod, h.idle hui]) (Or.inl hui')
  cases hm with
  | quiet _ ws hui | listed servername serverip entry hui
  | unstarted cur fileloc friendlyName out parts extra ws hui => exact ofIdle hui rfl rfl hui
  | removing cur hui hsel => exact h.removing hui cur
  | started cur fileloc friendlyName parts hui hreq => exact h.started hui _ _ _ _ _
  | crashed _ row r hui _ hr hip =>
    obtain ⟨ip, hsome⟩ := hmap r (mem_listed (List.mem_of_getElem? hr))
    rw [hip] at hsome
    cases hsome
  | escaped row column hui =>
    have hlist : s.serv.threadList = (s.model ++ []).map Row.thread := by
      rw [List.append_nil, h.idle hui]
    exact ⟨hlist, fun r hr => by cases hr⟩
  | clicked row opened answered r serverip hui hr hip =>
    obtain ⟨hlt, -⟩ := List.getElem?_eq_some_iff.mp hr
    exact aligned_of_eq (h.idle hui) (Or.inr ⟨row, rfl, hlt⟩)
  | appended ok row hui => exact h.appended hui
  | threadErased ok n i thread hui ht hname =>
    exact h.threadErased hui ht ((named_iff n thread).mpr hname) _
  | threadKept ok n i thread hui ht hname => exact h.threadKept hui ht (named_eq_false hname)
  | threadsDone ok n i hui ht => exact h.threadsDone hui ht
  | rowErased ok n i row hui hr hname =>
    exact h.rowErased hui hr ((named_iff n row.thread).mpr hname.symm)
  | rowKept ok n i row hui hr hname => exact h.rowKept hui hr (named_eq_false fun he => hname he.symm)
  | rowsDone ok n i hui hr => exact h.rowsDone hui hr
  | readActive ok r ip hui | readPaused ok r ip hui | readError ok r ip hui | locked ok r thread hui
  | unlocked ok r thread hui | readied r ip thread hui | respawned r ip thread hui =>
    exact h.next (by rw [hui]; rfl) rfl rfl (Or.inr rfl)
  | gaveUp ok ws hui =>
    rcases hui with ⟨r, hui, -⟩ | ⟨r, hui, -⟩ | ⟨r, ip, hui⟩ | ⟨r, ip, hui⟩
    all_goals exact h.next (r := r) (by rw [hui]; rfl) rfl rfl (Or.inl rfl)
  | paused ok r hui =>
    have hr : s.ui.rowid = some r := by rw [hui]; rfl
    exact h.next hr rfl (map_thread_setStatus (h.clicked hr).2 _) (Or.inl rfl)
  | activated ok r hui =>
    have hr : s.ui.rowid = some r := by rcases hui with hui | hui <;> rw [hui] <;> rfl
    exact h.next hr rfl (map_thread_setStatus (h.clicked hr).2 _) (Or.inl rfl)
  | watched t reply w k hw hk => exact aligned_advance t w h (mark_inTable hC hw hk)

/-- The watcher reads, announces and names what the row shows. -/
def WatchArgs.For (a : WatchArgs) (row : Row) : Prop :=
  a.filename = toStdString row.fileloc ∧ a.friendlyname = toStdString row.friendlyName ∧
    a.servername = toStdString row.servername

/-- No two listed rows share a run-state cell, every row has a watcher on its
cell, and all of them were started with the row's data. -/
structure Linked (s : State) : Prop where
  fresh : ∀ row ∈ s.listed, row.watch < s.serv.cells.length
  bound : ∀ w ∈ s.watchers, w.args.runstate < s.serv.cells.length
  nodup : (s.listed.map Row.watch).Nodup
  watched : ∀ row ∈ s.listed, ∃ w ∈ s.watchers, w.args.runstate = row.watch
  own : ∀ row ∈ s.listed, ∀ w ∈ s.watchers, w.args.runstate = row.watch → w.args.For row

theorem linked_start : Linked start := by
  constructor
  · intro row hr; cases hr
  · intro w hw; cases hw
  · exact List.nodup_nil
  · intro row hr; cases hr
  · intro row hr; cases hr

theorem map_watch_plain (rows : List Row) :
    rows.map Row.watch = (rows.map Row.plain).map Row.watch := by
  rw [List.map_map]
  rfl

/-- A cell belongs to one listed row. -/
theorem Linked.unique {s : State} (h : Linked s) {a b : Row} (ha : a ∈ s.listed)
    (hb : b ∈ s.listed) (hw : a.watch = b.watch) : a = b :=
  List.inj_on_of_nodup_map h.nodup ha hb hw

theorem WatchArgs.For.of_plain {a : WatchArgs} {row row' : Row} (h : a.For row)
    (hp : row'.plain = row.plain) : a.For row' := by
  obtain ⟨hserver, hfile, hfriendly, -⟩ := Row.fields_of_plain hp
  unfold WatchArgs.For at h ⊢
  rw [hserver, hfile, hfriendly]
  exact h

/-- In a click handler entry `r` of `threadList` is that of row `r`. -/
theorem row_of_thread {s : State} {r : Nat} {thread : ThreadWrap} (h : Aligned s)
    (hui : s.ui.rowid = some r) (ht : s.serv.threadList[r]? = some thread) :
    ∃ row, s.model[r]? = some row ∧ row.thread = thread := by
  obtain ⟨heq, -⟩ := h.clicked hui
  rw [heq, List.getElem?_map] at ht
  exact Option.map_eq_some_iff.mp ht

/-- Reconnecting row `r` starts a watcher on that row's cell with its data. -/
theorem respawned_for {s : State} {r : Nat} {serverip : QString} {thread : ThreadWrap}
    (h : Aligned s) (hui : s.ui = .respawn r serverip)
    (ht : s.serv.threadList[r]? = some thread) :
    ∃ row ∈ s.listed, thread.runstate = row.watch ∧
      (respawned s r serverip thread).args.For row := by
  obtain ⟨row, hr, rfl⟩ := row_of_thread h (by rw [hui]; rfl) ht
  refine ⟨row, mem_listed (List.mem_of_getElem? hr), rfl, ?_⟩
  simp only [WatchArgs.For, respawned, dataAt_of_getElem? hr, and_self]

theorem nodup_of_move {s s' : State} {e : Event} (h : Linked s) (hC : InTable s e)
    (hm : Move s e s') : (s'.listed.map Row.watch).Nodup := by
  rcases hm.rows hC with hsub | ⟨cur, fileloc, friendlyName, parts, hui, -, -, rfl⟩
  · rw [map_watch_plain]
    have hs := hsub.map Row.watch
    rw [← map_watch_plain s.listed] at hs
    exact h.nodup.sublist hs
  · have hl : s.listed = s.model := listed_of_pending (by rw [hui]; rfl)
    have hn := h.nodup
    have hf := h.fresh
    rw [hl] at hn hf
    rw [listed_started, List.map_append]
    refine hn.append (List.nodup_singleton _) (List.disjoint_singleton.mpr fun hmem => ?_)
    obtain ⟨row, hr, hw⟩ := List.mem_map.mp hmem
    have hlt := hf row hr
    change row.watch = s.serv.cells.length at hw
    omega

theorem own_of_move {s s' : State} {e : Event} (h : Linked s) (ha : Aligned s)
    (hC : InTable s e) (hm : Move s e s') :
    ∀ row ∈ s'.listed, ∀ w ∈ s'.watchers, w.args.runstate = row.watch → w.args.For row := by
  intro row' hr' w' hw' hcell
  rcases hm.mem_listed hC hr' with ⟨row, hr, hp⟩ | ⟨cur, fileloc, friendlyName, parts, hui, -, -, rfl, rfl⟩
  · have hwatch := (Row.fields_of_plain hp).2.2.2.1
    rw [hwatch] at hcell
    have hlt := h.fresh row hr
    refine WatchArgs.For.of_plain ?_ hp
    rcases hm.args hw' with ⟨w, hw, he⟩ | ⟨_, _, _, _, -, rfl⟩ | ⟨r, ip, thread, hui, ht, rfl⟩
    · rw [he] at hcell ⊢
      exact h.own row hr w hw hcell
    · change s.serv.cells.length = row.watch at hcell
      omega
    · obtain ⟨row₀, hr₀, hc₀, hfor⟩ := respawned_for ha hui ht
      obtain rfl := h.unique hr hr₀ (hcell.symm.trans hc₀)
      exact hfor
  · rcases hm.args hw' with ⟨w, hw, he⟩ | ⟨_, _, _, _, hs, rfl⟩ | ⟨r, ip, thread, hui', ht, rfl⟩
    · have hlt := h.bound w hw
      rw [he] at hcell
      change w.args.runstate = s.serv.cells.length at hcell
      omega
    · have hrow := congrArg State.ui hs
      simp only [Client.started, newRow, Ui.append.injEq, Row.mk.injEq] at hrow
      obtain ⟨hserver, hfile, hfriendly, -⟩ := hrow
      refine ⟨?_, ?_, ?_⟩
      · exact congrArg toStdString hfile.symm
      · exact congrArg toStdString hfriendly.symm
      · exact congrArg toStdString hserver.symm
    · rw [hui] at hui'
      cases hui'

theorem Linked.step {s s' : State} {e : Event} (h : Linked s) (ha : Aligned s)
    (hC : InTable s e) (hm : Move s e s') : Linked s' := by
  have hlen := hm.cells_length
  constructor
  · intro row' hr'
    rcases hm.mem_listed hC hr' with ⟨row, hr, hp⟩ | ⟨cur, fileloc, friendlyName, parts, -, -, -, rfl, rfl⟩
    · have hlt := h.fresh row hr
      rw [(Row.fields_of_plain hp).2.2.2.1]
      omega
    · simp [newRow, Client.started]
  · intro w' hw'
    rcases hm.args hw' with ⟨w, hw, he⟩ | ⟨_, _, _, _, rfl, rfl⟩ | ⟨r, ip, thread, hui, ht, rfl⟩
    · have hlt := h.bound w hw
      rw [he]
      omega
    · simp [Client.started]
    · obtain ⟨row, hr, hc, -⟩ := respawned_for ha hui ht
      have hlt := h.fresh row hr
      change thread.runstate < _
      omega
  · exact nodup_of_move h hC hm
  · intro row' hr'
    rcases hm.mem_listed hC hr' with ⟨row, hr, hp⟩ | ⟨cur, fileloc, friendlyName, parts, -, -, -, rfl, rfl⟩
    · obtain ⟨w, hw, hc⟩ := h.watched row hr
      obtain ⟨w', hw', he⟩ := hm.kept hw
      exact ⟨w', hw', by rw [he, hc, (Row.fields_of_plain hp).2.2.2.1]⟩
    · exact ⟨_, List.mem_append_right _ (List.mem_singleton_self _), rfl⟩
  · exact own_of_move h ha hC hm

/-- What holds as long as no `setData` goes through an index past the end of the table. -/
structure Consistent (s : State) : Prop where
  mapped : Mapped s
  aligned : Aligned s
  linked : Linked s

theorem consistent_start : Consistent start :=
  ⟨mapped_start, aligned_of_eq rfl (Or.inl rfl), linked_start⟩

theorem Consistent.step {s s' : State} {e : Event} (h : Consistent s) (hC : InTable s e)
    (hs : Client.step s e = some s') : Consistent s' := by
  have hm := move_of_step hs
  exact ⟨h.mapped.step hC hm, h.aligned.step h.mapped hC hm, h.linked.step h.aligned hC hm⟩

theorem consistent_along {es : List Event} (h : Steps step InTable start es) :
    Along step Consistent start es :=
  h.along (fun _ _ _ h hC hs => h.step hC hs) consistent_start

theorem consistent_of_reachable {s : State} (h : ReachableBy step InTable start s) :
    Consistent s :=
  h.invariant (fun _ _ _ h hC hs => h.step hC hs) consistent_start

/-- The thread started last on a run-state cell. -/
def State.latest (s : State) (cell : Nat) : Option Watcher :=
  (s.watchers.filter fun w => w.args.runstate = cell).getLast?

theorem latest_spec {s : State} {row : Row} (h : Linked s) (hr : row ∈ s.listed) :
    ∃ w, s.latest row.watch = some w ∧ w.args.For row := by
  obtain ⟨w₀, hw₀, hc₀⟩ := h.watched row hr
  have hne : (s.watchers.filter fun w => w.args.runstate = row.watch) ≠ [] :=
    List.ne_nil_of_mem (List.mem_filter.mpr ⟨hw₀, decide_eq_true hc₀⟩)
  have hm := List.mem_filter.mp (List.getLast_mem hne)
  exact ⟨_, List.getLast?_eq_some_getLast hne, h.own row hr _ hm.1 (of_decide_eq_true hm.2)⟩

/-- In every state of such a run between two handlers, row `i` and entry `i` of
`threadList` belong together, and the row's server has an address. Inside a
click handler the clicked row has an entry, so `at(rowid)` does not throw, and
`ipnamemap.find` never came to `end()`. -/
theorem rows_match_threads {es : List Event} (h : Steps step InTable start es) :
    Along step (fun s =>
      (s.ui = .idle →
        s.serv.threadList.length = s.model.length ∧
        ∀ (i : Nat) (row : Row), s.model[i]? = some row →
          ∃ thread, s.serv.threadList[i]? = some thread ∧
            thread.servername = toStdString row.servername ∧
            (∃ w, s.latest thread.runstate = some w ∧ w.args.For row) ∧
            ∃ ip, s.ipnamemap.lookup row.servername = some ip) ∧
      s.ui ≠ .crashed ∧ ∀ r ∈ s.ui.rowid, r < s.serv.threadList.length) start es := by
  refine (consistent_along h).mono fun s h => ⟨fun hui => ?_, fun hui => ?_, fun r hr => ?_⟩
  · have heq := h.aligned.idle hui
    refine ⟨by rw [heq, List.length_map], fun i row hr => ?_⟩
    have hmem : row ∈ s.listed := mem_listed (List.mem_of_getElem? hr)
    refine ⟨row.thread, ?_, rfl, latest_spec h.linked hmem, h.mapped row hmem⟩
    rw [heq, List.getElem?_map, hr]
    rfl
  · have ha := h.aligned
    rw [Aligned, hui] at ha
    exact ha
  · obtain ⟨heq, hlt⟩ := h.aligned.clicked hr
    rw [heq, List.length_map]
    exact hlt

/-- A watch is started, fails, is marked and reconnected; the user pauses it. -/
def failsAndReconnects : List Event :=
  [.startWatch 0 ['f'] ['x'] (.found .started), .watcher 0 none, .ui true,
   .watcher 0 none, .watcher 0 none, .watcher 0 none, .watcher 0 none, .watcher 0 none,
   .watcher 0 none, .watcher 0 none, .watcher 0 none, .watcher 0 none, .watcher 0 none,
   .doubleClick 0 3 true true, .ui true, .ui true, .ui true, .ui true,
   .doubleClick 0 3 true true, .ui true, .ui true, .ui true]

theorem reconnected_row_matches : ∃ s, run step start failsAndReconnects = some s ∧
    s.model.length = 1 ∧ s.serv.threadList.length = s.model.length := by
  refine ⟨_, rfl, rfl, ?_⟩
  exact (((rows_match_threads (by decide : Steps step InTable start failsAndReconnects)).last
    rfl).1 rfl).1

/-- A watch fails and has taken its index when its server is removed. -/
def marksRemoved : List Event :=
  [.startWatch 0 ['f'] ['x'] (.found .started), .ui true] ++ List.replicate 9 (.watcher 0 none) ++
  [.removeServer 0, .ui true, .ui true, .ui true, .ui true, .watcher 0 none]

theorem removed_row_returns : ∃ s s', run step start marksRemoved = some s ∧ s.ui = .idle ∧
    s.serv.threadList = [] ∧ s.model = [{ Row.blank with status := connectionError }] ∧
    step s (.doubleClick 0 3 true true) = some s' ∧ s'.ui = .crashed := by
  refine ⟨_, _, rfl, rfl, rfl, rfl, rfl, rfl⟩

end Errifier.Client
