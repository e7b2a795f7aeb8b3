import Errifier.Client.DeadWatch

/-!
# Which row a failing watcher marks

A removed watcher lives on until its pending call returns, and friendly names
are used again. Its search still marks nothing as long as no row had its name
when it began and no row is appended while it runs. Then every row is marked by
its own watcher only, so a row that shows an error has none left, and
reconnecting it starts the only one.
-/
namespace Errifier.Client

set_option autoImplicit false

open Errifier.Text Errifier.Machine

/-- The watcher's own row is in the table or about to be appended. -/
def Listed (s : State) (w : Watcher) : Prop := w.args.runstate ∈ s.listed.map Row.watch

instance (s : State) (w : Watcher) : Decidable (Listed s w) :=
  inferInstanceAs (Decidable (_ ∈ _))

theorem listed_iff {s : State} {w : Watcher} : Listed s w ↔ ∃ r, OwnsAt s w r :=
  List.mem_iff_getElem?

/-- The search can end at no row at all. -/
def Misses (model : List Row) (a : WatchArgs) : Pc → Prop
  | .errSearch rowCount i =>
    model.length ≤ rowCount ∧ i ≤ rowCount ∧ ∀ j < model.length, ¬ NameAt model a j
  | .errIndex i => model.length ≤ i
  | .errSet index => index = none
  | _ => True

theorem Misses.act {cells : List Int} {model : List Row} {a : WatchArgs} {reply : Option Int}
    {pc : Pc} {k : Effect} (h : Misses model a pc)
    (hk : startWatch cells model a reply pc = some k)
    (hfirst : pc = .errCount → ∀ j < model.length, ¬ NameAt model a j) : Misses model a k.pc := by
  cases acts_of_startWatch hk with
  | loops =>
    unfold afterLoopTest
    split <;> trivial
  | tests =>
    unfold afterRunTest
    split <;> trivial
  | replied =>
    unfold afterReply
    split <;> trivial
  | counts => exact ⟨Nat.le_refl _, Nat.zero_le _, hfirst rfl⟩
  | finds _ rowCount i hi hname =>
    obtain ⟨hlen, hir, hno⟩ := h
    change model.length ≤ i
    by_contra hlt
    exact hno i (by omega) ((dataAt_eq_iff (by omega)).mp hname)
  | passes _ rowCount i hi hname =>
    obtain ⟨hlen, hir, hno⟩ := h
    exact ⟨hlen, by omega, hno⟩
  | ends _ rowCount i hi =>
    obtain ⟨hlen, hir, hno⟩ := h
    change model.length ≤ i
    omega
  | indexes _ i =>
    have hi : model.length ≤ i := h
    exact if_neg (by omega)
  | _ => trivial

theorem Misses.of_plain {model model' : List Row} {a : WatchArgs} {pc : Pc}
    (hm : model'.map Row.plain = model.map Row.plain) (h : Misses model a pc) :
    Misses model' a pc := by
  have hlen := length_of_map hm
  cases pc with
  | errSearch rowCount i =>
    obtain ⟨hrc, hir, hno⟩ := h
    refine ⟨by omega, hir, fun j hj hn => hno j (by omega) ?_⟩
    exact (nameAt_of_plain hm a j).mp hn
  | errIndex i => exact Nat.le_trans (Nat.le_of_eq hlen) h
  | errSet index => exact h
  | _ => trivial

theorem Misses.erase {model : List Row} {a : WatchArgs} {pc : Pc} (i : Nat) (h : Misses model a pc) :
    Misses (model.eraseIdx i) a pc := by
  have hlen : (model.eraseIdx i).length ≤ model.length := (List.eraseIdx_sublist _ _).length_le
  cases pc with
  | errSearch rowCount k =>
    obtain ⟨hrc, hir, hno⟩ := h
    refine ⟨by omega, hir, fun j hj hn => ?_⟩
    obtain ⟨row, hr, hname⟩ := hn
    obtain ⟨j', hj'⟩ := List.mem_iff_getElem?.mp (List.mem_of_mem_eraseIdx (List.mem_of_getElem? hr))
    obtain ⟨hlt, -⟩ := List.getElem?_eq_some_iff.mp hj'
    exact hno j' hlt ⟨row, hj', hname⟩
  | errIndex k => exact Nat.le_trans hlen h
  | errSet index => exact h
  | _ => trivial

theorem misses_of_target {model : List Row} {a : WatchArgs} {pc : Pc} (h : pc.target = none) :
    Misses model a pc := by
  cases pc with
  | errSearch | errIndex => cases h
  | errSet index => exact h
  | _ => trivial

/-- The search of a watcher whose row is gone ends nowhere. -/
def Lost (s : State) : Prop := ∀ w ∈ s.watchers, ¬ Listed s w → Misses s.model w.args w.pc

/-- A search begins with no row of its friendly name above the watcher's own, or
none at all when its own is gone. While it runs neither its own row is erased,
nor one above it once the search has come to its own, and no row is appended
when its own is gone. -/
def OwnOnly (s : State) : Event → Prop
  | .watcher t _ => ∀ w ∈ s.watchers[t]?, w.pc = .errCount → FirstOwn s w
  | .ui _ => ∀ w ∈ s.watchers, w.pc.target.isSome = true →
      (∀ i ∈ s.erased, ∀ r < s.model.length, OwnsAt s w r →
        i ≠ r ∧ (i < r → w.pc.target ≠ some r)) ∧
      (s.ui.pending ≠ [] → Listed s w)
  | _ => True

instance (s : State) : ∀ e, Decidable (OwnOnly s e)
  | .watcher t _ => inferInstanceAs (Decidable (∀ w ∈ s.watchers[t]?, _ → _))
  | .ui _ => inferInstanceAs (Decidable (∀ w ∈ s.watchers, _ →
      (∀ i ∈ s.erased, ∀ r < _, _ → _ ∧ (_ → _ ≠ _)) ∧ (_ ≠ _ → _)))
  | .addServer _ _ | .removeServer _ | .startWatch _ _ _ _ | .doubleClick _ _ _ _
  | .doubleClickThrows _ _ => isTrue trivial

theorem steady_of_ownOnly {s : State} {e : Event} (h : OwnOnly s e) : Steady s e := by
  cases e with
  | watcher t reply => exact fun w hw hpc _ => h w hw hpc
  | ui ok =>
    intro i hi w hw r hr hown hir ht
    exact ((h w hw (by rw [ht]; rfl)).1 i hi r hr hown).2 hir ht
  | _ => trivial

theorem listed_of_name {s : State} {w : Watcher} (hf : FirstOwn s w) {j : Nat}
    (hj : j < s.model.length) (hn : NameAt s.model w.args j) : Listed s w := by
  have hm := List.mem_of_mem_take (hf j hj hn)
  rw [Listed, State.listed, List.map_append]
  exact List.mem_append_left _ hm

theorem lost_erased {s : State} {i : Nat} (h : Lost s)
    (hC : ∀ w ∈ s.watchers, w.pc.target.isSome = true → ∀ r < s.model.length, OwnsAt s w r → i ≠ r)
    (hp : s.ui.pending = []) : Lost { s with model := s.model.eraseIdx i } := by
  intro w hw hgone
  by_cases hl : Listed s w
  -- the row erased was the watcher's own
  · obtain ⟨r, hr⟩ := listed_iff.mp hl
    have hlt := ownsAt_lt hr
    rw [listed_of_pending hp] at hlt
    cases ht : w.pc.target with
    | none => exact misses_of_target ht
    | some k =>
      have hne := hC w hw (by rw [ht]; rfl) r hlt hr
      refine absurd ?_ hgone
      obtain ⟨row, hrow, hwatch⟩ := row_of_ownsAt hr hlt
      have hl' : State.listed { s with model := s.model.eraseIdx i } = s.model.eraseIdx i :=
        listed_of_pending hp
      rw [Listed, hl', ← hwatch]
      exact List.mem_map_of_mem (List.mem_eraseIdx_iff_getElem?.mpr ⟨r, fun he => hne he.symm, hrow⟩)
  · exact (h w hw hl).erase i

theorem lost_advance {s : State} {t : Nat} {reply : Option Int} {w : Watcher} {k : Effect}
    (h : Lost s) (hC : OwnOnly s (.watcher t reply)) (hin : InTable s (.watcher t reply))
    (hw : s.watchers[t]? = some w)
    (hk : startWatch s.serv.cells s.model w.args reply w.pc = some k) : Lost (s.advance t w k) := by
  have hplain := plain_advance t w (mark_inTable hin hw hk)
  intro v hv hgone
  have hgone' : ¬ Listed s v := fun hl => hgone (by
    obtain ⟨r, hr⟩ := listed_iff.mp hl
    exact listed_iff.mpr ⟨r, (ownsAt_of_table hplain rfl v r).mpr hr⟩)
  refine Misses.of_plain hplain ?_
  rcases (mem_set_iff hw).mp hv with rfl | hv
  · refine Misses.act (h w (List.mem_of_getElem? hw) hgone') hk fun hpc j hj hn => ?_
    exact hgone' (listed_of_name (hC w hw hpc) hj hn)
  · exact h v (List.mem_of_mem_eraseIdx hv) hgone'

theorem lost_step {s s' : State} {e : Event} (h : Lost s) (hC : OwnOnly s e) (hin : InTable s e)
    (hs : step s e = some s') : Lost s' := by
  have hm := move_of_step hs
  rcases hm.table hin with ⟨hplain, hp⟩ | ⟨cur, fileloc, friendlyName, parts, hui, -, -, rfl⟩ |
    ⟨ok, row, rfl, hui, rfl⟩ | ⟨ok, i, rfl, hi, hlt, hp, rfl⟩
  · have hlisted : ∀ w, Listed s w → Listed s' w := by
      intro w hl
      obtain ⟨r, hr⟩ := listed_iff.mp hl
      exact listed_iff.mpr ⟨r, (ownsAt_of_table hplain hp w r).mpr hr⟩
    rcases hm.watchers with hws | ⟨w₀, hinit, hws⟩ | ⟨t, reply, w, k, hw, rfl, hk, rfl⟩
    · intro w hw hgone
      rw [hws] at hw
      exact (h w hw fun hl => hgone (hlisted w hl)).of_plain hplain
    · intro w hw hgone
      rw [hws] at hw
      rcases List.mem_append.mp hw with hw | hw
      · exact (h w hw fun hl => hgone (hlisted w hl)).of_plain hplain
      · rw [List.mem_singleton.mp hw, hinit]
        trivial
    · exact lost_advance h hC hin hw hk
  · intro w hw hgone
    rcases List.mem_append.mp hw with hw | hw
    · refine h w hw fun hl => hgone ?_
      rw [Listed, listed_of_pending (by rw [hui]; rfl)] at hl
      rw [Listed, listed_started, List.map_append]
      exact List.mem_append_left _ hl
    · rw [List.mem_singleton.mp hw]
      trivial
  · intro w hw hgone
    have hlist : ¬ Listed s w := by
      rw [Listed, State.listed, hui]
      simpa [Listed, State.listed, Ui.pending] using hgone
    cases ht : w.pc.target with
    | none => exact misses_of_target ht
    | some k =>
      have hin := (hC w hw (by rw [ht]; rfl)).2 (by rw [hui]; exact List.cons_ne_nil _ _)
      exact absurd hin hlist
  · exact lost_erased h (fun w hw ht r hr hown => ((hC w hw ht).1 i hi r hr hown).1) hp

/-- What a watcher's step does to the table. -/
def MarksOwn (s : State) : Prop :=
  ∀ (t : Nat) (reply : Option Int) (w : Watcher) (s' : State), s.watchers[t]? = some w →
    step s (.watcher t reply) = some s' →
    s'.model = s.model ∨ ∃ i row, s.model[i]? = some row ∧ row.watch = w.args.runstate ∧
      s'.model = setStatus s.model i connectionError

theorem mark_of_acts {cells : List Int} {model : List Row} {a : WatchArgs} {reply : Option Int}
    {pc : Pc} {k : Effect} {i : Nat} (hk : startWatch cells model a reply pc = some k)
    (hmark : k.mark = some i) : pc = .errSet (some i) ∧ k.pc = .uninit := by
  cases acts_of_startWatch hk with
  | marks _ index =>
    change index = some i at hmark
    rw [hmark]
    exact ⟨rfl, rfl⟩
  | _ => cases hmark

theorem model_of_mark {s : State} {t : Nat} {w : Watcher} {k : Effect} {i : Nat}
    (hmark : k.mark = some i) :
    (s.advance t w k).model = setStatus s.model i connectionError := by
  rw [State.advance, hmark]
  rfl

theorem model_of_no_mark {s : State} {t : Nat} {w : Watcher} {k : Effect} (hmark : k.mark = none) :
    (s.advance t w k).model = s.model := by
  rw [State.advance, hmark]
  rfl

/-- Row `i`, that was there, after a watcher's step. -/
theorem getElem?_advance {s : State} (t : Nat) (w : Watcher) (k : Effect) {i : Nat}
    (hi : i < s.model.length) :
    (s.advance t w k).model[i]? = s.model[i]? ∨
      (k.mark = some i ∧ (s.advance t w k).model[i]? =
        s.model[i]?.map fun row => { row with status := connectionError }) := by
  cases hmark : k.mark with
  | none => exact Or.inl (by rw [model_of_no_mark hmark])
  | some j =>
    rw [model_of_mark hmark, getElem?_setStatus_of_lt hi]
    split
    · rename_i hji
      exact Or.inr ⟨congrArg some hji, rfl⟩
    · exact Or.inl rfl

/-- A watcher that holds an index found its own row, which is there. -/
theorem errSet_own {s : State} (hsought : Sought s) (hlost : Lost s) {w : Watcher}
    (hw : w ∈ s.watchers) {i : Nat} (hpc : w.pc = .errSet (some i)) :
    ∃ row, s.model[i]? = some row ∧ row.watch = w.args.runstate := by
  have hlisted : Listed s w := by
    by_contra hgone
    have hmiss := hlost w hw hgone
    rw [hpc] at hmiss
    cases hmiss
  obtain ⟨r, hr⟩ := listed_iff.mp hlisted
  have hseek := hsought w hw r hr
  rw [hpc] at hseek
  obtain ⟨rfl, hlt⟩ := hseek i rfl
  exact row_of_ownsAt hr hlt

/-- The row that a watcher marks was added for its own cell. -/
theorem mark_own {s : State} (hsought : Sought s) (hlost : Lost s) {t : Nat} {reply : Option Int}
    {w : Watcher} {k : Effect} (hw : s.watchers[t]? = some w)
    (hk : startWatch s.serv.cells s.model w.args reply w.pc = some k) {i : Nat}
    (hmark : k.mark = some i) : ∃ row, s.model[i]? = some row ∧ row.watch = w.args.runstate :=
  errSet_own hsought hlost (List.mem_of_getElem? hw) (mark_of_acts hk hmark).1

/-- So no `setData` goes through an index past the end of the table. -/
theorem inTable_of_search {s : State} (ha : Aligned s) (hsought : Sought s) (hlost : Lost s)
    (e : Event) : InTable s e := by
  intro i hi
  cases e with
  | ui ok =>
    refine (ha.clicked (r := i) ?_).2
    simp only [State.written] at hi
    split at hi <;> simp_all [Ui.rowid]
  | watcher t reply =>
    obtain ⟨w, hw, hpc⟩ := Option.bind_eq_some_iff.mp hi
    have hset : w.pc = .errSet (some i) := by
      unfold Pc.marks at hpc
      split at hpc
      · rename_i index heq
        rw [heq, hpc]
      · cases hpc
    obtain ⟨row, hrow, -⟩ := errSet_own hsought hlost (List.mem_of_getElem? hw) hset
    exact (List.getElem?_eq_some_iff.mp hrow).1
  | _ => cases hi

theorem marksOwn_of_search {s : State} (hsought : Sought s) (hlost : Lost s) : MarksOwn s := by
  intro t reply w s' hw hs
  obtain ⟨w', k, hw', hk, rfl⟩ := step_watcher hs
  obtain rfl := Option.some.inj (hw.symm.trans hw')
  cases hmark : k.mark with
  | none => exact Or.inl (model_of_no_mark hmark)
  | some i =>
    obtain ⟨row, hrow, hwatch⟩ := mark_own hsought hlost hw hk hmark
    exact Or.inr ⟨i, row, hrow, hwatch, model_of_mark hmark⟩

/-- Two watchers on one cell are not both in the loop or before their mark. -/
def Apart (v w : Watcher) : Prop :=
  v.args.runstate = w.args.runstate → v.pc.unmarked = true → w.pc.unmarked = false

def Single (s : State) : Prop := s.watchers.Pairwise Apart

theorem Apart.symm {v w : Watcher} (h : Apart v w) : Apart w v := by
  intro hcell hw
  cases hv : v.pc.unmarked with
  | false => rfl
  | true => rw [h hcell.symm hv] at hw; cases hw

theorem unmarked_act {cells : List Int} {model : List Row} {a : WatchArgs} {reply : Option Int}
    {pc : Pc} {k : Effect} (hk : startWatch cells model a reply pc = some k)
    (h : k.pc.unmarked = true) : pc.unmarked = true := by
  cases acts_of_startWatch hk with
  | closes | marks | uninits => cases h
  | _ => rfl

/-- A watcher that moved is still apart from the others. -/
theorem single_set {l : List Watcher} {t : Nat} {w w' : Watcher} (h : l.Pairwise Apart)
    (hw : l[t]? = some w) (hcell : w'.args = w.args)
    (hpc : w'.pc.unmarked = true → w.pc.unmarked = true) : (l.set t w').Pairwise Apart := by
  refine pairwise_set (fun _ _ => Apart.symm) h hw fun v hv => ?_
  have hap : Apart v w := pairwise_other (fun _ _ => Apart.symm) h hw hv
  intro hc hu
  rw [hcell] at hc
  have hf := hap hc hu
  cases hu' : w'.pc.unmarked with
  | false => rfl
  | true => rw [hpc hu'] at hf; cases hf

/-- A watcher is started on a cell whose other watchers have all ended. -/
theorem single_append {l : List Watcher} {w : Watcher} (h : l.Pairwise Apart)
    (hw : ∀ v ∈ l, v.args.runstate = w.args.runstate → v.pc.unmarked = false) :
    (l ++ [w]).Pairwise Apart := by
  refine pairwise_append_one h fun v hv hcell hu => ?_
  rw [hw v hv hcell] at hu
  cases hu

/-- The row that `startTimedoutThread` was called for. -/
def Ui.retries : Ui → Option Nat
  | .reconnect rowid _ | .respawn rowid _ => some rowid
  | _ => none

/-- A row that shows an error has no watcher that is still to mark it, but for
the one that a reconnection has just started. -/
def Finished (s : State) : Prop :=
  ∀ i row, s.listed[i]? = some row → ¬ row.Alive → s.ui ≠ .reconnected i →
    ∀ w ∈ s.watchers, w.args.runstate = row.watch → w.pc.unmarked = false

/-- A row is reconnected only while it shows an error. -/
def Retried (s : State) : Prop :=
  ∀ r ∈ s.ui.retries, ∀ row ∈ s.model[r]?, ¬ row.Alive

theorem getElem?_listed {s : State} {r : Nat} {row : Row} (h : s.model[r]? = some row) :
    s.listed[r]? = some row := by
  obtain ⟨hlt, -⟩ := List.getElem?_eq_some_iff.mp h
  rw [State.listed, List.getElem?_append_left hlt, h]

theorem single_step {s s' : State} {e : Event} (h : Single s) (hcon : Consistent s)
    (hf : Finished s) (hr : Retried s) (hs : step s e = some s') : Single s' := by
  cases move_of_step hs with
  | started =>
    refine single_append h fun v hv hcell => ?_
    have hlt := hcon.linked.bound v hv
    change v.args.runstate = s.serv.cells.length at hcell
    omega
  | respawned rowid serverip thread hui ht =>
    obtain ⟨row, hrow, rfl⟩ := row_of_thread hcon.aligned (by rw [hui]; rfl) ht
    have hna : ¬ row.Alive := hr rowid (by rw [hui]; rfl) row hrow
    refine single_append h fun v hv hcell => ?_
    exact hf rowid row (getElem?_listed hrow) hna (by rw [hui]; exact Ui.noConfusion) v hv hcell
  | watched t reply w k hw hk => exact single_set h hw rfl (unmarked_act hk)
  | _ => exact h

/-- Where a listed row after a watcher's step comes from. -/
theorem listed_advance {s : State} {t : Nat} {w : Watcher} {k : Effect} {i : Nat} {row : Row}
    (hin : ∀ i ∈ k.mark, i < s.model.length) (h : (s.advance t w k).listed[i]? = some row) :
    s.listed[i]? = some row ∨
      (k.mark = some i ∧ ∃ old, s.model[i]? = some old ∧
        row = { old with status := connectionError }) := by
  have hlen := length_of_map (plain_advance t w hin)
  have hp : (s.advance t w k).ui.pending = s.ui.pending := rfl
  rw [State.listed, hp] at h
  rcases Nat.lt_or_ge i s.model.length with hlt | hge
  · rw [List.getElem?_append_left (by omega)] at h
    rcases getElem?_advance t w k hlt with hsame | ⟨hmark, hset⟩
    · rw [hsame] at h
      exact Or.inl (getElem?_listed h)
    · rw [hset] at h
      obtain ⟨old, ho, rfl⟩ := Option.map_eq_some_iff.mp h
      exact Or.inr ⟨hmark, old, ho, rfl⟩
  · rw [List.getElem?_append_right (by omega), hlen] at h
    rw [State.listed, List.getElem?_append_right hge]
    exact Or.inl h

theorem finished_advance {s : State} {t : Nat} {reply : Option Int} {w : Watcher} {k : Effect}
    (h : Finished s) (hsingle : Single s) (hsought : Sought s) (hlost : Lost s)
    (hin : InTable s (.watcher t reply)) (hw : s.watchers[t]? = some w)
    (hk : startWatch s.serv.cells s.model w.args reply w.pc = some k) :
    Finished (s.advance t w k) := by
  intro i row hi hna hui v hv hcell
  rcases listed_advance (mark_inTable hin hw hk) hi with hsame | ⟨hmark, old, hold, rfl⟩
  · have hold := h i row hsame hna hui
    rcases (mem_set_iff hw).mp hv with rfl | hv
    · cases hu : k.pc.unmarked with
      | false => rfl
      | true =>
        have hf := hold w (List.mem_of_getElem? hw) hcell
        rw [unmarked_act hk hu] at hf
        cases hf
    · exact hold v (List.mem_of_mem_eraseIdx hv) hcell
  -- the row just marked: its only unmarked watcher is the one that marked it
  · obtain ⟨row, hrow, hown⟩ := mark_own hsought hlost hw hk hmark
    obtain rfl := Option.some.inj (hold.symm.trans hrow)
    obtain ⟨hpc, hpc'⟩ := mark_of_acts hk hmark
    rcases (mem_set_iff hw).mp hv with rfl | hv
    · rw [hpc']
      rfl
    · have hap : Apart v w := pairwise_other (fun _ _ => Apart.symm) hsingle hw hv
      exact hap.symm (hcell.trans hown).symm (by rw [hpc]; rfl)

/-- A handler's step that keeps rows and watchers. -/
theorem finished_keep {s s' : State} (h : Finished s) (hl : s'.listed = s.listed)
    (hw : s'.watchers = s.watchers) (hui : ∀ i, s.ui ≠ .reconnected i) : Finished s' := by
  intro i row hi hna _ w hmem hcell
  rw [hl] at hi
  rw [hw] at hmem
  exact h i row hi hna (hui i) w hmem hcell

/-- A handler shows row `rowid` as Active or Paused. -/
theorem finished_status {s : State} (h : Finished s) {rowid : Nat} (hlt : rowid < s.model.length)
    {v : QString} (hv : ∀ row : Row, Row.Alive { row with status := v })
    (hui : ∀ i, s.ui = .reconnected i → i = rowid) :
    Finished { s with model := setStatus s.model rowid v, ui := .idle } := by
  intro i row hi hna _ w hmem hcell
  have hl : State.listed { s with model := setStatus s.model rowid v, ui := .idle } =
      setStatus s.model rowid v := listed_of_pending rfl
  rw [hl, getElem?_setStatus hlt] at hi
  split at hi
  · obtain ⟨old, -, rfl⟩ := Option.map_eq_some_iff.mp hi
    exact absurd (hv old) hna
  · rename_i hne
    exact h i row (getElem?_listed hi) hna (fun he => hne (hui i he).symm) w hmem hcell

/-- The new row shows Active, and its cell is that of no older row. -/
theorem finished_started {s : State} (h : Finished s) (hl : Linked s) (hui : s.ui = .idle)
    (cur : Nat) (fileloc friendlyName servername serverip : QString) :
    Finished (started s cur fileloc friendlyName servername serverip) := by
  intro i row hi hna _ w hw hcell
  rw [listed_started] at hi
  have hlisted : s.listed = s.model := listed_of_pending (by rw [hui]; rfl)
  rcases Nat.lt_or_ge i s.model.length with hlt | hge
  · rw [List.getElem?_append_left hlt, ← hlisted] at hi
    rcases List.mem_append.mp hw with hw | hw
    · exact h i row hi hna (by rw [hui]; exact Ui.noConfusion) w hw hcell
    · have hfresh := hl.fresh row (List.mem_of_getElem? hi)
      rw [List.mem_singleton.mp hw] at hcell
      change s.serv.cells.length = row.watch at hcell
      omega
  · rw [List.getElem?_append_right hge] at hi
    have hm := List.mem_singleton.mp (List.mem_of_getElem? hi)
    rw [hm] at hna
    exact absurd (Or.inl rfl) hna

/-- The watcher that a reconnection starts is on the row that is reconnected, and
on no other. -/
theorem finished_respawned {s : State} (h : Finished s) (hcon : Consistent s) {rowid : Nat}
    {serverip : QString} {thread : ThreadWrap} (hui : s.ui = .respawn rowid serverip)
    (ht : s.serv.threadList[rowid]? = some thread) :
    Finished { s with watchers := s.watchers ++ [respawned s rowid serverip thread],
                      ui := .reconnected rowid } := by
  obtain ⟨row₀, hrow₀, rfl⟩ := row_of_thread hcon.aligned (by rw [hui]; rfl) ht
  intro i row hi hna hne w hw hcell
  have hi' : s.listed[i]? = some row := by
    rw [listed_of_pending (by rw [hui]; rfl)]
    simpa [State.listed, Ui.pending] using hi
  rcases List.mem_append.mp hw with hw | hw
  · exact h i row hi' hna (by rw [hui]; exact Ui.noConfusion) w hw hcell
  · rw [List.mem_singleton.mp hw] at hcell
    have he := hcon.linked.unique (List.mem_of_getElem? hi')
      (mem_listed (List.mem_of_getElem? hrow₀)) hcell.symm
    rw [he] at hi'
    have hsame : (s.listed.map Row.watch)[i]? = (s.listed.map Row.watch)[rowid]? := by
      rw [List.getElem?_map, List.getElem?_map, hi', getElem?_listed hrow₀]
    obtain ⟨hlt, -⟩ := List.getElem?_eq_some_iff.mp hi'
    have hindex := (List.getElem?_inj (by rw [List.length_map]; exact hlt)
      hcon.linked.nodup).mp hsame
    exact absurd (congrArg Ui.reconnected hindex.symm) hne

theorem finished_step {s s' : State} {e : Event} (h : Finished s) (hcon : Consistent s)
    (hsingle : Single s) (hsought : Sought s) (hlost : Lost s) (hin : InTable s e)
    (hs : step s e = some s') : Finished s' := by
  have hidle : s.ui = .idle → ∀ i, s.ui ≠ .reconnected i := by
    intro hui i he
    rw [hui] at he
    cases he
  cases move_of_step hs with
  | watched t reply w k hw hk => exact finished_advance h hsingle hsought hlost hin hw hk
  | quiet _ ws hui => exact finished_keep h rfl rfl (hidle hui)
  | listed servername serverip entry hui => exact finished_keep h rfl rfl (hidle hui)
  | unstarted cur fileloc friendlyName out parts extra ws hui =>
    exact finished_keep h rfl rfl (hidle hui)
  | started cur fileloc friendlyName parts hui hreq =>
    exact finished_started h hcon.linked hui cur fileloc friendlyName parts.1 parts.2
  | respawned rowid serverip thread hui ht => exact finished_respawned h hcon hui ht
  | appended _ row hui =>
    refine finished_keep h ?_ rfl ?_
    · simp [State.listed, Ui.pending, hui]
    · intro i he
      rw [hui] at he
      cases he
  | rowErased _ n j row₀ hui hr hname =>
    intro i row hi hna _ w hw hcell
    have hl : State.listed { s with model := s.model.eraseIdx j, ui := .removeRows n j } =
      s.model.eraseIdx j := listed_of_pending rfl
    rw [hl] at hi
    obtain ⟨i', hi'⟩ := List.mem_iff_getElem?.mp (List.mem_of_mem_eraseIdx (List.mem_of_getElem? hi))
    exact h i' row (getElem?_listed hi') hna (by rw [hui]; exact Ui.noConfusion) w hw hcell
  | paused _ rowid hui =>
    have hlt := hin rowid (by rw [State.written, hui]; rfl)
    refine finished_status h hlt (fun _ => Or.inr rfl) fun i he => ?_
    rw [hui] at he
    cases he
  | activated _ rowid hui =>
    rcases hui with hui | hui
    · have hlt := hin rowid (by rw [State.written, hui]; rfl)
      refine finished_status h hlt (fun _ => Or.inl rfl) fun i he => ?_
      rw [hui] at he
      cases he
    · have hlt := hin rowid (by rw [State.written, hui]; rfl)
      refine finished_status h hlt (fun _ => Or.inl rfl) fun i he => ?_
      rw [hui] at he
      exact (Ui.reconnected.inj he).symm
  | gaveUp _ ws hui =>
    rcases hui with ⟨r, hui, -⟩ | ⟨r, hui, -⟩ | ⟨r, ip, hui⟩ | ⟨r, ip, hui⟩
    all_goals
      refine finished_keep h (by simp [State.listed, Ui.pending, hui]) rfl fun i he => ?_
      rw [hui] at he
      cases he
  | _ =>
    refine finished_keep h (by simp [State.listed, State.removeServer, Ui.pending, *]) rfl fun i he => ?_
    simp_all

theorem retried_step {s s' : State} {e : Event} (h : Retried s) (hin : InTable s e)
    (hs : step s e = some s') : Retried s' := by
  have noRetry : ∀ t : State, t.ui.retries = none → Retried t := by
    intro t ht r hr
    rw [ht] at hr
    cases hr
  cases move_of_step hs with
  | watched t reply w k hw hk =>
    intro r hr row hrow ha
    have hmarks := mark_inTable hin hw hk
    obtain ⟨j, hj, -⟩ := alive_of_advance hmarks (List.mem_of_getElem? hrow) ha
    -- the row at `r` looks alive, so the step did not write it
    cases hmark : k.mark with
    | none =>
      rw [model_of_no_mark hmark] at hrow
      exact h r hr row hrow ha
    | some i =>
      rw [model_of_mark hmark, getElem?_setStatus (hmarks i hmark)] at hrow
      split at hrow
      · obtain ⟨old, -, rfl⟩ := Option.map_eq_some_iff.mp hrow
        exact not_alive_connectionError old ha
      · exact h r hr row hrow ha
  | readError _ rowid serverip hui hst =>
    intro r hr row hrow ha
    obtain rfl := Option.some.inj hr
    rw [dataAt_of_getElem? hrow] at hst
    rcases ha with ha | ha
    · exact hst.1 ha
    · exact hst.2 ha
  | readied rowid serverip thread hui ht =>
    intro r hr row hrow
    obtain rfl := Option.some.inj hr
    exact h rowid (by rw [hui]; rfl) row hrow
  | quiet _ ws hui | listed servername serverip entry hui =>
    exact noRetry _ (by simp [Ui.retries, hui])
  | unstarted cur fileloc friendlyName out parts extra ws hui =>
    exact noRetry _ (by simp [Ui.retries, hui])
  | _ => exact noRetry _ rfl

structure Owned (s : State) : Prop where
  consistent : Consistent s
  sought : Sought s
  lost : Lost s
  single : Single s
  finished : Finished s
  retried : Retried s

theorem owned_start : Owned start := by
  constructor
  · exact consistent_start
  · intro w hw; cases hw
  · intro w hw; cases hw
  · exact List.Pairwise.nil
  · intro i row hi; cases hi
  · intro r hr; cases hr

theorem Owned.step {s s' : State} {e : Event} (h : Owned s) (hC : OwnOnly s e)
    (hs : Client.step s e = some s') : Owned s' := by
  have hin := inTable_of_search h.consistent.aligned h.sought h.lost e
  constructor
  · exact h.consistent.step hin hs
  · exact sought_step h.consistent.linked h.sought (steady_of_ownOnly hC) hin hs
  · exact lost_step h.lost hC hin hs
  · exact single_step h.single h.consistent h.finished h.retried hs
  · exact finished_step h.finished h.consistent h.single h.sought h.lost hin hs
  · exact retried_step h.retried hin hs

/-- At most one watcher of a row is in its loop. -/
def OneLive (s : State) : Prop :=
  ∀ row ∈ s.model, ∀ (t u : Nat) (v w : Watcher), s.watchers[t]? = some v → s.watchers[u]? = some w →
    v.args.runstate = row.watch → w.args.runstate = row.watch →
    v.pc.inLoop = true → w.pc.inLoop = true → t = u

/-- `startTimedoutThread` is called for a row whose watchers have all ended. -/
def RetriesEnded (s : State) : Prop :=
  ∀ r ∈ s.ui.retries, ∀ row ∈ s.model[r]?, ∀ w ∈ s.watchers, w.args.runstate = row.watch →
    w.pc.unmarked = false

theorem unmarked_of_inLoop {pc : Pc} (h : pc.inLoop = true) : pc.unmarked = true := by
  cases pc <;> first | rfl | cases h

theorem oneLive_of_single {s : State} (h : Single s) : OneLive s := by
  intro row hr t u v w hv hw hvc hwc hvl hwl
  by_contra hne
  have hmem : v ∈ s.watchers.eraseIdx u :=
    List.mem_eraseIdx_iff_getElem?.mpr ⟨t, hne, hv⟩
  have hap : Apart v w := pairwise_other (fun _ _ => Apart.symm) h hw hmem
  have hf := hap (hvc.trans hwc.symm) (unmarked_of_inLoop hvl)
  rw [unmarked_of_inLoop hwl] at hf
  cases hf

theorem retriesEnded_of_finished {s : State} (hf : Finished s) (hr : Retried s) :
    RetriesEnded s := by
  intro r hret row hrow w hw hcell
  refine hf r row (getElem?_listed hrow) (hr r hret row hrow) (fun he => ?_) w hw hcell
  rw [he] at hret
  cases hret

/-- In every run whose steps meet `OwnOnly`, a watcher marks no row but its own,
no row has two watchers in their loop, and a row is reconnected only after all
its watchers have ended. -/
theorem watchers_mark_own {es : List Event} (h : Steps step OwnOnly start es) :
    Along step (fun s => MarksOwn s ∧ OneLive s ∧ RetriesEnded s) start es := by
  have hrun := h.along (fun _ _ _ hI hC hs => hI.step hC hs) owned_start
  refine hrun.mono fun s hI => ⟨?_, ?_, ?_⟩
  · exact marksOwn_of_search hI.sought hI.lost
  · exact oneLive_of_single hI.single
  · exact retriesEnded_of_finished hI.finished hI.retried

theorem reconnected_row_one_live : ∃ s, run step start failsAndReconnects = some s ∧
    s.watchers.length = 2 ∧ OneLive s := by
  refine ⟨_, rfl, rfl, ?_⟩
  exact ((watchers_mark_own (by decide : Steps step OwnOnly start failsAndReconnects)).last rfl).2.1

/-- A watch is removed while its call is pending, and its friendly name is used
for a watch on another file; then the old connection fails. -/
def staleWatcherFails : List Event :=
  [.addServer ['A'] ['1'], .startWatch 1 ['f'] ['x'] (.found .started), .ui true,
   .watcher 0 none, .watcher 0 none, .watcher 0 none,
   .removeServer 1, .ui true, .ui true, .ui true, .ui true,
   .startWatch 0 ['g'] ['x'] (.found .started), .ui true] ++
  List.replicate 6 (.watcher 0 none)

theorem stale_watcher_marks_other : ∃ s s' row w, run step start staleWatcherFails = some s ∧
    s.model = [row] ∧ row.status = active ∧ s.watchers[0]? = some w ∧
    row.watch ≠ w.args.runstate ∧ step s (.watcher 0 none) = some s' ∧
    s'.model = [{ row with status := connectionError }] := by
  refine ⟨_, _, _, _, rfl, rfl, rfl, rfl, ?_, rfl, rfl⟩
  decide

end Errifier.Client
