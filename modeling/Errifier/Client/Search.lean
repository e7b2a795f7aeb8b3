import Errifier.Client.Alignment

/-!
# The search of the catch block

A watcher that fails looks for its row by friendly name, over several reads of a
table that the handlers may change meanwhile. It ends at its own row as long as
no row above it had the name when the search began, and no row above it is
removed once the search has come to it.
-/
namespace Errifier.Client

set_option autoImplicit false

open Errifier.Text Errifier.Machine

/-- The row that the search has come to. -/
def Pc.target : Pc → Option Nat
  | .errSearch _ i => some i
  | .errIndex i => some i
  | .errSet index => index
  | _ => none

/-- Row `r` is the watcher's own: it was added for the run-state cell that the
watcher reads. -/
def OwnsAt (s : State) (w : Watcher) (r : Nat) : Prop :=
  (s.listed.map Row.watch)[r]? = some w.args.runstate

instance (s : State) (w : Watcher) (r : Nat) : Decidable (OwnsAt s w r) :=
  inferInstanceAs (Decidable (_ = _))

/-- Row `j` of the table has the watcher's friendly name. -/
def NameAt (model : List Row) (a : WatchArgs) (j : Nat) : Prop :=
  ∃ row ∈ model[j]?, a.friendlyname = toStdString row.friendlyName

instance (model : List Row) (a : WatchArgs) (j : Nat) : Decidable (NameAt model a j) :=
  match h : model[j]? with
  | none => isFalse fun ⟨_, hr, _⟩ => by rw [h] at hr; cases hr
  | some row =>
    if he : a.friendlyname = toStdString row.friendlyName then isTrue ⟨row, h, he⟩
    else isFalse fun ⟨_, hr, hn⟩ => he (by rw [hn, ← Option.some.inj (h.symm.trans hr)])

/-- The search can only end at row `r`. -/
def Seeks (model : List Row) (a : WatchArgs) (r : Nat) : Pc → Prop
  | .errSearch rowCount i =>
    i ≤ r ∧ r ≤ rowCount ∧ (model.length ≤ r → rowCount = r) ∧ ∀ j < r, ¬ NameAt model a j
  | .errIndex i => i = r
  | .errSet index => ∀ i ∈ index, i = r ∧ r < model.length
  | _ => True

theorem dataAt_eq_iff {model : List Row} {a : WatchArgs} {j : Nat} (hj : j < model.length) :
    a.friendlyname = toStdString (dataAt model j (·.friendlyName)) ↔ NameAt model a j := by
  obtain ⟨row, hr⟩ : ∃ row, model[j]? = some row := ⟨_, List.getElem?_eq_getElem hj⟩
  rw [dataAt_of_getElem? hr, NameAt, hr]
  simp only [Option.mem_some_iff, exists_eq_left']

/-- One step of the watcher itself. -/
theorem Seeks.act {cells : List Int} {model : List Row} {a : WatchArgs} {reply : Option Int}
    {pc : Pc} {k : Effect} {r : Nat} (h : Seeks model a r pc)
    (hk : startWatch cells model a reply pc = some k) (hr : r ≤ model.length)
    (hown : r < model.length → NameAt model a r)
    (hfirst : pc = .errCount → ∀ j < r, ¬ NameAt model a j) : Seeks model a r k.pc := by
  cases acts_of_startWatch hk with
  | loops =>
    unfold afterLoopTest
    split <;> trivial
  | tests =>
    unfold afterRunTest
    split <;> trivial
  | replied =>
    unfold afterReply
    split <;> trivial
  | counts => exact ⟨Nat.zero_le _, hr, fun hle => by omega, hfirst rfl⟩
  | finds _ rowCount i hi hname =>
    obtain ⟨hir, hrc, hend, hno⟩ := h
    have hge : ¬ i < r := fun hlt =>
      hno i hlt ((dataAt_eq_iff (by omega)).mp hname)
    change i = r
    omega
  | passes _ rowCount i hi hname =>
    obtain ⟨hir, hrc, hend, hno⟩ := h
    have hne : i ≠ r := by
      intro he
      subst he
      have hlt : i < model.length := by
        by_contra hge
        have := hend (by omega)
        omega
      exact hname ((dataAt_eq_iff hlt).mpr (hown hlt))
    exact ⟨by omega, hrc, hend, hno⟩
  | ends _ rowCount i hi =>
    obtain ⟨hir, hrc, -, -⟩ := h
    change i = r
    omega
  | indexes _ i =>
    change ∀ j ∈ _, j = r ∧ r < model.length
    have hi : i = r := h
    intro j hj
    split at hj
    · obtain rfl := Option.some.inj hj
      exact ⟨hi, by omega⟩
    · cases hj
  | _ => trivial

/-- The search sees nothing of a row but its friendly name. -/
theorem nameAt_of_plain {model model' : List Row} (h : model'.map Row.plain = model.map Row.plain)
    (a : WatchArgs) (j : Nat) : NameAt model' a j ↔ NameAt model a j := by
  have key : ∀ l : List Row, NameAt l a j ↔ NameAt (l.map Row.plain) a j := by
    intro l
    unfold NameAt
    rw [List.getElem?_map]
    cases l[j]? with
    | none => rfl
    | some row => simp [Row.plain]
  rw [key model', key model, h]

theorem Seeks.of_plain {model model' : List Row} {a : WatchArgs} {r : Nat} {pc : Pc}
    (hm : model'.map Row.plain = model.map Row.plain) (h : Seeks model a r pc) :
    Seeks model' a r pc := by
  have hlen := length_of_map hm
  cases pc with
  | errSearch rowCount i =>
    obtain ⟨hir, hrc, hend, hno⟩ := h
    refine ⟨hir, hrc, fun hle => hend (by omega), fun j hj hn => ?_⟩
    exact hno j hj ((nameAt_of_plain hm a j).mp hn)
  | errSet index => exact fun i hi => ⟨(h i hi).1, hlen ▸ (h i hi).2⟩
  | _ => exact h

/-- The row being appended is below the rows searched, or is the row sought. -/
theorem Seeks.append {model : List Row} {a : WatchArgs} {r : Nat} {pc : Pc} (row : Row)
    (hr : r ≤ model.length) (h : Seeks model a r pc) : Seeks (model ++ [row]) a r pc := by
  cases pc with
  | errSearch rowCount i =>
    obtain ⟨hir, hrc, hend, hno⟩ := h
    refine ⟨hir, hrc, fun hle => ?_, fun j hj hn => ?_⟩
    · rw [List.length_append, List.length_singleton] at hle
      omega
    · obtain ⟨row', hr', hn'⟩ := hn
      rw [List.getElem?_append_left (by omega)] at hr'
      exact hno j hj ⟨row', hr', hn'⟩
  | errSet index =>
    intro i hi
    obtain ⟨he, hlt⟩ := h i hi
    exact ⟨he, hlt.trans_le (List.prefix_append model [row]).length_le⟩
  | _ => exact h

/-- A row below the one sought is erased. -/
theorem Seeks.erase_below {model : List Row} {a : WatchArgs} {r i : Nat} {pc : Pc} (hi : r < i)
    (hlt : i < model.length) (h : Seeks model a r pc) : Seeks (model.eraseIdx i) a r pc := by
  cases pc with
  | errSearch rowCount k =>
    obtain ⟨hir, hrc, hend, hno⟩ := h
    have hlen := List.length_eraseIdx_of_lt hlt
    refine ⟨hir, hrc, fun hle => by omega, fun j hj hn => ?_⟩
    obtain ⟨row', hr', hn'⟩ := hn
    rw [List.getElem?_eraseIdx_of_lt (by omega)] at hr'
    exact hno j hj ⟨row', hr', hn'⟩
  | errSet index =>
    intro k hk
    obtain ⟨he, -⟩ := h k hk
    have hlen := List.length_eraseIdx_of_lt hlt
    exact ⟨he, by omega⟩
  | _ => exact h

/-- A row above the one sought is erased before the search has come there. -/
theorem Seeks.erase_above {model : List Row} {a : WatchArgs} {r i : Nat} {pc : Pc} (hi : i ≤ r)
    (hlt : r + 1 < model.length) (ht : pc.target ≠ some (r + 1)) (h : Seeks model a (r + 1) pc) :
    Seeks (model.eraseIdx i) a r pc := by
  cases pc with
  | errSearch rowCount k =>
    obtain ⟨hir, hrc, hend, hno⟩ := h
    have hlen := List.length_eraseIdx_of_lt (show i < model.length by omega)
    have hk : k ≠ r + 1 := fun he => ht (congrArg some he)
    refine ⟨by omega, by omega, fun hle => by omega, fun j hj hn => ?_⟩
    obtain ⟨row', hr', hn'⟩ := hn
    rw [List.getElem?_eraseIdx] at hr'
    split at hr'
    · exact hno j (by omega) ⟨row', hr', hn'⟩
    · exact hno (j + 1) (by omega) ⟨row', hr', hn'⟩
  | errIndex k =>
    have hk : k = r + 1 := h
    exact absurd (congrArg some hk) ht
  | errSet index =>
    intro k hk
    have hk' : k = r + 1 := (h k hk).1
    rw [hk'] at hk
    exact absurd hk ht
  | _ => trivial

/-- The search of every watcher whose row is listed can only end at that row. -/
def Sought (s : State) : Prop :=
  ∀ w ∈ s.watchers, ∀ r, OwnsAt s w r → Seeks s.model w.args r w.pc

/-- No row above the watcher's own has its friendly name; none at all when its
own row is not in the table. -/
def FirstOwn (s : State) (w : Watcher) : Prop :=
  ∀ j < s.model.length, NameAt s.model w.args j →
    w.args.runstate ∈ (s.model.map Row.watch).take (j + 1)

instance (s : State) (w : Watcher) : Decidable (FirstOwn s w) :=
  inferInstanceAs (Decidable (∀ j < s.model.length, _ → _ ∈ _))

/-- A search begins with no row of its friendly name above the watcher's own,
and no row above is erased once the search has come to its own. -/
def Steady (s : State) : Event → Prop
  | .watcher t _ => ∀ w ∈ s.watchers[t]?, w.pc = .errCount →
      w.args.runstate ∈ s.listed.map Row.watch → FirstOwn s w
  | .ui _ => ∀ i ∈ s.erased, ∀ w ∈ s.watchers, ∀ r < s.model.length, OwnsAt s w r → i < r →
      w.pc.target ≠ some r
  | _ => True

instance (s : State) : ∀ e, Decidable (Steady s e)
  | .watcher t _ => inferInstanceAs (Decidable (∀ w ∈ s.watchers[t]?, _ → _ → _))
  | .ui _ => inferInstanceAs (Decidable (∀ i ∈ s.erased, ∀ w ∈ s.watchers, ∀ r < _, _ → _ → _ ≠ _))
  | .addServer _ _ | .removeServer _ | .startWatch _ _ _ _ | .doubleClick _ _ _ _
  | .doubleClickThrows _ _ => isTrue trivial

theorem ownsAt_lt {s : State} {w : Watcher} {r : Nat} (h : OwnsAt s w r) : r < s.listed.length := by
  obtain ⟨hlt, -⟩ := List.getElem?_eq_some_iff.mp h
  rwa [List.length_map] at hlt

theorem length_listed_le (s : State) : s.listed.length ≤ s.model.length + 1 := by
  rw [State.listed, List.length_append]
  have hp : s.ui.pending.length ≤ 1 := by
    cases s.ui <;> simp [Ui.pending]
  omega

theorem ownsAt_unique {s : State} (h : Linked s) {w : Watcher} {r r' : Nat} (hr : OwnsAt s w r)
    (hr' : OwnsAt s w r') : r = r' := by
  obtain ⟨hlt, -⟩ := List.getElem?_eq_some_iff.mp hr
  exact (List.getElem?_inj hlt h.nodup).mp (hr.trans hr'.symm)

theorem ownsAt_of_row {s : State} {w : Watcher} {r : Nat} {row : Row} (hr : s.model[r]? = some row)
    (hw : row.watch = w.args.runstate) : OwnsAt s w r := by
  obtain ⟨hlt, -⟩ := List.getElem?_eq_some_iff.mp hr
  rw [OwnsAt, State.listed, List.map_append,
    List.getElem?_append_left (by rw [List.length_map]; exact hlt), List.getElem?_map, hr, ← hw]
  rfl

theorem row_of_ownsAt {s : State} {w : Watcher} {r : Nat} (h : OwnsAt s w r)
    (hlt : r < s.model.length) : ∃ row, s.model[r]? = some row ∧ row.watch = w.args.runstate := by
  rw [OwnsAt, State.listed, List.map_append,
    List.getElem?_append_left (by rw [List.length_map]; exact hlt), List.getElem?_map] at h
  exact Option.map_eq_some_iff.mp h

/-- A watcher's own row has its friendly name. -/
theorem nameAt_own {s : State} (h : Linked s) {w : Watcher} (hw : w ∈ s.watchers) {r : Nat}
    (hr : OwnsAt s w r) (hlt : r < s.model.length) : NameAt s.model w.args r := by
  obtain ⟨row, hrow, hwatch⟩ := row_of_ownsAt hr hlt
  obtain ⟨-, hname, -⟩ := h.own row (mem_listed (List.mem_of_getElem? hrow)) w hw hwatch.symm
  exact ⟨row, hrow, hname⟩

theorem firstOwn_above {s : State} (h : Linked s) {w : Watcher} (hf : FirstOwn s w) {r : Nat}
    (hr : OwnsAt s w r) : ∀ j < r, ¬ NameAt s.model w.args j := by
  intro j hj hn
  have hlt := ownsAt_lt hr
  have hle := length_listed_le s
  have hm := hf j (by omega) hn
  obtain ⟨r', hr'⟩ := List.mem_iff_getElem?.mp hm
  rw [List.getElem?_take] at hr'
  split at hr'
  · rename_i hr'j
    rw [List.getElem?_map] at hr'
    obtain ⟨row, hrow, hwatch⟩ := Option.map_eq_some_iff.mp hr'
    have he := ownsAt_unique h hr (ownsAt_of_row hrow hwatch)
    omega
  · cases hr'

theorem ownsAt_of_table {s s' : State} (hm : s'.model.map Row.plain = s.model.map Row.plain)
    (hp : s'.ui.pending = s.ui.pending) (w : Watcher) (r : Nat) :
    OwnsAt s' w r ↔ OwnsAt s w r := by
  have hl : s'.listed.map Row.watch = s.listed.map Row.watch := by
    rw [State.listed, State.listed, List.map_append, List.map_append, map_watch_plain s'.model, hm,
      ← map_watch_plain s.model, hp]
  rw [OwnsAt, OwnsAt, hl]

theorem ownsAt_started {s : State} {cur : Nat} {fileloc friendlyName servername serverip : QString}
    (h : Linked s) (hui : s.ui = .idle) {w : Watcher} (hw : w ∈ s.watchers) {r : Nat}
    (hr : OwnsAt (started s cur fileloc friendlyName servername serverip) w r) : OwnsAt s w r := by
  have hlt := h.bound w hw
  rw [OwnsAt, listed_started, List.map_append] at hr
  rw [OwnsAt, listed_of_pending (by rw [hui]; rfl)]
  rcases Nat.lt_or_ge r s.model.length with hlt' | hge
  · rwa [List.getElem?_append_left (by rw [List.length_map]; exact hlt')] at hr
  · obtain ⟨hlen, he⟩ := List.getElem?_eq_some_iff.mp hr
    rw [List.getElem_append_right (by rw [List.length_map]; exact hge)] at he
    simp only [List.map_cons, List.map_nil, List.getElem_singleton, newRow] at he
    omega

theorem sought_erased {s : State} {i : Nat} (h : Sought s)
    (hC : ∀ w ∈ s.watchers, ∀ r < s.model.length, OwnsAt s w r → i < r → w.pc.target ≠ some r)
    (hi : i < s.model.length) (hp : s.ui.pending = []) :
    Sought { s with model := s.model.eraseIdx i } := by
  intro w hw r hr
  have hl : s.listed = s.model := listed_of_pending hp
  have hl' : State.listed { s with model := s.model.eraseIdx i } = s.model.eraseIdx i :=
    listed_of_pending hp
  rw [OwnsAt, hl', ← List.eraseIdx_map, List.getElem?_eraseIdx] at hr
  split at hr
  · rename_i hri
    have hown : OwnsAt s w r := by rw [OwnsAt, hl]; exact hr
    exact (h w hw r hown).erase_below hri hi
  · rename_i hri
    have hown : OwnsAt s w (r + 1) := by rw [OwnsAt, hl]; exact hr
    have hlt := ownsAt_lt hown
    rw [hl] at hlt
    have ht := hC w hw (r + 1) hlt hown (by omega)
    exact (h w hw (r + 1) hown).erase_above (by omega) hlt ht

theorem sought_advance {s : State} {t : Nat} {reply : Option Int} {w : Watcher} {k : Effect}
    (hl : Linked s) (h : Sought s) (hC : Steady s (.watcher t reply))
    (hin : InTable s (.watcher t reply)) (hw : s.watchers[t]? = some w)
    (hk : startWatch s.serv.cells s.model w.args reply w.pc = some k) :
    Sought (s.advance t w k) := by
  have hplain := plain_advance t w (mark_inTable hin hw hk)
  intro v hv r hr
  refine Seeks.of_plain hplain ?_
  have howns : OwnsAt s v r := (ownsAt_of_table hplain rfl v r).mp hr
  have hmem : w ∈ s.watchers := List.mem_of_getElem? hw
  rcases (mem_set_iff hw).mp hv with rfl | hv
  · have howns' : OwnsAt s w r := howns
    have hle := length_listed_le s
    have hlt := ownsAt_lt howns'
    refine Seeks.act (h w hmem r howns') hk (by omega) (fun hlt => nameAt_own hl hmem howns' hlt) ?_
    intro hpc
    exact firstOwn_above hl (hC w hw hpc (List.mem_of_getElem? howns')) howns'
  · exact h v (List.mem_of_mem_eraseIdx hv) r howns

theorem sought_step {s s' : State} {e : Event} (hl : Linked s) (h : Sought s) (hC : Steady s e)
    (hin : InTable s e) (hs : step s e = some s') : Sought s' := by
  have hm := move_of_step hs
  rcases hm.table hin with ⟨hplain, hp⟩ | ⟨cur, fileloc, friendlyName, parts, hui, -, -, rfl⟩ |
    ⟨ok, row, -, hui, rfl⟩ | ⟨ok, i, rfl, hi, hlt, hp, rfl⟩
  · rcases hm.watchers with hws | ⟨w₀, hinit, hws⟩ | ⟨t, reply, w, k, hw, rfl, hk, rfl⟩
    · intro w hw r hr
      rw [hws] at hw
      exact (h w hw r ((ownsAt_of_table hplain hp w r).mp hr)).of_plain hplain
    · intro w hw r hr
      rw [hws] at hw
      rcases List.mem_append.mp hw with hw | hw
      · exact (h w hw r ((ownsAt_of_table hplain hp w r).mp hr)).of_plain hplain
      · rw [List.mem_singleton.mp hw, hinit]
        trivial
    · exact sought_advance hl h hC hin hw hk
  · intro w hw r hr
    rcases List.mem_append.mp hw with hw | hw
    · exact h w hw r (ownsAt_started hl hui hw hr)
    · rw [List.mem_singleton.mp hw]
      trivial
  · intro w hw r hr
    have hown : OwnsAt s w r := by
      rw [OwnsAt, State.listed, hui]
      simpa [OwnsAt, State.listed, Ui.pending] using hr
    have hle := length_listed_le s
    have hlt := ownsAt_lt hown
    exact (h w hw r hown).append row (by omega)
  · exact sought_erased h (hC i hi) hlt hp

end Errifier.Client
