import Errifier.Client.Alignment
import Errifier.Text.EntryCodec

/-!
# The address a row is looked up under

The start handler inserts the server's address under its name before the watch
is known to run, `std::map::insert` keeps an older value, and removing a server
leaves the map alone. So a row finds the address it was connected to exactly
when, at its start, the name had no address yet or that one.
-/
namespace Errifier.Client

set_option autoImplicit false

open Errifier.Text Errifier.Machine

theorem request_ok {s : State} {cur : Nat} {fileloc friendlyName : QString}
    {parts : QString × QString} (h : s.request cur fileloc friendlyName = .ok parts) :
    fileloc ≠ [] ∧ friendlyName ≠ [] ∧ parts = splitEntry (s.currentText cur) ∧
      fileAlreadyMonitored (toStdString parts.1) (toStdString fileloc) (toStdString friendlyName)
        s.model = false := by
  unfold State.request at h
  split at h
  · rename_i hne
    dsimp only at h
    split at h
    · cases h
    · rename_i hmon
      cases h
      exact ⟨hne.1, hne.2, rfl, Bool.eq_false_iff.mpr hmon⟩
  · cases h

/-- Name and address of the selected entry, as the start handler read them. -/
def Row.server (row : Row) : QString × QString := splitEntry (row.entry.elim [] (·.text))

theorem newRow_server {s : State} {cur : Nat} {fileloc friendlyName : QString}
    {parts : QString × QString} (h : s.request cur fileloc friendlyName = .ok parts) :
    (newRow s cur fileloc friendlyName parts.1).server = parts :=
  (request_ok h).2.2.1.symm

theorem Row.server_of_plain {a b : Row} (h : a.plain = b.plain) : a.server = b.server := by
  unfold Row.server
  rw [(Row.fields_of_plain h).2.2.2.2]

/-- A row carries the name of the entry it was started from. -/
def Named (s : State) : Prop := ∀ row ∈ s.listed, row.servername = row.server.1

theorem named_start : Named start := by
  intro row hr
  cases hr

theorem Named.step {s s' : State} {e : Event} (h : Named s) (hC : InTable s e)
    (hs : Client.step s e = some s') : Named s' := by
  intro row' hr'
  rcases (move_of_step hs).mem_listed hC hr' with
    ⟨row, hr, hp⟩ | ⟨cur, fileloc, friendlyName, parts, -, -, hreq, rfl, rfl⟩
  · rw [(Row.fields_of_plain hp).1, Row.server_of_plain hp]
    exact h row hr
  · rw [newRow_server hreq]
    rfl

theorem named_of_reachable {s : State} (h : ReachableBy Client.step InTable start s) : Named s :=
  h.invariant (fun _ _ _ h hC hs => h.step hC hs) named_start

/-- The first thread started on a run-state cell. -/
def State.first (s : State) (cell : Nat) : Option Watcher :=
  s.watchers.find? fun w => w.args.runstate = cell

/-- The first watch of every listed row was connected to the address of the
entry that was selected. -/
def Connected (s : State) : Prop :=
  ∀ row ∈ s.listed, ∃ w, s.first row.watch = some w ∧ w.args.ip = toStdString row.server.2

theorem connected_start : Connected start := by
  intro row hr
  cases hr

theorem find?_set_args {l : List Watcher} {t cell : Nat} {w w' v : Watcher} (hw : l[t]? = some w)
    (hargs : w'.args = w.args)
    (h : (l.find? fun w => w.args.runstate = cell) = some v) :
    ∃ v', ((l.set t w').find? fun w => w.args.runstate = cell) = some v' ∧ v'.args = v.args := by
  induction l generalizing t with
  | nil => cases h
  | cons a l ih =>
    cases t with
    | zero =>
      obtain rfl := Option.some.inj hw
      rw [List.set_cons_zero, List.find?_cons, hargs]
      rw [List.find?_cons] at h
      split
      · rename_i hc
        rw [hc] at h
        obtain rfl := Option.some.inj h
        exact ⟨w', rfl, hargs⟩
      · rename_i hc
        rw [hc] at h
        exact ⟨v, h, rfl⟩
    | succ t =>
      rw [List.set_cons_succ, List.find?_cons]
      rw [List.find?_cons] at h
      split
      · rename_i hc
        rw [hc] at h
        exact ⟨a, rfl, congrArg Watcher.args (Option.some.inj h)⟩
      · rename_i hc
        rw [hc] at h
        exact ih hw h

/-- A later step leaves the first watcher of a cell the first one. -/
theorem Move.first {s s' : State} {e : Event} (h : Move s e s') {cell : Nat} {v : Watcher}
    (hv : s.first cell = some v) : ∃ v', s'.first cell = some v' ∧ v'.args = v.args := by
  have append : ∀ new : Watcher,
      ((s.watchers ++ [new]).find? fun w => w.args.runstate = cell) = some v := by
    intro new
    rw [List.find?_append, show s.watchers.find? _ = some v from hv]
    rfl
  cases h with
  | started => exact ⟨v, append _, rfl⟩
  | respawned => exact ⟨v, append _, rfl⟩
  | watched t reply w k hw hk => exact find?_set_args hw rfl hv
  | _ => exact ⟨v, hv, rfl⟩

theorem Connected.step {s s' : State} {e : Event} (h : Connected s) (hl : Linked s)
    (hC : InTable s e) (hs : Client.step s e = some s') : Connected s' := by
  have hm := move_of_step hs
  intro row' hr'
  rcases hm.mem_listed hC hr' with
    ⟨row, hr, hp⟩ | ⟨cur, fileloc, friendlyName, parts, -, -, hreq, rfl, rfl⟩
  · obtain ⟨v, hv, hip⟩ := h row hr
    obtain ⟨v', hv', hargs⟩ := hm.first hv
    rw [(Row.fields_of_plain hp).2.2.2.1, Row.server_of_plain hp]
    exact ⟨v', hv', by rw [hargs, hip]⟩
  · refine ⟨⟨⟨s.serv.cells.length, toStdString fileloc, toStdString parts.2,
      toStdString friendlyName, toStdString parts.1⟩, .init⟩, ?_, ?_⟩
    -- the cell is new, so no older watcher has it
    · have hnone : (s.watchers.find? fun w => w.args.runstate = s.serv.cells.length) = none := by
        refine List.find?_eq_none.mpr fun w hw => ?_
        have hlt := hl.bound w hw
        simp only [decide_eq_true_eq]
        omega
      change (s.watchers ++ [_]).find? _ = _
      rw [List.find?_append]
      change Option.or (s.watchers.find? fun w => w.args.runstate = s.serv.cells.length) _ = _
      rw [hnone]
      simp [newRow]
    · rw [newRow_server hreq]

/-- Double-clicking the row connects to the address that its watch was started
with. -/
def KeepsServer (s : State) (row : Row) : Prop :=
  s.ipnamemap.lookup row.servername = some row.server.2

instance (s : State) (row : Row) : Decidable (KeepsServer s row) :=
  inferInstanceAs (Decidable (_ = _))

/-- A watch is started under a name that has no address in `ipnamemap` yet, or
the address it is connected to. -/
def SameAddress (s : State) (e : Event) : Prop :=
  ∀ new ∈ s.starting e, ∀ ip ∈ s.ipnamemap.lookup new.servername, ip = new.server.2

instance (s : State) (e : Event) : Decidable (SameAddress s e) :=
  inferInstanceAs (Decidable (∀ new ∈ s.starting e, ∀ ip ∈ s.ipnamemap.lookup new.servername,
    ip = new.server.2))

theorem keepsServer_of_plain {s s' : State} {e : Event} (hm : Move s e s') {row row' : Row}
    (hp : row'.plain = row.plain) (h : KeepsServer s row) : KeepsServer s' row' := by
  unfold KeepsServer at h ⊢
  rw [(Row.fields_of_plain hp).1, Row.server_of_plain hp]
  exact hm.lookup h

/-- What a step does to the addresses: it keeps those of the rows that were
listed, and the new row's is right exactly when the step meets `SameAddress`. -/
theorem keepsServer_step {s s' : State} {e : Event} (h : ∀ row ∈ s.listed, KeepsServer s row)
    (hC : InTable s e) (hs : step s e = some s') :
    (∀ row ∈ s'.listed, KeepsServer s' row) ↔ SameAddress s e := by
  have hm := move_of_step hs
  rcases starting_cases hC hs with
    ⟨hnone, hsub⟩ | ⟨cur, fileloc, friendlyName, parts, hui, hreq, hsome, rfl⟩
  · constructor
    · intro _ new hnew
      rw [hnone] at hnew
      cases hnew
    · intro _ row' hr'
      obtain ⟨row, hr, hp⟩ := List.mem_map.mp (hsub.subset (List.mem_map_of_mem hr'))
      exact keepsServer_of_plain hm hp.symm (h row hr)
  · have hnew : KeepsServer (started s cur fileloc friendlyName parts.1 parts.2)
        (newRow s cur fileloc friendlyName parts.1) ↔
        (s.ipnamemap.lookup parts.1).getD parts.2 = parts.2 := by
      unfold KeepsServer
      rw [newRow_server hreq]
      change (insertIp s.ipnamemap parts.1 parts.2).lookup parts.1 = _ ↔ _
      rw [lookup_insertIp_self, Option.some.injEq]
    have hcond : SameAddress s e ↔ (s.ipnamemap.lookup parts.1).getD parts.2 = parts.2 := by
      unfold SameAddress
      rw [hsome]
      simp only [Option.mem_some_iff, forall_eq']
      rw [newRow_server hreq]
      change (∀ ip ∈ s.ipnamemap.lookup parts.1, ip = parts.2) ↔ _
      cases s.ipnamemap.lookup parts.1 <;> simp
    rw [hcond, ← hnew, listed_started]
    constructor
    · intro hall
      exact hall _ (List.mem_append_right _ (List.mem_singleton_self _))
    · intro hn row hr
      rcases List.mem_append.mp hr with hr | hr
      · exact keepsServer_of_plain hm rfl (h row (mem_listed hr))
      · rw [List.mem_singleton.mp hr]
        exact hn

/-- Every listed row keeps the address of its entry, to which its first watch was
connected, all along a run without stale `setData` exactly when every watch of the run is
started under a fresh name or with the name's address. -/
theorem rows_keep_server_iff {es : List Event} (h : Steps step InTable start es) :
    Along step (fun s => (∀ row ∈ s.listed, KeepsServer s row) ∧ Connected s) start es ↔
      Steps step SameAddress start es := by
  refine h.along_iff (I := fun s => Consistent s ∧ Connected s)
    (fun _ _ _ h hC hs => ⟨h.1.step hC hs, h.2.step h.1.linked hC hs⟩) ?_
    ⟨consistent_start, connected_start⟩ ⟨fun _ hr => (by cases hr), connected_start⟩
  intro s e s' hI h hC hs
  have hstep := keepsServer_step h.1 hC hs
  constructor
  · intro h'
    exact hstep.mp h'.1
  · intro hsame
    exact ⟨hstep.mpr hsame, hI.2.step hI.1.linked hC hs⟩

theorem reconnected_row_keeps_server : ∃ s row, run step start failsAndReconnects = some s ∧
    s.model = [row] ∧ KeepsServer s row := by
  refine ⟨_, _, rfl, rfl, ?_⟩
  have hsame : Steps step SameAddress start failsAndReconnects := by decide
  exact (((rows_keep_server_iff (by decide : Steps step InTable start failsAndReconnects)).mpr
    hsame).last rfl).1 _ (List.mem_append_left _ (List.mem_singleton_self _))

/-- The name `A` is added a second time, with another address. -/
def readded : List Event :=
  [.addServer ['A'] ['1'], .startWatch 1 ['f'] ['x'] (.found .started), .ui true,
   .addServer ['A'] ['2'], .startWatch 2 ['g'] ['y'] (.found .started), .ui true]

theorem readded_row_loses_server : ∃ s, run step start readded = some s ∧
    ∃ row ∈ s.model, row.server.2 = ['2'] ∧ ¬ KeepsServer s row := by
  refine ⟨_, rfl, ?_⟩
  decide

end Errifier.Client
