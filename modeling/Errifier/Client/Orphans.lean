import Errifier.Client.Address

/-!
# Every watched server is in the list

A row carries a name and no key of the entry it was started from. Names are
compared after a conversion that merges characters, so a removal may take rows
of other names too, but it never leaves one of its own.
-/
namespace Errifier.Client

set_option autoImplicit false

open Errifier.Text Errifier.Machine
open WorkerThread (named)

/-- Connecting to the empty address fails. -/
def Connects (s : State) : Event → Prop
  | .startWatch cur _ _ out =>
    (splitEntry (s.currentText cur)).2 = [] → out = .notAuthenticated ∨ out = .refused
  | _ => True

instance (s : State) : ∀ e, Decidable (Connects s e)
  | .startWatch cur _ _ _ =>
    inferInstanceAs (Decidable ((splitEntry (s.currentText cur)).2 = [] → _ ∨ _))
  | .addServer _ _ | .removeServer _ | .doubleClick _ _ _ _ | .doubleClickThrows _ _ | .ui _
  | .watcher _ _ => isTrue trivial

/-- An entry of the list has this name where the handlers look for it. -/
def State.Lists (s : State) (servername : QString) : Prop :=
  ∃ entry ∈ s.serverlist, (splitEntry entry.text).1 = servername

/-- The name that is being removed. -/
def Ui.removed : Ui → Option QString
  | .removeThreads n _ | .removeRows n _ => some n
  | _ => none

/-- A row's name is in the list, or the row is about to be removed. -/
def Supported (s : State) : Prop :=
  ∀ row ∈ s.listed, s.Lists row.servername ∨
    ∃ n, s.ui.removed = some n ∧ toStdString row.servername = toStdString n

/-- A step that lists no new row, and keeps the list and the name being removed. -/
theorem supported_keep {s s' : State} (h : Supported s)
    (hl : s'.serverlist = s.serverlist) (hr : s'.ui.removed = s.ui.removed)
    (hold : ∀ row' ∈ s'.listed, ∃ row ∈ s.listed, row'.plain = row.plain) : Supported s' := by
  intro row' hr'
  obtain ⟨row, hrow, hp⟩ := hold row' hr'
  have hname := (Row.fields_of_plain hp).1
  rw [State.Lists, hl, hr, hname]
  exact h row hrow

/-- The selected entry gives the new row its name. -/
theorem lists_of_request {s : State} {cur : Nat} {fileloc friendlyName : QString}
    {parts : QString × QString} (hreq : s.request cur fileloc friendlyName = .ok parts)
    (hne : (splitEntry (s.currentText cur)).2 ≠ []) : s.Lists parts.1 := by
  have hparts := (request_ok hreq).2.2.1
  cases he : s.serverlist[cur]? with
  | none =>
    have hnil : s.currentText cur = [] := by rw [State.currentText, he]; rfl
    rw [hnil] at hne
    exact absurd (by decide) hne
  | some entry =>
    have htext : s.currentText cur = entry.text := by rw [State.currentText, he]; rfl
    rw [hparts, htext]
    exact ⟨entry, List.mem_of_getElem? he, rfl⟩

theorem supported_started {s : State} (h : Supported s) {cur : Nat}
    {fileloc friendlyName : QString} {parts : QString × QString} (hui : s.ui = .idle)
    (hlists : s.Lists parts.1) :
    Supported (started s cur fileloc friendlyName parts.1 parts.2) := by
  intro row hr
  rw [listed_started] at hr
  refine Or.inl ?_
  rcases List.mem_append.mp hr with hr | hr
  · rcases h row (mem_listed hr) with hlist | ⟨n, hn, -⟩
    · exact hlist
    · rw [hui] at hn
      cases hn
  · rw [List.mem_singleton.mp hr]
    exact hlists

/-- The entry is taken out of the list; the rows of its name are still there. -/
theorem supported_removing {s : State} (h : Supported s) (hui : s.ui = .idle) (cur : Nat) :
    Supported (s.removeServer cur) := by
  intro row hr
  have hr : row ∈ s.model := by rwa [listed_of_pending (by rfl)] at hr
  rcases h row (mem_listed hr) with ⟨entry, hentry, hname⟩ | ⟨n, hn, -⟩
  · obtain ⟨j, hj⟩ := List.mem_iff_getElem?.mp hentry
    by_cases hcur : j = cur
    · refine Or.inr ⟨_, rfl, congrArg toStdString ?_⟩
      rw [← hname, State.currentText, ← hcur, hj]
      rfl
    · exact Or.inl ⟨entry, List.mem_eraseIdx_iff_getElem?.mpr ⟨j, hcur, hj⟩, hname⟩
  · rw [hui] at hn
    cases hn

/-- The loop over the rows has walked past all that are left. -/
theorem supported_rowsDone {s : State} (h : Supported s) (ha : Aligned s) {n : QString} {i : Nat}
    (hui : s.ui = .removeRows n i) (hr : s.model[i]? = none) :
    Supported { s with ui := .idle } := by
  simp only [Aligned, hui] at ha
  obtain ⟨-, hclean⟩ := ha
  have hlen : (s.model.map Row.thread).length ≤ i := by
    rw [List.length_map]
    exact List.getElem?_eq_none_iff.mp hr
  rw [List.take_of_length_le hlen] at hclean
  intro row hrow
  rw [listed_of_pending (s := { s with ui := .idle }) rfl] at hrow
  rcases h row (mem_listed hrow) with hlist | ⟨n', hn', hname⟩
  · exact Or.inl hlist
  · rw [hui] at hn'
    obtain rfl := Option.some.inj hn'
    have hfalse := hclean row.thread (List.mem_map_of_mem hrow)
    rw [(named_iff n row.thread).mpr hname.symm] at hfalse
    cases hfalse

theorem supported_step {s s' : State} {e : Event} (h : Supported s) (ha : Aligned s)
    (hin : InTable s e) (hC : Connects s e) (hs : step s e = some s') : Supported s' := by
  have hm := move_of_step hs
  have keep : s'.serverlist = s.serverlist → s'.ui.removed = s.ui.removed →
      (∀ cur fileloc friendlyName, e ≠ .startWatch cur fileloc friendlyName (.found .started)) →
      Supported s' := by
    intro hl hr he
    refine supported_keep h hl hr fun row' hr' => ?_
    rcases hm.mem_listed hin hr' with hold | ⟨cur, fileloc, friendlyName, -, -, he', -⟩
    · exact hold
    · exact absurd he' (he cur fileloc friendlyName)
  cases hm with
  | listed servername serverip entry hui =>
    intro row hr
    rcases h row hr with ⟨e, he, hname⟩ | hrem
    · exact Or.inl ⟨e, List.mem_append_left _ he, hname⟩
    · exact Or.inr hrem
  | removing cur hui hsel => exact supported_removing h hui cur
  | started cur fileloc friendlyName parts hui hreq =>
    refine supported_started h hui (lists_of_request hreq fun hempty => ?_)
    rcases hC hempty with hout | hout <;> cases hout
  | rowsDone ok n i hui hr => exact supported_rowsDone h ha hui hr
  | quiet | unstarted => exact fun row hr => h row hr
  | crashed _ row r hui he =>
    refine keep rfl (by rw [hui]; rfl) fun _ _ _ hstart => ?_
    rw [hstart] at he
    cases he
  | watched t reply w k hw hk => exact keep rfl rfl fun _ _ _ he => by cases he
  | gaveUp ok ws hui =>
    refine keep rfl ?_ fun _ _ _ he => by cases he
    rcases hui with ⟨r, hui, -⟩ | ⟨r, hui, -⟩ | ⟨r, ip, hui⟩ | ⟨r, ip, hui⟩ <;> rw [hui] <;> rfl
  | activated ok r hui =>
    refine keep rfl ?_ fun _ _ _ he => by cases he
    rcases hui with hui | hui <;> rw [hui] <;> rfl
  | _ => exact keep rfl (by simp [Ui.removed, *]) fun _ _ _ he => by cases he

theorem supported_start : Supported start := by
  intro row hr
  cases hr

theorem supported_along {es : List Event}
    (h : Steps step (fun s e => InTable s e ∧ Connects s e) start es) :
    Along step (fun s => Consistent s ∧ Supported s) start es := by
  refine h.along (fun s e s' hI hC hs => ?_) ⟨consistent_start, supported_start⟩
  exact ⟨hI.1.step hC.1 hs, supported_step hI.2 hI.1.aligned hC.1 hC.2 hs⟩

/-- Between two handlers every row's name is in the list, as long as no `setData` goes
through an index past the end of the table. So when the last entry of a name is gone there
is no row of it, and no entry of `threadList` belongs to one. -/
theorem rows_listed {es : List Event}
    (h : Steps step (fun s e => InTable s e ∧ Connects s e) start es) :
    Along step (fun s => s.ui = .idle →
      (∀ row ∈ s.model, ∃ entry ∈ s.serverlist, (splitEntry entry.text).1 = row.servername) ∧
      ∀ servername, (∀ entry ∈ s.serverlist, (splitEntry entry.text).1 ≠ servername) →
        (∀ row ∈ s.model, row.servername ≠ servername) ∧
        ∀ (i : Nat) (thread : ThreadWrap), s.serv.threadList[i]? = some thread →
          ∃ row, s.model[i]? = some row ∧ thread.servername = toStdString row.servername ∧
            row.servername ≠ servername) start es := by
  refine (supported_along h).mono fun s hs hui => ?_
  obtain ⟨hcon, hsup⟩ := hs
  have hrows : ∀ row ∈ s.model, s.Lists row.servername := by
    intro row hr
    rcases hsup row (mem_listed hr) with hlist | ⟨n, hn, -⟩
    · exact hlist
    · rw [hui] at hn
      cases hn
  have hgone : ∀ servername, (∀ entry ∈ s.serverlist, (splitEntry entry.text).1 ≠ servername) →
      ∀ row ∈ s.model, row.servername ≠ servername := by
    intro servername hno row hr he
    obtain ⟨entry, hentry, hname⟩ := hrows row hr
    exact hno entry hentry (hname.trans he)
  refine ⟨hrows, fun servername hno => ⟨hgone servername hno, fun i thread ht => ?_⟩⟩
  rw [hcon.aligned.idle hui, List.getElem?_map] at ht
  obtain ⟨row, hr, rfl⟩ := Option.map_eq_some_iff.mp ht
  exact ⟨row, hr, rfl, hgone servername hno row (List.mem_of_getElem? hr)⟩

/-- Watches on `HOST` and on `A`, and `A` is removed. -/
def removesA : List Event :=
  [.addServer ['A'] ['1'], .startWatch 0 ['f'] ['x'] (.found .started), .ui true,
   .startWatch 1 ['f'] ['y'] (.found .started), .ui true, .removeServer 1] ++
    List.replicate 6 (.ui true)

theorem host_row_listed : ∃ s row, run step start removesA = some s ∧ s.model = [row] ∧
    ∃ entry ∈ s.serverlist, (splitEntry entry.text).1 = row.servername := by
  refine ⟨_, _, rfl, rfl, ?_⟩
  have hsteps : Steps step (fun s e => InTable s e ∧ Connects s e) start removesA := by decide
  exact ((rows_listed hsteps).last rfl rfl).1 _ (List.mem_singleton_self _)

/-- The watch on `A` fails and has taken its index when `A` is removed. -/
def marksRemovedA : List Event :=
  [.addServer ['A'] ['1'], .startWatch 1 ['f'] ['x'] (.found .started), .ui true] ++
  List.replicate 9 (.watcher 0 none) ++
  [.removeServer 1, .ui true, .ui true, .ui true, .ui true, .watcher 0 none]

theorem nameless_row_unlisted : ∃ s row, run step start marksRemovedA = some s ∧
    s.ui = .idle ∧ s.model = [row] ∧ s.serverlist ≠ [] ∧
    ¬ ∃ entry ∈ s.serverlist, (splitEntry entry.text).1 = row.servername := by
  refine ⟨_, _, rfl, rfl, rfl, ?_, ?_⟩
  · exact List.cons_ne_nil _ _
  · decide

end Errifier.Client
