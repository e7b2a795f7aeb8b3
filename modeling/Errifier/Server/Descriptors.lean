import Errifier.Machine.Pool
import Errifier.Machine.Run
import Errifier.Server.StartNotifier
import Mathlib.Data.List.Nodup
import Mathlib.Data.List.Perm.Subperm

/-!
# The inotify descriptors of the server process

Any number of `startNotifier` calls run at once. A descriptor is opened by
`inotify_init` and nothing ever closes one, so the open ones are those of the
calls in progress exactly as long as no call that has one returns.
-/
namespace Errifier.Server

set_option autoImplicit false

open Errifier.Text Errifier.Machine

/-- Every call so far and the inotify descriptors open in the process. -/
structure Process where
  calls : List Call
  opened : List Int

def Process.start : Process := ⟨[], []⟩

inductive ServerEvent where
  | call (filename : StdString) (stack : Buffer)
  | sys (c : Nat) (r : SysResult)
  deriving DecidableEq

/-- The kernel hands out a descriptor that is not open. -/
def Process.offers (s : Process) : SysResult → Prop
  | .fd fd => fd ∉ s.opened
  | _ => True

instance (s : Process) : ∀ r, Decidable (s.offers r)
  | .fd fd => inferInstanceAs (Decidable (fd ∉ s.opened))
  | .wd _ | .failed | .got _ | .none => isTrue trivial

/-- What a system call opens. -/
def opens : SysResult → List Int
  | .fd fd => if 0 ≤ fd then [fd] else []
  | _ => []

def Process.step (s : Process) : ServerEvent → Option Process
  | .call filename stack => some { s with calls := s.calls ++ [⟨filename, .init stack⟩] }
  | .sys c r =>
    match s.calls[c]? with
    | none => none
    | some call =>
      match startNotifier call.phase r with
      | none => none
      | some phase =>
        if s.offers r then
          some ⟨s.calls.set c { call with phase }, s.opened ++ opens r⟩
        else none

/-- The descriptor of a call in progress. -/
def Phase.held : Phase → Option Int
  | .addWatch fd _ | .read fd _ | .scan fd _ _ _ => if 0 ≤ fd then some fd else none
  | _ => none

def Phase.running : Phase → Bool
  | .returned _ => false
  | _ => true

/-- The calls that have not returned. -/
def Process.inProgress (s : Process) : List Call := s.calls.filter (·.phase.running)

/-- The next step of the call returns. -/
def Phase.finds : Phase → Prop
  | .scan _ buffer length i => Hits buffer length i
  | _ => False

/-- The open descriptors are those of the calls in progress. -/
def Exact (s : Process) : Prop := ∀ fd, fd ∈ s.opened ↔ ∃ c ∈ s.calls, c.phase.held = some fd

/-- No call that holds a descriptor finds the event it waits for. -/
def NeverFinds (s : Process) : ServerEvent → Prop
  | .call _ _ => True
  | .sys c _ => ∀ call ∈ s.calls[c]?, call.phase.held.isSome = true → ¬ call.phase.finds

/-- Two calls hold different descriptors. -/
def Call.Apart (a b : Call) : Prop := ∀ fd, a.phase.held = some fd → b.phase.held ≠ some fd

theorem Call.Apart.symm (a b : Call) (h : a.Apart b) : b.Apart a :=
  fun fd hb ha => h fd ha hb

/-- What holds whether or not descriptors leak. -/
structure Process.Sound (s : Process) : Prop where
  nodup : s.opened.Nodup
  held : ∀ c ∈ s.calls, ∀ fd, c.phase.held = some fd → fd ∈ s.opened
  apart : s.calls.Pairwise Call.Apart

theorem mem_opens {r : SysResult} {fd : Int} : fd ∈ opens r ↔ r = .fd fd ∧ 0 ≤ fd := by
  cases r with
  | fd fd' =>
    change fd ∈ (if 0 ≤ fd' then [fd'] else []) ↔ _
    rw [SysResult.fd.injEq]
    by_cases hp : 0 ≤ fd'
    · rw [if_pos hp, List.mem_singleton]
      constructor
      · intro he
        exact ⟨he.symm, by omega⟩
      · intro he
        exact he.1.symm
    · rw [if_neg hp]
      constructor
      · intro hm
        cases hm
      · rintro ⟨he, hfd⟩
        omega
  | _ => simp [opens]

theorem nodup_opens (r : SysResult) : (opens r).Nodup := by
  cases r with
  | fd fd =>
    change (if 0 ≤ fd then [fd] else []).Nodup
    by_cases hp : 0 ≤ fd
    · rw [if_pos hp]
      exact List.nodup_singleton fd
    · rw [if_neg hp]
      exact List.nodup_nil
  | _ => exact List.nodup_nil

/-- A step takes a descriptor, returns, or changes nothing about descriptors. -/
theorem held_cases {p p' : Phase} {r : SysResult} (h : startNotifier p r = some p') :
    (p.held = none ∧ ¬ p.finds ∧ ∀ fd, p'.held = some fd ↔ fd ∈ opens r) ∨
      (opens r = [] ∧ p.finds ∧ p'.held = none) ∨
      (opens r = [] ∧ ¬ p.finds ∧ p'.held = p.held) := by
  cases serves_of_startNotifier h with
  | inits buffer fd =>
    refine Or.inl ⟨rfl, not_false, fun fd' => ?_⟩
    change (if 0 ≤ fd then some fd else none) = some fd' ↔ _
    rw [mem_opens, SysResult.fd.injEq]
    by_cases hp : 0 ≤ fd
    · rw [if_pos hp, Option.some.injEq]
      constructor
      · intro he
        exact ⟨he, by omega⟩
      · intro he
        exact he.1
    · rw [if_neg hp]
      constructor
      · intro he
        cases he
      · rintro ⟨he, hfd⟩
        omega
  | finds fd buffer length i hh => exact Or.inr (Or.inl ⟨rfl, hh, rfl⟩)
  | passes fd buffer length i hl hm =>
    exact Or.inr (Or.inr ⟨rfl, fun hh => hh.2.2 hm, rfl⟩)
  | ends fd buffer length i hl =>
    exact Or.inr (Or.inr ⟨rfl, fun hh => hl ⟨hh.1, hh.2.1⟩, rfl⟩)
  | adds | fails | reads => exact Or.inr (Or.inr ⟨rfl, not_false, rfl⟩)

/-- What one step can do. -/
theorem step_sys {s s' : Process} {c : Nat} {r : SysResult} (h : s.step (.sys c r) = some s') :
    ∃ call phase, s.calls[c]? = some call ∧ startNotifier call.phase r = some phase ∧
      s.offers r ∧ s' = ⟨s.calls.set c { call with phase }, s.opened ++ opens r⟩ := by
  simp only [Process.step] at h
  cases hcall : s.calls[c]? with
  | none => simp [hcall] at h
  | some call =>
    cases hphase : startNotifier call.phase r with
    | none => simp [hcall, hphase] at h
    | some phase =>
      simp only [hcall, hphase] at h
      split at h
      · rename_i hoffers
        exact ⟨call, phase, rfl, hphase, hoffers, (Option.some.inj h).symm⟩
      · cases h

theorem sound_start : Process.start.Sound := by
  constructor
  · exact List.nodup_nil
  · intro c hc
    cases hc
  · exact List.Pairwise.nil

theorem Process.Sound.call {s : Process} (h : s.Sound) (filename : StdString) (stack : Buffer) :
    Process.Sound { s with calls := s.calls ++ [⟨filename, .init stack⟩] } := by
  constructor
  · exact h.nodup
  · intro c hc fd hfd
    rcases List.mem_append.mp hc with hc | hc
    · exact h.held c hc fd hfd
    · rw [List.mem_singleton.mp hc] at hfd
      cases hfd
  · refine pairwise_append_one h.apart fun c _ fd _ hfd => ?_
    cases hfd

theorem Process.Sound.sys {s : Process} (h : s.Sound) {c : Nat} {call : Call} {r : SysResult}
    {phase : Phase} (hcall : s.calls[c]? = some call)
    (hphase : startNotifier call.phase r = some phase) (hoffers : s.offers r) :
    Process.Sound ⟨s.calls.set c { call with phase }, s.opened ++ opens r⟩ := by
  have hmem := List.mem_of_getElem? hcall
  have hnew : ∀ fd ∈ opens r, fd ∉ s.opened := by
    intro fd hfd
    obtain ⟨rfl, -⟩ := mem_opens.mp hfd
    exact hoffers
  have hheld : ∀ fd, phase.held = some fd → fd ∈ opens r ∨ call.phase.held = some fd := by
    intro fd hfd
    rcases held_cases hphase with ⟨-, -, hh⟩ | ⟨-, -, hh⟩ | ⟨-, -, hh⟩
    · exact Or.inl ((hh fd).mp hfd)
    · rw [hh] at hfd
      cases hfd
    · exact Or.inr (hh ▸ hfd)
  constructor
  · refine List.nodup_append.mpr ⟨h.nodup, nodup_opens r, fun a ha b hb hab => ?_⟩
    exact hnew b hb (hab ▸ ha)
  · intro x hx fd hfd
    rcases (mem_set_iff hcall).mp hx with rfl | hx
    · rcases hheld fd hfd with ho | ho
      · exact List.mem_append_right _ ho
      · exact List.mem_append_left _ (h.held call hmem fd ho)
    · exact List.mem_append_left _ (h.held x (List.mem_of_mem_eraseIdx hx) fd hfd)
  · refine pairwise_set Call.Apart.symm h.apart hcall fun x hx fd hfd hfd' => ?_
    have hopen := h.held x (List.mem_of_mem_eraseIdx hx) fd hfd
    rcases hheld fd hfd' with ho | ho
    · exact hnew fd ho hopen
    · exact pairwise_other Call.Apart.symm h.apart hcall hx fd hfd ho

theorem Process.Sound.step {s s' : Process} {e : ServerEvent} (h : s.Sound)
    (hs : s.step e = some s') : s'.Sound := by
  cases e with
  | call filename stack =>
    obtain rfl := Option.some.inj hs
    exact h.call filename stack
  | sys c r =>
    obtain ⟨call, phase, hcall, hphase, hoffers, rfl⟩ := step_sys hs
    exact h.sys hcall hphase hoffers

theorem exact_call {s : Process} (h : Exact s) (filename : StdString) (stack : Buffer) :
    Exact { s with calls := s.calls ++ [⟨filename, .init stack⟩] } := by
  intro fd
  rw [h fd]
  constructor
  · rintro ⟨c, hc, hfd⟩
    exact ⟨c, List.mem_append_left _ hc, hfd⟩
  · rintro ⟨c, hc, hfd⟩
    rcases List.mem_append.mp hc with hc | hc
    · exact ⟨c, hc, hfd⟩
    · rw [List.mem_singleton.mp hc] at hfd
      cases hfd

theorem exact_sys {s : Process} (hsound : s.Sound) (h : Exact s) {c : Nat} {call : Call}
    {r : SysResult} {phase : Phase} (hcall : s.calls[c]? = some call)
    (hphase : startNotifier call.phase r = some phase) :
    Exact ⟨s.calls.set c { call with phase }, s.opened ++ opens r⟩ ↔
      (call.phase.held.isSome = true → ¬ call.phase.finds) := by
  have hbefore : ∀ fd, (∃ x ∈ s.calls, x.phase.held = some fd) ↔
      call.phase.held = some fd ∨ ∃ x ∈ s.calls.eraseIdx c, x.phase.held = some fd := by
    intro fd
    simp only [mem_iff_eraseIdx hcall, or_and_right, exists_or, exists_eq_left]
  have hafter : ∀ fd, (∃ x ∈ s.calls.set c { call with phase }, x.phase.held = some fd) ↔
      phase.held = some fd ∨ ∃ x ∈ s.calls.eraseIdx c, x.phase.held = some fd := by
    intro fd
    simp only [mem_set_iff hcall, or_and_right, exists_or, exists_eq_left]
  unfold Exact at h ⊢
  simp only [List.mem_append, h, hbefore, hafter]
  rcases held_cases hphase with ⟨hnone, hfinds, hh⟩ | ⟨ho, hfinds, hh⟩ | ⟨ho, hfinds, hh⟩
  · refine ⟨fun _ _ => hfinds, fun _ fd => ?_⟩
    rw [hnone, hh fd]
    simp only [reduceCtorEq, false_or]
    exact or_comm
  · constructor
    · intro hall hsome _
      obtain ⟨fd, hfd⟩ := Option.isSome_iff_exists.mp hsome
      rcases (hall fd).mp (Or.inl (Or.inl hfd)) with hp | ⟨x, hx, hxfd⟩
      · rw [hh] at hp
        cases hp
      · exact pairwise_other Call.Apart.symm hsound.apart hcall hx fd hxfd hfd
    · intro hcond fd
      have hnone : call.phase.held = none := by
        cases hheld : call.phase.held with
        | none => rfl
        | some fd => exact absurd hfinds (hcond (by rw [hheld]; rfl))
      rw [hnone, ho, hh]
      simp
  · refine ⟨fun _ _ => hfinds, fun _ fd => ?_⟩
    rw [ho, hh]
    simp

theorem exact_step {s s' : Process} {e : ServerEvent} (hsound : s.Sound) (h : Exact s)
    (hs : s.step e = some s') : Exact s' ↔ NeverFinds s e := by
  cases e with
  | call filename stack =>
    obtain rfl := Option.some.inj hs
    exact ⟨fun _ => trivial, fun _ => exact_call h filename stack⟩
  | sys c r =>
    obtain ⟨call, phase, hcall, hphase, hoffers, rfl⟩ := step_sys hs
    rw [exact_sys hsound h hcall hphase]
    unfold NeverFinds
    dsimp only
    rw [hcall]
    simp only [Option.mem_some_iff, forall_eq']

/-- Then there are at most as many as calls in progress. -/
theorem length_opened_le {s : Process} (hsound : s.Sound) (h : Exact s) :
    s.opened.length ≤ s.inProgress.length := by
  have hsub : s.opened ⊆ s.inProgress.filterMap fun c => c.phase.held := by
    intro fd hfd
    obtain ⟨c, hc, hheld⟩ := (h fd).mp hfd
    have hrun : c.phase.running = true := by
      cases hphase : c.phase with
      | returned r => rw [hphase] at hheld; cases hheld
      | _ => rfl
    have hin : c ∈ s.inProgress := List.mem_filter.mpr ⟨hc, hrun⟩
    exact List.mem_filterMap.mpr ⟨c, hin, hheld⟩
  calc s.opened.length
      ≤ (s.inProgress.filterMap fun c => c.phase.held).length :=
        (List.subperm_of_subset hsound.nodup hsub).length_le
    _ ≤ s.inProgress.length := List.length_filterMap_le _ _

/-- Along a run the open descriptors are those of the calls in progress, and no
more than these, exactly when no call that holds one finds the event it waits for. -/
theorem descriptors_exact_iff (es : List ServerEvent) :
    Along Process.step (fun s => Exact s ∧ s.opened.length ≤ s.inProgress.length)
        Process.start es ↔
      Steps Process.step NeverFinds Process.start es := by
  have hstart : Exact Process.start := fun fd => by simp [Process.start]
  refine along_iff_steps (I := Process.Sound) (fun _ _ _ h hs => h.step hs) ?_ sound_start
    ⟨hstart, length_opened_le sound_start hstart⟩ es
  intro s e s' hI h hs
  have hstep := exact_step hI h.1 hs
  constructor
  · intro h'
    exact hstep.mp h'.1
  · intro hC
    have h' := hstep.mpr hC
    exact ⟨h', length_opened_le (hI.step hs) h'⟩

/-- One modification of the watched file is notified. -/
def notifiedOnce : List ServerEvent :=
  [.call [102] [], .sys 0 (.fd 3), .sys 0 (.wd 1),
   .sys 0 (.got (InotifyEvent.bytes ⟨1, 2, 0, []⟩)), .sys 0 .none]

theorem returned_call_leaks : ∃ s c, run Process.step Process.start notifiedOnce = some s ∧
    s.calls = [c] ∧ c.phase = .returned 1 ∧ s.opened = [3] :=
  ⟨_, _, rfl, rfl, rfl, rfl⟩

end Errifier.Server
