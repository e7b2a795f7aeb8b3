import Errifier.Client.Watch
import Errifier.Machine.Run
import Errifier.Server.StartNotifier

/-!
# One watcher, its server and the file

The watcher's connection is healthy and its cell stays THREAD_RUN; the file may
be modified between any two steps. Every call of `startNotifier` watches the file
on an instance of its own, so a modification is announced exactly when it is made
while a call watches or while an alarm is on its way.
-/
namespace Errifier.System

set_option autoImplicit false

open Errifier.Text Errifier.Machine Errifier.Client Errifier.Server

/-- An inotify instance; its queue holds the numbers of the modifications whose
events are queued. -/
structure Instance where
  watching : Bool
  queue : List Nat
  deriving DecidableEq

/-- `instances` is indexed by descriptor. `began` is the number of modifications
before the first `inotify_add_watch`, and `shown` has for every alarm the number
of modifications before it. -/
structure Alarm where
  args : WatchArgs
  cells : List Int
  pc : Pc
  call : Option Phase
  instances : List Instance
  modified : Nat
  began : Option Nat
  shown : List Nat

/-- The watcher's next step, the server that takes up the pending request, its next step (a
read takes `k` events), or a modification. -/
inductive Beat where
  | client
  | serve (stack : Buffer)
  | server (k : Nat)
  | modify
  deriving DecidableEq

namespace Alarm

/-- A watcher that has just been started. -/
def start (filename ip friendlyname servername : StdString) : Alarm where
  args := ⟨0, filename, ip, friendlyname, servername⟩
  cells := [THREAD_RUN]
  pc := .init
  call := none
  instances := []
  modified := 0
  began := none
  shown := []

/-- What the pending call has returned. -/
def reply (s : Alarm) : Option Int :=
  match s.call with
  | some (.returned r) => some r
  | _ => none

/-- The alarms among what a step shows. -/
def alarmed (s : Alarm) : Option Notice → List Nat
  | some (.alarm _ _) => [s.modified]
  | _ => []

/-- A step of `startWatch`; it waits for the reply. -/
def client (s : Alarm) : Option Alarm :=
  if s.pc = .call ∧ s.reply = none then none
  else (startWatch s.cells [] s.args s.reply s.pc).map fun k =>
    { s with
      pc := k.pc
      call := if s.pc = .call then none else s.call
      shown := s.shown ++ s.alarmed k.notice }

def modifyEvent : InotifyEvent := ⟨1, 2, 0, []⟩

/-- The kernel's side of the system call that the handler is at. A read blocks on
an empty queue and takes some of the events from its front. -/
def kernel (s : Alarm) (k : Nat) : Phase → Option (SysResult × List Instance)
  | .init _ => some (.fd s.instances.length, s.instances ++ [⟨false, []⟩])
  | .addWatch fd _ =>
    some (.wd 1, s.instances.modify fd.toNat fun inst => { inst with watching := true })
  | .read fd _ =>
    match s.instances[fd.toNat]? with
    | none => none
    | some inst =>
      if 0 < k ∧ k ≤ inst.queue.length then
        some (.got ((inst.queue.take k).flatMap fun _ => modifyEvent.bytes),
          s.instances.set fd.toNat { inst with queue := inst.queue.drop k })
      else none
  | .scan _ _ _ _ => some (.none, s.instances)
  | .returned _ => none

/-- The first `inotify_add_watch` that returns starts the watch. -/
def beganAfter (s : Alarm) : Phase → Option Nat
  | .addWatch _ _ => some (s.began.getD s.modified)
  | _ => s.began

/-- A step of `startNotifier`. -/
def server (s : Alarm) (k : Nat) : Option Alarm :=
  match s.call with
  | none => none
  | some phase =>
    match s.kernel k phase with
    | none => none
    | some (r, instances) =>
      (startNotifier phase r).map fun phase' =>
        { s with call := some phase', instances, began := s.beganAfter phase }

/-- inotify queues an event on every instance that watches the file. -/
def modify (s : Alarm) : Alarm :=
  { s with
    modified := s.modified + 1
    instances := s.instances.map fun inst =>
      if inst.watching then { inst with queue := inst.queue ++ [s.modified] } else inst }

def step (s : Alarm) : Beat → Option Alarm
  | .client => s.client
  | .serve stack =>
    if s.pc = .call ∧ s.call = none then some { s with call := some (.init stack) } else none
  | .server k => s.server k
  | .modify => some s.modify

/-- The events queued on the instance that the current call reads. -/
def queued (s : Alarm) : List Nat :=
  match s.call with
  | some (.read fd _) | some (.scan fd _ _ _) => s.instances[fd.toNat]?.elim [] (·.queue)
  | _ => []

/-- The call is about to find its event or has returned 1, or the alarm is about
to be shown. -/
def OnItsWay (s : Alarm) : Prop :=
  s.pc = .show ∨
    match s.call with
    | some (.scan _ buffer length i) => Hits buffer length i
    | some (.returned r) => r = 1
    | _ => False

/-- Modification `m` was followed by an alarm, or an alarm will follow it. -/
def Covered (s : Alarm) (m : Nat) : Prop :=
  (∃ n ∈ s.shown, m < n) ∨ m ∈ s.queued ∨ s.OnItsWay

/-- No modification since the watch began is lost. -/
def NoneLost (s : Alarm) : Prop :=
  ∀ b ∈ s.began, ∀ m, b ≤ m → m < s.modified → s.Covered m

/-- The handler blocks in `read`. -/
def Blocked (s : Alarm) : Prop :=
  ∃ fd buffer, s.call = some (.read fd buffer) ∧ s.queued = []

/-- A call that blocks waits for nothing but new modifications. -/
def NeverStuck (s : Alarm) : Prop :=
  s.Blocked → ∀ b ∈ s.began, ∀ m, b ≤ m → m < s.modified → ∃ n ∈ s.shown, m < n

/-- A call watches the file, or an alarm is on its way. -/
def attends (s : Alarm) : Bool :=
  s.pc = .show ||
    match s.call with
    | some (.read _ _) | some (.scan _ _ _ _) | some (.returned _) => true
    | _ => false

/-- A modification is made before the watch began or while someone attends. -/
def Attended (s : Alarm) : Beat → Prop
  | .modify => s.began = none ∨ s.attends = true
  | _ => True

def Watching (s : Alarm) (fd : Int) : Prop :=
  ∃ inst, s.instances[fd.toNat]? = some inst ∧ inst.watching = true

/-- What is known of a call at each of its positions. -/
def PhaseOk (s : Alarm) : Phase → Prop
  | .init _ => True
  | .addWatch fd _ => ∃ inst, s.instances[fd.toNat]? = some inst
  | .read fd _ => s.Watching fd
  | .scan fd buffer length i => s.Watching fd ∧ Hits buffer length i
  | .returned r => r = 1

structure Wired (s : Alarm) : Prop where
  running : s.cells.getD s.args.runstate 0 = THREAD_RUN
  inLoop : s.pc.inLoop = true
  calling : ∀ p, s.call = some p → s.pc = .call ∧ s.PhaseOk p
  began : ∀ b ∈ s.began, b ≤ s.modified
  shown : ∀ n ∈ s.shown, n ≤ s.modified

theorem wired_start (filename ip friendlyname servername : StdString) :
    (start filename ip friendlyname servername).Wired := by
  constructor
  · rfl
  · rfl
  · intro p hp
    cases hp
  · intro b hb
    cases hb
  · intro n hn
    cases hn

/-- What a read puts into the buffer starts with an event that hits. -/
theorem hits_of_read {queue : List Nat} {k : Nat} (hk : 0 < k) (hq : k ≤ queue.length)
    (rest : Buffer) :
    Hits (((queue.take k).flatMap fun _ => modifyEvent.bytes) ++ rest)
      ((queue.take k).flatMap fun _ => modifyEvent.bytes).length 0 := by
  cases queue with
  | nil => simp only [List.length_nil] at hq; omega
  | cons m queue =>
    obtain ⟨k, rfl⟩ : ∃ j, k = j + 1 := ⟨k - 1, by omega⟩
    rw [List.take_succ_cons, List.flatMap_cons]
    have hlen : 0 < (modifyEvent.bytes ++ ((queue.take k).flatMap fun _ => modifyEvent.bytes)).length := by
      rw [List.length_append, length_bytes]
      simp only [EVENT_SIZE]
      omega
    refine ⟨by omega, by omega, ?_⟩
    rw [List.append_assoc]
    change maskAt _ 0 &&& IN_MODIFY ≠ 0
    rw [maskAt_bytes]
    decide

/-- What a step of a healthy watch can do. -/
inductive Turn (s : Alarm) : Beat → Alarm → Prop
  | loops (p : Pc) (hcall : s.call = none) (hpc : s.pc ≠ .show) (hp : p.inLoop = true) :
      Turn s .client { s with pc := p }
  | answered (hcall : s.call = some (.returned 1)) :
      Turn s .client { s with pc := .show, call := none }
  | alarms (hcall : s.call = none) (hpc : s.pc = .show) :
      Turn s .client { s with pc := .loop, shown := s.shown ++ [s.modified] }
  | taken (stack : Buffer) (hcall : s.call = none) (hpc : s.pc = .call) :
      Turn s (.serve stack) { s with call := some (.init stack) }
  | inits (k : Nat) (buffer : Buffer) (hcall : s.call = some (.init buffer)) :
      Turn s (.server k)
        { s with
          call := some (.addWatch s.instances.length buffer)
          instances := s.instances ++ [⟨false, []⟩] }
  | watches (k : Nat) (fd : Int) (buffer : Buffer) (hcall : s.call = some (.addWatch fd buffer)) :
      Turn s (.server k)
        { s with
          call := some (.read fd buffer)
          instances := s.instances.modify fd.toNat fun inst => { inst with watching := true }
          began := some (s.began.getD s.modified) }
  | reads (k : Nat) (fd : Int) (buffer buffer' : Buffer) (length : Int) (inst : Instance)
      (hcall : s.call = some (.read fd buffer)) (hinst : s.instances[fd.toNat]? = some inst)
      (hhits : Hits buffer' length 0) :
      Turn s (.server k)
        { s with
          call := some (.scan fd buffer' length 0)
          instances := s.instances.set fd.toNat { inst with queue := inst.queue.drop k } }
  | finds (k : Nat) (fd : Int) (buffer : Buffer) (length i : Int)
      (hcall : s.call = some (.scan fd buffer length i)) :
      Turn s (.server k) { s with call := some (.returned 1) }
  | modified : Turn s .modify s.modify

theorem call_eq_none {s : Alarm} (h : s.Wired) (hpc : s.pc ≠ .call) : s.call = none := by
  cases hcall : s.call with
  | none => rfl
  | some p => exact absurd (h.calling p hcall).1 hpc

theorem turn_of_client {s s' : Alarm} (h : s.Wired) (hs : s.client = some s') :
    Turn s .client s' := by
  unfold client at hs
  split at hs
  · cases hs
  rename_i hwait
  obtain ⟨k, hk, rfl⟩ := Option.map_eq_some_iff.mp hs
  have hacts := acts_of_startWatch hk
  have hin := h.inLoop
  have hrun := h.running
  generalize hpc : s.pc = pc at hacts hin
  generalize hr : s.reply = r at hacts
  cases hacts with
  | inits =>
    have ht := Turn.loops (s := s) .loop (call_eq_none h (by rw [hpc]; decide)) (by rw [hpc]; decide) rfl
    simpa [hpc, alarmed] using ht
  | loops =>
    have ht := Turn.loops (s := s) .test (call_eq_none h (by rw [hpc]; decide)) (by rw [hpc]; decide) rfl
    have he : afterLoopTest (s.cells.getD s.args.runstate 0) = .test := by rw [hrun]; rfl
    rw [he]
    simpa [hpc, alarmed] using ht
  | tests =>
    have ht := Turn.loops (s := s) .call (call_eq_none h (by rw [hpc]; decide)) (by rw [hpc]; decide) rfl
    have he : afterRunTest (s.cells.getD s.args.runstate 0) = .call := by rw [hrun]; rfl
    rw [he]
    simpa [hpc, alarmed] using ht
  | replied r =>
    have hcall : s.call = some (.returned r) := by
      unfold reply at hr
      split at hr
      · rename_i hc
        rw [hc, Option.some.inj hr]
      · cases hr
    obtain rfl : r = 1 := (h.calling _ hcall).2
    have ht := Turn.answered hcall
    simpa [hpc, alarmed, afterReply] using ht
  | thrown => exact absurd ⟨hpc, hr⟩ hwait
  | shows =>
    have ht := Turn.alarms (call_eq_none h (by rw [hpc]; decide)) hpc
    simpa [hpc, alarmed] using ht
  | _ => cases hin

theorem turn_of_server {s s' : Alarm} {k : Nat} (h : s.Wired) (hs : s.server k = some s') :
    Turn s (.server k) s' := by
  unfold server at hs
  cases hcall : s.call with
  | none => simp [hcall] at hs
  | some phase =>
    have hok := (h.calling phase hcall).2
    simp only [hcall] at hs
    cases phase with
    | init buffer =>
      obtain rfl := Option.some.inj hs
      exact .inits k buffer hcall
    | addWatch fd buffer =>
      obtain rfl := Option.some.inj hs
      exact .watches k fd buffer hcall
    | read fd buffer =>
      cases hinst : s.instances[fd.toNat]? with
      | none => simp [kernel, hinst] at hs
      | some inst =>
        simp only [kernel, hinst] at hs
        by_cases hk : 0 < k ∧ k ≤ inst.queue.length
        · rw [if_pos hk] at hs
          simp only [startNotifier] at hs
          split at hs
          · obtain rfl := Option.some.inj hs
            exact .reads k fd buffer _ _ inst hcall hinst (hits_of_read hk.1 hk.2 _)
          · cases hs
        · rw [if_neg hk] at hs
          cases hs
    | scan fd buffer length i =>
      have hs' : some { s with call := some (scan fd buffer length i), instances := s.instances,
                               began := s.began } = some s' := hs
      have hscan : scan fd buffer length i = .returned 1 := by
        rw [scan, if_pos ⟨hok.2.1, hok.2.2.1⟩, if_pos hok.2.2.2]
      rw [hscan] at hs'
      obtain rfl := Option.some.inj hs'
      exact .finds k fd buffer length i hcall
    | returned r => simp [kernel] at hs

theorem turn_of_step {s s' : Alarm} {b : Beat} (h : s.Wired) (hs : s.step b = some s') :
    Turn s b s' := by
  cases b with
  | client => exact turn_of_client h hs
  | serve stack =>
    simp only [step] at hs
    split at hs
    · rename_i hg
      obtain rfl := Option.some.inj hs
      exact .taken stack hg.2 hg.1
    · cases hs
  | server k => exact turn_of_server h hs
  | modify =>
    obtain rfl := Option.some.inj hs
    exact .modified

theorem watching_modify {s : Alarm} {fd : Int} (h : s.Watching fd) : s.modify.Watching fd := by
  obtain ⟨inst, hinst, hw⟩ := h
  refine ⟨{ inst with queue := inst.queue ++ [s.modified] }, ?_, hw⟩
  simp only [modify, List.getElem?_map, hinst, Option.map_some, if_pos hw]

theorem phaseOk_modify {s : Alarm} {p : Phase} (h : s.PhaseOk p) : s.modify.PhaseOk p := by
  cases p with
  | init buffer => trivial
  | addWatch fd buffer =>
    obtain ⟨inst, hinst⟩ := h
    exact ⟨_, by rw [modify, List.getElem?_map, hinst]; rfl⟩
  | read fd buffer => exact watching_modify h
  | scan fd buffer length i => exact ⟨watching_modify h.1, h.2⟩
  | returned r => exact h

theorem wired_of_turn {s s' : Alarm} {b : Beat} (h : s.Wired) (ht : Turn s b s') : s'.Wired := by
  have hpc : ∀ p, s.call = some p → s.pc = .call := fun p hp => (h.calling p hp).1
  cases ht with
  | loops p hcall hshow hp =>
    exact ⟨h.running, hp, fun q hq => by simp [hcall] at hq, h.began, h.shown⟩
  | answered hcall =>
    exact ⟨h.running, rfl, fun q hq => (by cases hq), h.began, h.shown⟩
  | alarms hcall hshow =>
    refine ⟨h.running, rfl, fun q hq => by simp [hcall] at hq, h.began, fun n hn => ?_⟩
    rcases List.mem_append.mp hn with hn | hn
    · exact h.shown n hn
    · exact Nat.le_of_eq (List.mem_singleton.mp hn)
  | taken stack hcall hwait =>
    refine ⟨h.running, h.inLoop, fun q hq => ?_, h.began, h.shown⟩
    obtain rfl := Option.some.inj hq
    exact ⟨hwait, trivial⟩
  | inits k buffer hcall =>
    refine ⟨h.running, h.inLoop, fun q hq => ?_, h.began, h.shown⟩
    obtain rfl := Option.some.inj hq
    refine ⟨hpc _ hcall, ⟨false, []⟩, ?_⟩
    rw [Int.toNat_natCast, List.getElem?_concat_length]
  | watches k fd buffer hcall =>
    obtain ⟨hcalling, inst, hinst⟩ := h.calling _ hcall
    refine ⟨h.running, h.inLoop, fun q hq => ?_, fun b hb => ?_, h.shown⟩
    · obtain rfl := Option.some.inj hq
      refine ⟨hcalling, { inst with watching := true }, ?_, rfl⟩
      rw [List.getElem?_modify_eq, hinst]
      rfl
    · obtain rfl := Option.some.inj hb
      cases hbegan : s.began with
      | none => exact Nat.le_refl _
      | some b => exact h.began b hbegan
  | reads k fd buffer buffer' length inst hcall hinst hhits =>
    obtain ⟨hcalling, inst', hinst', hw⟩ := h.calling _ hcall
    obtain rfl : inst = inst' := Option.some.inj (hinst.symm.trans hinst')
    refine ⟨h.running, h.inLoop, fun q hq => ?_, h.began, h.shown⟩
    obtain rfl := Option.some.inj hq
    refine ⟨hcalling, ⟨{ inst with queue := inst.queue.drop k }, ?_, hw⟩, hhits⟩
    have hlt := (List.getElem?_eq_some_iff.mp hinst).1
    rw [List.getElem?_set_self hlt]
  | finds k fd buffer length i hcall =>
    refine ⟨h.running, h.inLoop, fun q hq => ?_, h.began, h.shown⟩
    obtain rfl := Option.some.inj hq
    exact ⟨hpc _ hcall, rfl⟩
  | modified =>
    refine ⟨h.running, h.inLoop, fun q hq => ?_, fun b hb => ?_, fun n hn => ?_⟩
    · exact ⟨(h.calling q hq).1, phaseOk_modify (h.calling q hq).2⟩
    · exact Nat.le_succ_of_le (h.began b hb)
    · exact Nat.le_succ_of_le (h.shown n hn)

theorem wired_step (s : Alarm) (b : Beat) (s' : Alarm) (h : s.Wired) (hs : s.step b = some s') :
    s'.Wired :=
  wired_of_turn h (turn_of_step h hs)

/-- While nobody attends, an alarm already shown is all that can cover `m`. -/
theorem shown_of_covered {s : Alarm} {m : Nat} (ha : s.attends = false) (hc : s.Covered m) :
    ∃ n ∈ s.shown, m < n := by
  simp only [attends, Bool.or_eq_false_iff, decide_eq_false_iff_not] at ha
  obtain ⟨hshow, hcall⟩ := ha
  rcases hc with hc | hc | hc | hc
  · exact hc
  · unfold queued at hc
    split at hc <;> simp_all
  · exact absurd hc hshow
  · split at hc <;> simp_all

theorem attends_of_call {s : Alarm} {p : Phase} (h : s.Wired) : s.call = some p →
    s.attends = match p with
      | .init _ | .addWatch _ _ => false
      | _ => true := by
  intro hcall
  have hpc : s.pc ≠ .show := by rw [(h.calling p hcall).1]; decide
  cases p <;> simp [attends, hcall, hpc]

theorem attends_of_none {s : Alarm} (hcall : s.call = none) (hpc : s.pc ≠ .show) :
    s.attends = false := by
  simp [attends, hcall, hpc]

/-- No step of the watcher or of the server loses a modification. -/
theorem covered_of_turn {s s' : Alarm} {b : Beat} {m : Nat} (h : s.Wired) (ht : Turn s b s')
    (hb : b ≠ .modify) (hm : m < s.modified) (hc : s.Covered m) : s'.Covered m := by
  cases ht with
  | loops p hcall hshow hp => exact .inl (shown_of_covered (s := s) (attends_of_none hcall hshow) hc)
  | answered hcall => exact .inr (.inr (.inl rfl))
  | alarms hcall hshow =>
    exact .inl ⟨s.modified, List.mem_append_right _ (List.mem_singleton_self _), hm⟩
  | taken stack hcall hwait =>
    exact .inl (shown_of_covered (s := s) (attends_of_none hcall (by rw [hwait]; decide)) hc)
  | inits k buffer hcall => exact .inl (shown_of_covered (s := s) (attends_of_call h hcall) hc)
  | watches k fd buffer hcall => exact .inl (shown_of_covered (s := s) (attends_of_call h hcall) hc)
  | reads k fd buffer buffer' length inst hcall hinst hhits => exact .inr (.inr (.inr hhits))
  | finds k fd buffer length i hcall => exact .inr (.inr (.inr rfl))
  | modified => exact absurd rfl hb

theorem queued_modify {s : Alarm} {m : Nat} (hm : m ∈ s.queued) : m ∈ s.modify.queued := by
  have keep : ∀ fd : Int, m ∈ s.instances[fd.toNat]?.elim [] (·.queue) →
      m ∈ s.modify.instances[fd.toNat]?.elim [] (·.queue) := by
    intro fd hfd
    simp only [modify, List.getElem?_map]
    cases hinst : s.instances[fd.toNat]? with
    | none => simp [hinst] at hfd
    | some inst =>
      rw [hinst] at hfd
      simp only [Option.map_some, Option.elim_some]
      split
      · exact List.mem_append_left _ hfd
      · exact hfd
  have hcall : s.modify.call = s.call := rfl
  unfold queued at hm ⊢
  rw [hcall]
  split at hm
  · exact keep _ hm
  · exact keep _ hm
  · cases hm

theorem covered_modify {s : Alarm} {m : Nat} (hc : s.Covered m) : s.modify.Covered m := by
  rcases hc with hc | hc | hc
  · exact .inl hc
  · exact .inr (.inl (queued_modify hc))
  · exact .inr (.inr hc)

/-- The modification being made is covered exactly when someone attends. -/
theorem covered_modified_iff {s : Alarm} (h : s.Wired) :
    s.modify.Covered s.modified ↔ s.attends = true := by
  constructor
  · intro hc
    cases ha : s.attends with
    | true => rfl
    | false =>
      obtain ⟨n, hn, hlt⟩ := shown_of_covered (s := s.modify) ha hc
      have hle := h.shown n hn
      omega
  · intro ha
    by_cases hpc : s.pc = .show
    · exact .inr (.inr (.inl hpc))
    cases hcall : s.call with
    | none => rw [attends_of_none hcall hpc] at ha; cases ha
    | some p =>
      rw [attends_of_call h hcall] at ha
      have hok := (h.calling p hcall).2
      cases p with
      | init buffer => cases ha
      | addWatch fd buffer => cases ha
      | read fd buffer =>
        obtain ⟨inst, hinst, hw⟩ := hok
        refine .inr (.inl ?_)
        simp [queued, modify, hcall, hinst, hw]
      | scan fd buffer length i =>
        refine .inr (.inr (.inr ?_))
        simp only [modify, hcall]
        exact hok.2
      | returned r =>
        refine .inr (.inr (.inr ?_))
        simp only [modify, hcall]
        exact hok

theorem began_of_turn {s s' : Alarm} {b : Beat} (ht : Turn s b s') :
    s'.began = s.began ∨ s'.began = some s.modified := by
  cases ht with
  | watches k fd buffer hcall =>
    cases hbegan : s.began with
    | none => exact .inr rfl
    | some b => exact .inl rfl
  | _ => exact .inl rfl

/-- One step keeps every modification covered exactly when it meets `Attended`. -/
theorem noneLost_step {s s' : Alarm} {b : Beat} (h : s.Wired) (hn : s.NoneLost)
    (hs : s.step b = some s') : s'.NoneLost ↔ s.Attended b := by
  have ht := turn_of_step h hs
  cases b with
  | modify =>
    obtain rfl := Option.some.inj hs
    constructor
    · intro hn'
      cases hbegan : s.began with
      | none => exact .inl hbegan
      | some b =>
        have hc := hn' b hbegan s.modified (h.began b hbegan) (Nat.lt_succ_self _)
        exact .inr ((covered_modified_iff h).mp hc)
    · intro ha b hb m hbm hlt
      rcases ha with ha | ha
      · have hb' : s.began = some b := hb
        rw [ha] at hb'
        cases hb'
      rcases Nat.lt_succ_iff_lt_or_eq.mp hlt with hlt | rfl
      · exact covered_modify (hn b hb m hbm hlt)
      · exact (covered_modified_iff h).mpr ha
  | _ =>
    refine ⟨fun _ => trivial, fun _ b hb m hbm hlt => ?_⟩
    have hmod : s'.modified = s.modified := by cases ht <;> rfl
    rw [hmod] at hlt
    refine covered_of_turn h ht (by intro he; cases he) hlt ?_
    rcases began_of_turn ht with hbegan | hbegan
    · rw [hbegan] at hb
      exact hn b hb m hbm hlt
    -- the watch begins with this step, and nothing has been modified since
    · obtain rfl := Option.some.inj (hbegan.symm.trans hb)
      omega

theorem neverStuck_of_noneLost {s : Alarm} (h : s.Wired) (hn : s.NoneLost) : s.NeverStuck := by
  intro ⟨fd, buffer, hcall, hempty⟩ b hb m hbm hlt
  rcases hn b hb m hbm hlt with hc | hc | hc | hc
  · exact hc
  · rw [hempty] at hc
    cases hc
  · have hpc := (h.calling _ hcall).1
    rw [hc] at hpc
    cases hpc
  · rw [hcall] at hc
    cases hc

/-- No modification is lost in a run exactly when each is made while a call
watches or while an alarm is on its way. -/
theorem none_lost_iff (filename ip friendlyname servername : StdString) (es : List Beat) :
    Along step (fun s => s.NoneLost ∧ s.NeverStuck)
        (start filename ip friendlyname servername) es ↔
      Steps step Attended (start filename ip friendlyname servername) es := by
  have hw := wired_start filename ip friendlyname servername
  have hn : (start filename ip friendlyname servername).NoneLost := by
    intro b hb
    cases hb
  refine along_iff_steps wired_step ?_ hw ⟨hn, neverStuck_of_noneLost hw hn⟩ es
  intro s b s' h hP hs
  have hstep := noneLost_step h hP.1 hs
  constructor
  · intro hP'
    exact hstep.mp hP'.1
  · intro ha
    have hn' := hstep.mpr ha
    exact ⟨hn', neverStuck_of_noneLost (wired_step s b s' h hs) hn'⟩

/-- The file is modified once more before the next call watches it; that call
then blocks on its empty queue, and nothing was shown after the modification. -/
theorem modified_in_gap_lost :
    ∃ s, run step (start [102] [104] [110] [115])
        [.client, .client, .client, .serve [], .server 0, .server 0, .modify, .server 1,
          .server 0, .client, .client, .modify, .client, .client, .serve [], .server 0,
          .server 0] = some s ∧
      s.Blocked ∧ s.began = some 0 ∧ s.modified = 2 ∧ s.shown = [1] ∧
      ¬ s.NoneLost ∧ ¬ s.NeverStuck := by
  refine ⟨_, rfl, ⟨_, _, rfl, rfl⟩, rfl, rfl, rfl, ?_, ?_⟩
  · intro hn
    rcases hn 0 rfl 1 (by decide) (by decide) with ⟨n, hn, hlt⟩ | hc | hc | hc
    · obtain rfl : n = 1 := List.mem_singleton.mp hn
      omega
    · cases hc
    · cases hc
    · cases hc
  · intro hn
    obtain ⟨n, hn, hlt⟩ := hn ⟨_, _, rfl, rfl⟩ 0 rfl 1 (by decide) (by decide)
    obtain rfl : n = 1 := List.mem_singleton.mp hn
    omega

end Alarm

end Errifier.System
