import Errifier.Client.Watch
import Errifier.Machine.Pool
import Errifier.Machine.Run
import Errifier.Server.EventScan
import Mathlib.Logic.Function.Basic

/-!
# Every alarm has a modification of its own

One watcher, its server and the kernel, and everything may go wrong: system calls
fail, the connection breaks, the watcher is paused, resumed or removed at any
time, and descriptors of earlier calls stay open with events in them. A call
returns 1 only after it has read an IN_MODIFY event from the instance it opened
itself, and the calls of one watcher do not overlap. A call that the watcher was
thrown out of is not followed further: the watcher makes no other one.
-/
namespace Errifier.System

set_option autoImplicit false

open Errifier.Text Errifier.Machine Errifier.Client Errifier.Server

/-- An inotify instance: how many modifications had been made when the file was
added, and the events that were not read yet. -/
structure Inotify where
  since : Option Nat
  queue : List InotifyEvent

/-- Modifications are numbered from 0 and `modified` is their number. `window` is
history of the current call: the number of modifications when its
`inotify_add_watch` returned, and when it returned itself. `windows` has those of
the calls that returned 1 to the watcher, and `shown` for every alarm the number
of modifications before it. -/
structure Watch where
  args : WatchArgs
  cells : List Int
  pc : Pc
  call : Option Phase
  instances : Int → Option Inotify
  modified : Nat
  window : Nat × Nat
  windows : List (Nat × Nat)
  shown : List Nat

/-- `client` is the watcher's next step, whose call may throw, and `write` is `setState` on
its cell. The server takes up the pending request (`serve`); `inotify_init` and
`inotify_add_watch` return (`opens`, `adds`), and so does a read, with -1, with 0 or with the
first `k` events; `look` is test and body of the inner loop. In `deliver` the kernel queues an
event. -/
inductive WatchEvent where
  | client (model : List Row) (thrown : Bool)
  | write (state : Int)
  | serve (stack : Buffer)
  | opens (fd : Int)
  | adds (wd : Int)
  | fails
  | empty
  | reads (k : Nat)
  | look
  | modify
  | deliver (fd : Int) (e : InotifyEvent)

namespace Watch

/-- A watcher that has just been started; anything may have been modified
before. -/
def start (filename ip friendlyname servername : StdString) (modified : Nat) : Watch where
  args := ⟨0, filename, ip, friendlyname, servername⟩
  cells := [THREAD_RUN]
  pc := .init
  call := none
  instances := fun _ => none
  modified := modified
  window := (0, 0)
  windows := []
  shown := []

/-- What the pending call has returned. -/
def reply (s : Watch) : Option Int :=
  match s.call with
  | some (.returned r) => some r
  | _ => none

/-- The alarms among what a step shows. -/
def alarmed (s : Watch) : Option Notice → List Nat
  | some (.alarm _ _) => [s.modified]
  | _ => []

/-- What the watcher's call comes to; none when it throws. -/
def received (s : Watch) (thrown : Bool) : Option Int := if thrown then none else s.reply

/-- A step of `startWatch`. It waits for the reply unless the call throws. -/
def client (s : Watch) (model : List Row) (thrown : Bool) : Option Watch :=
  if s.pc = .call ∧ thrown = false ∧ s.reply = none then none
  else (startWatch s.cells model s.args (s.received thrown) s.pc).map fun k =>
    { s with
      pc := k.pc
      call := if s.pc = .call then none else s.call
      windows :=
        if s.pc = .call ∧ s.received thrown = some 1 then s.windows ++ [s.window] else s.windows
      shown := s.shown ++ s.alarmed k.notice }

/-- The call goes on at `phase`. -/
def enters (s : Watch) (phase : Phase) : Watch :=
  { s with
    call := some phase
    window := (s.window.1, match phase with
      | .returned _ => s.modified
      | _ => s.window.2) }

/-- A step of `startNotifier` with what its system call returned. -/
def server (s : Watch) (r : SysResult) : Option Watch :=
  match s.call with
  | none => none
  | some phase => (startNotifier phase r).map s.enters

/-- The kernel opens an instance or changes it. -/
def put (s : Watch) (fd : Int) (inst : Inotify) : Watch :=
  { s with instances := Function.update s.instances fd (some inst) }

/-- `inotify_init` returns a descriptor that is not open, or a negative number. -/
def opens (s : Watch) (fd : Int) : Option Watch :=
  if s.instances fd = none then
    (s.server (.fd fd)).map fun s => if fd < 0 then s else s.put fd ⟨none, []⟩
  else none

/-- `inotify_add_watch` fails, or the file is watched from now on. -/
def adds (s : Watch) (wd : Int) : Option Watch :=
  match s.call with
  | some (.addWatch fd _) =>
    if wd < 0 then s.server (.wd wd)
    else
      match s.instances fd with
      | none => none
      | some inst =>
        (s.server (.wd wd)).map fun s =>
          { s with window := (s.modified, s.window.2) }.put fd { inst with since := some s.modified }
  | _ => none

/-- A read takes whole events from the front of the queue. -/
def reads (s : Watch) (k : Nat) : Option Watch :=
  match s.call with
  | some (.read fd _) =>
    match s.instances fd with
    | none => none
    | some inst =>
      if inst.queue.take k ≠ [] ∧ (image (inst.queue.take k)).length ≤ BUF_LEN then
        (s.server (.got (image (inst.queue.take k)))).map fun s =>
          s.put fd { inst with queue := inst.queue.drop k }
      else none
  | _ => none

/-- An event with IN_MODIFY comes only to an instance to which the file was added
before some modification; other events come at any time. -/
def deliver (s : Watch) (fd : Int) (e : InotifyEvent) : Option Watch :=
  match s.instances fd with
  | none => none
  | some inst =>
    if e.modifies = true → ∃ n ∈ inst.since, n < s.modified then
      some (s.put fd { inst with queue := inst.queue ++ [e] })
    else none

def step (s : Watch) : WatchEvent → Option Watch
  | .client model thrown => s.client model thrown
  | .write state => some { s with cells := s.cells.set s.args.runstate state }
  | .serve stack =>
    if s.pc = .call ∧ s.call = none then some { s with call := some (.init stack) } else none
  | .opens fd => s.opens fd
  | .adds wd => s.adds wd
  | .fails => s.server .failed
  | .empty => s.server (.got [])
  | .reads k => s.reads k
  | .look => s.server .none
  | .modify => some { s with modified := s.modified + 1 }
  | .deliver fd e => s.deliver fd e

/-- The file was added for the current call after every call that returned 1. -/
def Later (s : Watch) : Prop := ∀ w ∈ s.windows, w.2 ≤ s.window.1

/-- If the file was added to the instance, the current call did it. -/
def Watching (s : Watch) (fd : Int) : Prop :=
  ∀ inst, s.instances fd = some inst → ∀ n ∈ inst.since, n = s.window.1 ∧ s.Later

/-- What is known of a call at each of its positions. -/
def PhaseOk (s : Watch) : Phase → Prop
  | .init _ => True
  | .addWatch fd _ => ∀ inst, s.instances fd = some inst → inst.since = none
  | .read fd _ => s.Watching fd
  | .scan fd buffer length i =>
    s.Watching fd ∧ ∃ r, Scans r buffer length i ∧
      (r.modifies = true → s.window.1 < s.modified ∧ s.Later)
  | .returned r => r = 1 ∧ s.window.1 < s.window.2 ∧ s.window.2 ≤ s.modified ∧ s.Later

structure Sound (s : Watch) : Prop where
  calling : ∀ p, s.call = some p → s.pc = .call ∧ s.PhaseOk p
  queued : ∀ fd inst, s.instances fd = some inst → ∀ e ∈ inst.queue, e.modifies = true →
    ∃ n ∈ inst.since, n < s.modified
  windows : ∀ w ∈ s.windows, w.1 < w.2 ∧ w.2 ≤ s.modified
  apart : s.windows.Pairwise fun v w => v.2 ≤ w.1
  shown : ∀ (k n : Nat), s.shown[k]? = some n → ∃ w, s.windows[k]? = some w ∧ w.2 ≤ n
  count : s.windows.length = s.shown.length + if s.pc = .show then 1 else 0

theorem sound_start (filename ip friendlyname servername : StdString) (modified : Nat) :
    (start filename ip friendlyname servername modified).Sound := by
  constructor
  · intro p hp; cases hp
  · intro fd inst hinst; cases hinst
  · intro w hw; cases hw
  · exact List.Pairwise.nil
  · intro k n hn; cases hn
  · rfl

theorem Sound.call_eq_none {s : Watch} (h : s.Sound) (hpc : s.pc ≠ .call) : s.call = none := by
  cases hcall : s.call with
  | none => rfl
  | some p => exact absurd (h.calling p hcall).1 hpc

/-- What a step of the watcher can do: go on, receive 1, be thrown out of its
call, or show an alarm. -/
inductive Turn (s : Watch) : Watch → Prop
  | goes (p : Pc) (hpc : s.pc ≠ .call) (hshow : s.pc ≠ .show) (hp : p ≠ .show) :
      Turn s { s with pc := p }
  | answered (hcall : s.call = some (.returned 1)) :
      Turn s { s with pc := .show, call := none, windows := s.windows ++ [s.window] }
  | thrown (hpc : s.pc = .call) : Turn s { s with pc := .errShow, call := none }
  | alarms (hpc : s.pc = .show) :
      Turn s { s with pc := .loop, shown := s.shown ++ [s.modified] }

theorem afterLoopTest_ne (runstate : Int) : afterLoopTest runstate ≠ .show := by
  unfold afterLoopTest
  split <;> decide

theorem afterRunTest_ne (runstate : Int) : afterRunTest runstate ≠ .show := by
  unfold afterRunTest
  split <;> decide

theorem turn_of_client {s s' : Watch} {model : List Row} {thrown : Bool} (h : s.Sound)
    (hs : s.client model thrown = some s') : Turn s s' := by
  unfold client at hs
  split at hs
  · cases hs
  obtain ⟨k, hk, rfl⟩ := Option.map_eq_some_iff.mp hs
  have hacts := acts_of_startWatch hk
  have goes : ∀ {p : Pc}, s.pc ≠ .call → s.pc ≠ .show → k.pc = p → p ≠ .show →
      s.alarmed k.notice = [] → Turn s { s with
        pc := k.pc
        call := if s.pc = .call then none else s.call
        windows :=
          if s.pc = .call ∧ s.received thrown = some 1 then s.windows ++ [s.window] else s.windows
        shown := s.shown ++ s.alarmed k.notice } := by
    intro p hcall hshow hk hp hn
    rw [if_neg hcall, if_neg fun hb => hcall hb.1, hn, List.append_nil, hk]
    exact .goes p hcall hshow hp
  generalize hpc : s.pc = pc at hacts
  generalize hr : s.received thrown = r at hacts
  cases hacts with
  | replied r =>
    have hreply : s.reply = some r := by
      cases thrown with
      | true => cases hr
      | false => exact hr
    have hcall : s.call = some (.returned r) := by
      unfold reply at hreply
      split at hreply
      · rename_i hc
        rw [hc, Option.some.inj hreply]
      · cases hreply
    obtain rfl : r = 1 := (h.calling _ hcall).2.1
    have ht := Turn.answered hcall
    simpa [hpc, hr, alarmed, afterReply] using ht
  | thrown =>
    have ht := Turn.thrown hpc
    simpa [hpc, hr, alarmed] using ht
  | shows =>
    have ht := Turn.alarms hpc
    simpa [hpc, alarmed] using ht
  | loops =>
    simpa [hpc, hr] using goes (by rw [hpc]; decide) (by rw [hpc]; decide) rfl (afterLoopTest_ne _) rfl
  | tests =>
    simpa [hpc, hr] using goes (by rw [hpc]; decide) (by rw [hpc]; decide) rfl (afterRunTest_ne _) rfl
  | _ =>
    simpa [hpc, hr] using goes (by rw [hpc]; simp) (by rw [hpc]; simp) rfl (by simp) rfl

theorem Sound.turn {s s' : Watch} (h : s.Sound) (ht : Turn s s') : s'.Sound := by
  cases ht with
  | goes p hpc hshow hp =>
    have hcall := h.call_eq_none hpc
    have hcount := h.count
    rw [if_neg hshow] at hcount
    refine ⟨fun q hq => ?_, h.queued, h.windows, h.apart, h.shown, ?_⟩
    · exact absurd hq (by simp [hcall])
    · rw [if_neg hp]
      exact hcount
  | answered hcall =>
    obtain ⟨hpc, -, hlt, hle, hlater⟩ := h.calling _ hcall
    have hcount := h.count
    rw [hpc, if_neg (by decide)] at hcount
    refine ⟨fun q hq => (by cases hq), h.queued, fun w hw => ?_, ?_, fun k n hn => ?_, ?_⟩
    · rcases List.mem_append.mp hw with hw | hw
      · exact h.windows w hw
      · rw [List.mem_singleton.mp hw]
        exact ⟨hlt, hle⟩
    · exact pairwise_append_one h.apart hlater
    · obtain ⟨w, hw, hwn⟩ := h.shown k n hn
      obtain ⟨hk, -⟩ := List.getElem?_eq_some_iff.mp hw
      exact ⟨w, by rw [List.getElem?_append_left hk, hw], hwn⟩
    · rw [List.length_append, hcount]
      rfl
  | thrown hpc =>
    have hcount := h.count
    rw [hpc, if_neg (by decide)] at hcount
    exact ⟨fun q hq => (by cases hq), h.queued, h.windows, h.apart, h.shown, hcount⟩
  | alarms hpc =>
    have hcall := h.call_eq_none (by rw [hpc]; decide)
    have hcount := h.count
    rw [if_pos hpc] at hcount
    refine ⟨fun q hq => ?_, h.queued, h.windows, h.apart, fun k n hn => ?_, ?_⟩
    · exact absurd hq (by simp [hcall])
    · rcases Nat.lt_or_ge k s.shown.length with hlt | hge
      · rw [List.getElem?_append_left hlt] at hn
        exact h.shown k n hn
      -- the alarm just shown belongs to the last call that returned 1
      · rw [List.getElem?_append_right hge] at hn
        obtain ⟨hk, -⟩ := List.getElem?_eq_some_iff.mp hn
        rw [List.length_singleton] at hk
        have hks : k < s.windows.length := by omega
        have hn' := List.mem_singleton.mp (List.mem_of_getElem? hn)
        refine ⟨s.windows[k], List.getElem?_eq_getElem hks, ?_⟩
        rw [hn']
        exact (h.windows _ (List.getElem_mem hks)).2
    · rw [List.length_append, hcount]
      rfl

theorem server_cases {s s' : Watch} {r : SysResult} (hs : s.server r = some s') :
    ∃ phase phase', s.call = some phase ∧ startNotifier phase r = some phase' ∧
      s' = s.enters phase' := by
  unfold server at hs
  cases hcall : s.call with
  | none => simp [hcall] at hs
  | some phase =>
    simp only [hcall] at hs
    obtain ⟨phase', hp, rfl⟩ := Option.map_eq_some_iff.mp hs
    exact ⟨phase, phase', rfl, hp, rfl⟩

theorem Sound.enters {s : Watch} (h : s.Sound) (hpc : s.pc = .call) {phase : Phase}
    (hp : (s.enters phase).PhaseOk phase) : (s.enters phase).Sound := by
  refine ⟨fun q hq => ?_, h.queued, h.windows, h.apart, h.shown, h.count⟩
  obtain rfl := Option.some.inj hq
  exact ⟨hpc, hp⟩

theorem put_self (s : Watch) (fd : Int) (inst : Inotify) :
    (s.put fd inst).instances fd = some inst := Function.update_self ..

theorem put_of_ne (s : Watch) {fd fd' : Int} (h : fd' ≠ fd) (inst : Inotify) :
    (s.put fd inst).instances fd' = s.instances fd' := Function.update_of_ne h ..

theorem Sound.put {s : Watch} (h : s.Sound) {fd : Int} {inst : Inotify}
    (hq : ∀ e ∈ inst.queue, e.modifies = true → ∃ n ∈ inst.since, n < s.modified)
    (hcall : ∀ p, s.call = some p → (s.put fd inst).PhaseOk p) : (s.put fd inst).Sound := by
  refine ⟨fun p hp => ⟨(h.calling p hp).1, hcall p hp⟩, fun fd' inst' hinst => ?_, h.windows,
    h.apart, h.shown, h.count⟩
  by_cases hfd : fd' = fd
  · subst hfd
    rw [put_self] at hinst
    obtain rfl := Option.some.inj hinst
    exact hq
  · rw [put_of_ne s hfd] at hinst
    exact h.queued fd' inst' hinst

/-- Only the queue of an instance changes. -/
theorem phaseOk_put {s : Watch} {fd : Int} {inst : Inotify} (hinst : s.instances fd = some inst)
    (queue : List InotifyEvent) {p : Phase} (h : s.PhaseOk p) :
    (s.put fd { inst with queue }).PhaseOk p := by
  have hold : ∀ fd' inst₁, (s.put fd { inst with queue }).instances fd' = some inst₁ →
      ∃ inst₀, s.instances fd' = some inst₀ ∧ inst₁.since = inst₀.since := by
    intro fd' inst₁ h₁
    by_cases hfd : fd' = fd
    · subst hfd
      rw [put_self] at h₁
      obtain rfl := Option.some.inj h₁
      exact ⟨inst, hinst, rfl⟩
    · rw [put_of_ne s hfd] at h₁
      exact ⟨inst₁, h₁, rfl⟩
  have hwatching : ∀ {fd'}, s.Watching fd' → (s.put fd { inst with queue }).Watching fd' := by
    intro fd' hw inst₁ h₁ n hn
    obtain ⟨inst₀, h₀, hsame⟩ := hold fd' inst₁ h₁
    rw [hsame] at hn
    exact hw inst₀ h₀ n hn
  cases p with
  | init buffer => trivial
  | addWatch fd' buffer =>
    intro inst₁ h₁
    obtain ⟨inst₀, h₀, hsame⟩ := hold fd' inst₁ h₁
    rw [hsame]
    exact h inst₀ h₀
  | read fd' buffer => exact hwatching h
  | scan fd' buffer length i => exact ⟨hwatching h.1, h.2⟩
  | returned r => exact h

theorem Sound.opens {s s' : Watch} {fd : Int} (h : s.Sound) (hs : s.opens fd = some s') :
    s'.Sound := by
  unfold Watch.opens at hs
  split at hs
  · rename_i hfree
    obtain ⟨t, ht, rfl⟩ := Option.map_eq_some_iff.mp hs
    obtain ⟨phase, phase', hcall, hphase, rfl⟩ := server_cases ht
    cases serves_of_startNotifier hphase with
    | inits buffer =>
      have hent : (s.enters (.addWatch fd buffer)).Sound := by
        refine h.enters (h.calling _ hcall).1 fun inst hinst => ?_
        change s.instances fd = some inst at hinst
        rw [hfree] at hinst
        cases hinst
      split
      · exact hent
      · refine hent.put (fun e he => by cases he) fun p hp => ?_
        obtain rfl := Option.some.inj hp
        intro inst hinst
        rw [put_self] at hinst
        obtain rfl := Option.some.inj hinst
        rfl
  · cases hs

/-- `inotify_add_watch` has returned, but the instance is as it was. -/
theorem Sound.added {s : Watch} (h : s.Sound) {fd : Int} {buffer : Buffer}
    (hcall : s.call = some (.addWatch fd buffer)) (window : Nat × Nat) :
    Sound { s.enters (.read fd buffer) with window } := by
  obtain ⟨hpc, hnew⟩ := h.calling _ hcall
  refine ⟨fun p hp => ?_, h.queued, h.windows, h.apart, h.shown, h.count⟩
  obtain rfl := Option.some.inj hp
  refine ⟨hpc, fun inst hinst n hn => ?_⟩
  have hnone : inst.since = none := hnew inst hinst
  rw [hnone] at hn
  cases hn

theorem Sound.adds {s s' : Watch} {wd : Int} (h : s.Sound) (hs : s.adds wd = some s') :
    s'.Sound := by
  unfold Watch.adds at hs
  split at hs
  · rename_i fd buffer hcall
    obtain ⟨-, hnew⟩ := h.calling _ hcall
    split at hs
    · obtain ⟨phase, phase', hcall', hphase, rfl⟩ := server_cases hs
      obtain rfl := Option.some.inj (hcall.symm.trans hcall')
      obtain rfl := Option.some.inj hphase
      exact h.added hcall _
    · split at hs
      · cases hs
      · rename_i inst hinst
        obtain ⟨t, ht, rfl⟩ := Option.map_eq_some_iff.mp hs
        obtain ⟨phase, phase', hcall', hphase, rfl⟩ := server_cases ht
        obtain rfl := Option.some.inj (hcall.symm.trans hcall')
        obtain rfl := Option.some.inj hphase
        have hnone : inst.since = none := hnew inst hinst
        refine (h.added hcall (s.modified, s.window.2)).put (fun e he hm => ?_) fun p hp => ?_
        · obtain ⟨n, hn, -⟩ := h.queued fd inst hinst e he hm
          rw [hnone] at hn
          cases hn
        · obtain rfl := Option.some.inj hp
          intro inst' hinst' n hn
          rw [put_self] at hinst'
          obtain rfl := Option.some.inj hinst'
          -- no call that returned 1 did so after this moment
          exact ⟨(Option.some.inj hn).symm, fun w hw => (h.windows w hw).2⟩
  · cases hs

/-- What a read leaves for the scan. -/
theorem phaseOk_of_read {s : Watch} {fd : Int} {buffer : Buffer} (hw : s.Watching fd)
    {r : ReadResult} (hr : r.modifies = true → s.window.1 < s.modified ∧ s.Later) {p : Phase}
    (hp : startNotifier (.read fd buffer) r.sys = some p) : (s.enters p).PhaseOk p := by
  obtain ⟨buffer', rfl, hscans⟩ := scans_of_read hp
  exact ⟨hw, r, hscans, hr⟩

/-- A read that returns no event. -/
theorem Sound.readsNone {s s' : Watch} {r : ReadResult} (h : s.Sound) (hr : r.records = [])
    (hs : s.server r.sys = some s') : s'.Sound := by
  obtain ⟨phase, phase', hcall, hphase, rfl⟩ := server_cases hs
  obtain ⟨hpc, hok⟩ := h.calling _ hcall
  refine h.enters hpc ?_
  cases phase with
  | read fd buffer =>
    refine phaseOk_of_read hok (fun hm => ?_) hphase
    rw [ReadResult.modifies, hr] at hm
    cases hm
  | _ => cases r <;> cases hphase

theorem Sound.reads {s s' : Watch} {k : Nat} (h : s.Sound) (hs : s.reads k = some s') :
    s'.Sound := by
  unfold Watch.reads at hs
  split at hs
  · rename_i fd buffer hcall
    obtain ⟨hpc, hwatch⟩ := h.calling _ hcall
    split at hs
    · cases hs
    · rename_i inst hinst
      split at hs
      · rename_i htake
        obtain ⟨t, ht, rfl⟩ := Option.map_eq_some_iff.mp hs
        obtain ⟨phase, phase', hcall', hphase, rfl⟩ := server_cases ht
        obtain rfl := Option.some.inj (hcall.symm.trans hcall')
        have hok : (s.enters phase').PhaseOk phase' := by
          refine phaseOk_of_read (r := .events _ htake.1 htake.2) hwatch (fun hm => ?_) hphase
          obtain ⟨e, he, hem⟩ := List.any_eq_true.mp hm
          obtain ⟨n, hn, hlt⟩ := h.queued fd inst hinst e (List.mem_of_mem_take he) hem
          obtain ⟨rfl, hlater⟩ := hwatch inst hinst n hn
          exact ⟨hlt, hlater⟩
        refine (h.enters hpc hok).put (fun e he hm => ?_) fun p hp => ?_
        · exact h.queued fd inst hinst e (List.mem_of_mem_drop he) hm
        · obtain rfl := Option.some.inj hp
          exact phaseOk_put (s := s.enters phase') hinst _ hok
      · cases hs
  · cases hs

theorem Sound.looks {s s' : Watch} (h : s.Sound) (hs : s.server .none = some s') : s'.Sound := by
  obtain ⟨phase, phase', hcall, hphase, rfl⟩ := server_cases hs
  obtain ⟨hpc, hok⟩ := h.calling _ hcall
  refine h.enters hpc ?_
  cases phase with
  | scan fd buffer length i =>
    obtain rfl := Option.some.inj hphase
    obtain ⟨hwatch, r, hscans, hr⟩ := hok
    rcases scans_step fd hscans with ⟨he, hm⟩ | ⟨he, hscans'⟩ | ⟨he, -⟩
    · rw [he]
      obtain ⟨hlt, hlater⟩ := hr hm
      exact ⟨rfl, hlt, Nat.le_refl _, hlater⟩
    · rw [he]
      exact ⟨hwatch, r, hscans', hr⟩
    · rw [he]
      exact hwatch
  | _ => cases hphase

theorem Sound.deliver {s s' : Watch} {fd : Int} {e : InotifyEvent} (h : s.Sound)
    (hs : s.deliver fd e = some s') : s'.Sound := by
  unfold Watch.deliver at hs
  split at hs
  · cases hs
  · rename_i inst hinst
    split at hs
    · rename_i hguard
      obtain rfl := Option.some.inj hs
      refine h.put (fun e' he' hm => ?_) fun p hp => phaseOk_put hinst _ (h.calling p hp).2
      rcases List.mem_append.mp he' with he' | he'
      · exact h.queued fd inst hinst e' he' hm
      · rw [List.mem_singleton.mp he'] at hm
        exact hguard hm
    · cases hs

theorem phaseOk_modify {s : Watch} {p : Phase} (h : s.PhaseOk p) :
    PhaseOk { s with modified := s.modified + 1 } p := by
  cases p with
  | scan fd buffer length i =>
    obtain ⟨hwatch, r, hscans, hr⟩ := h
    exact ⟨hwatch, r, hscans, fun hm => ⟨Nat.lt_succ_of_lt (hr hm).1, (hr hm).2⟩⟩
  | returned r =>
    obtain ⟨hone, hlt, hle, hlater⟩ := h
    exact ⟨hone, hlt, Nat.le_succ_of_le hle, hlater⟩
  | _ => exact h

theorem Sound.modify {s : Watch} (h : s.Sound) :
    Sound { s with modified := s.modified + 1 } := by
  refine ⟨fun p hp => ?_, fun fd inst hinst e he hm => ?_, fun w hw => ?_, h.apart, h.shown, h.count⟩
  · exact ⟨(h.calling p hp).1, phaseOk_modify (h.calling p hp).2⟩
  · obtain ⟨n, hn, hlt⟩ := h.queued fd inst hinst e he hm
    exact ⟨n, hn, Nat.lt_succ_of_lt hlt⟩
  · exact ⟨(h.windows w hw).1, Nat.le_succ_of_le (h.windows w hw).2⟩

theorem Sound.step {s s' : Watch} {e : WatchEvent} (h : s.Sound) (hs : s.step e = some s') :
    s'.Sound := by
  cases e with
  | client model thrown => exact h.turn (turn_of_client h hs)
  | write state =>
    obtain rfl := Option.some.inj hs
    exact ⟨h.calling, h.queued, h.windows, h.apart, h.shown, h.count⟩
  | serve stack =>
    simp only [Watch.step] at hs
    split at hs
    · rename_i hg
      obtain rfl := Option.some.inj hs
      refine ⟨fun p hp => ?_, h.queued, h.windows, h.apart, h.shown, h.count⟩
      obtain rfl := Option.some.inj hp
      exact ⟨hg.1, trivial⟩
    · cases hs
  | opens fd => exact h.opens hs
  | adds wd => exact h.adds hs
  | fails => exact h.readsNone (r := .failed) rfl hs
  | empty => exact h.readsNone (r := .empty) rfl hs
  | reads k => exact h.reads hs
  | look => exact h.looks hs
  | modify =>
    obtain rfl := Option.some.inj hs
    exact h.modify
  | deliver fd e => exact h.deliver hs

/-- Every alarm has a modification of its own: the alarm in place `k` is shown
after a modification that was made between the `inotify_add_watch` and the return
of the call in place `k` among those that returned 1, and later alarms have later
ones. -/
theorem alarms_assigned (filename ip friendlyname servername : StdString) (modified : Nat)
    (es : List WatchEvent) :
    Along step (fun s => ∃ assigned : Nat → Nat,
      (∀ (k n : Nat), s.shown[k]? = some n → ∃ w, s.windows[k]? = some w ∧
        w.1 ≤ assigned k ∧ assigned k < w.2 ∧ assigned k < n) ∧
      ∀ j k : Nat, j < k → k < s.shown.length → assigned j < assigned k)
      (start filename ip friendlyname servername modified) es := by
  refine (along (fun _ _ _ h hs => Sound.step h hs)
    (sound_start filename ip friendlyname servername modified) es).mono fun s h => ?_
  refine ⟨fun k => (s.windows[k]?.getD (0, 0)).1, fun k n hn => ?_, fun j k hjk hk => ?_⟩
  · obtain ⟨w, hw, hwn⟩ := h.shown k n hn
    have hlt := (h.windows w (List.mem_of_getElem? hw)).1
    refine ⟨w, hw, ?_⟩
    dsimp only
    rw [hw, Option.getD_some]
    omega
  · have hcount := h.count
    have hks : k < s.windows.length := by omega
    have hjs : j < s.windows.length := by omega
    have hap := List.pairwise_iff_getElem.mp h.apart j k hjs hks hjk
    have hlt := (h.windows _ (List.getElem_mem hjs)).1
    dsimp only
    rw [List.getElem?_eq_getElem hjs, List.getElem?_eq_getElem hks, Option.getD_some,
      Option.getD_some]
    omega

/-- The file is modified once while the first call reads. -/
def modifiedOnce : List WatchEvent :=
  [.client [] false, .client [] false, .client [] false, .serve [], .opens 3, .adds 1, .modify,
   .deliver 3 ⟨1, 2, 0, []⟩, .reads 1, .look, .client [] false, .client [] false]

example : (run step (start [102] [] [120] [] 0) modifiedOnce).map (·.shown) = some [1] := by decide

end Watch

end Errifier.System
