import Errifier.Client.Rows
import Errifier.System.Genuine

/-!
# The client and all its servers

Any number of watchers share one client, and each has a connection on which its
server executes one `startNotifier` after the other. Calls of one server share its
descriptors, and watchers of one file share its modifications. What a watcher and
its calls see of all this is a `Watch`: a step of the whole is a step of it, or it
sees nothing of the step.
-/
namespace Errifier.System

set_option autoImplicit false

open Errifier.Text Errifier.Machine Errifier.Client Errifier.Server

/-- Which server answers at an address, and which file a path is there. -/
structure World (S F : Type) where
  server : StdString → S
  file : StdString → StdString → F

/-- What belongs to one watcher: the call on its connection, the inotify instances
that its calls have opened, and its history as in `Watch`. -/
structure Session where
  call : Option Phase
  instances : Int → Option Inotify
  window : Nat × Nat
  windows : List (Nat × Nat)
  shown : List Nat

def Session.new : Session := ⟨none, fun _ => none, (0, 0), [], []⟩

/-- A watcher is its place in `client.watchers`. `alarms` has the watcher of every
alarm. -/
structure Network (F : Type) where
  client : State
  sessions : Nat → Session
  modified : F → Nat
  alarms : List Nat

/-- A step of the UI thread, the next step of a watcher (whose call may throw), a step of its
server or of the kernel there, or a modification. -/
inductive NetworkEvent (F : Type) where
  | client (e : Event)
  | watcher (t : Nat) (thrown : Bool)
  | session (t : Nat) (e : WatchEvent)
  | modify (f : F)

/-- The steps of the server and the kernel. -/
def ofServer : WatchEvent → Bool
  | .client _ _ | .write _ | .modify => false
  | _ => true

def ofWatcher : Event → Bool
  | .watcher _ _ => true
  | _ => false

namespace Network
variable {S F : Type}

def start : Network F where
  client := Client.start
  sessions _ := .new
  modified _ := 0
  alarms := []

section Seen
variable (world : World S F) (s : Network F)

/-- The whole as watcher `t` and its calls see it. -/
def view (t : Nat) (w : Watcher) : Watch where
  args := { w.args with runstate := 0 }
  cells := [s.client.cell w.args.runstate]
  pc := w.pc
  call := (s.sessions t).call
  instances := (s.sessions t).instances
  modified := s.modified (world.file w.args.ip w.args.filename)
  window := (s.sessions t).window
  windows := (s.sessions t).windows
  shown := (s.sessions t).shown

/-- The session after a step of its server. -/
def put (t : Nat) (v : Watch) : Network F :=
  { s with
    sessions :=
      Function.update s.sessions t ⟨v.call, v.instances, v.window, v.windows, v.shown⟩ }

end Seen

section Step
variable [DecidableEq S] [DecidableEq F] (world : World S F) (s : Network F)

/-- No call of the server that `w` is connected to has opened the descriptor. -/
def unopened (w : Watcher) (fd : Int) : Bool :=
  (List.range s.client.watchers.length).all fun u =>
    s.client.watchers[u]?.all fun v =>
      world.server v.args.ip ≠ world.server w.args.ip || ((s.sessions u).instances fd).isNone

/-- `inotify_init` returns a descriptor that no call of the process has. -/
def allows (w : Watcher) : WatchEvent → Bool
  | .opens fd => s.unopened world w fd
  | _ => true

/-- A step of a watcher. It waits for the reply to its call unless that throws. -/
def watcher (t : Nat) (w : Watcher) (thrown : Bool) : Option (Network F) :=
  if w.pc = .call ∧ thrown = false ∧ (s.view world t w).reply = none then none
  else
    (Client.step s.client (.watcher t ((s.view world t w).received thrown))).map fun client =>
      { s with
        client
        sessions := Function.update s.sessions t
          { s.sessions t with
            call := if w.pc = .call then none else (s.sessions t).call
            windows :=
              if w.pc = .call ∧ (s.view world t w).received thrown = some 1 then
                (s.sessions t).windows ++ [(s.sessions t).window]
              else (s.sessions t).windows
            shown :=
              if w.pc = .show then
                (s.sessions t).shown ++ [s.modified (world.file w.args.ip w.args.filename)]
              else (s.sessions t).shown }
        alarms := if w.pc = .show then s.alarms ++ [t] else s.alarms }

def step : NetworkEvent F → Option (Network F)
  | .client e =>
    if ofWatcher e then none
    else (Client.step s.client e).map fun client => { s with client }
  | .watcher t thrown => s.client.watchers[t]?.bind fun w => s.watcher world t w thrown
  | .session t e =>
    s.client.watchers[t]?.bind fun w =>
      if ofServer e && s.allows world w e then ((s.view world t w).step e).map (s.put t) else none
  | .modify f => some { s with modified := Function.update s.modified f (s.modified f + 1) }

end Step

section View
variable {world : World S F} {s s' : Network F}

/-- A step of `startWatch` reads nothing but its own cell. -/
theorem startWatch_own (cells : List Int) (model : List Row) (a : WatchArgs) (reply : Option Int)
    (pc : Pc) :
    startWatch [cells.getD a.runstate 0] model { a with runstate := 0 } reply pc =
      startWatch cells model a reply pc := by
  cases pc with
  | call => cases reply with
    | none => rfl
    | some r => rfl
  | _ => rfl

/-- An alarm is shown in one place. -/
theorem alarmed_eq {v : Watch} {cells : List Int} {model : List Row} {a : WatchArgs}
    {reply : Option Int} {pc : Pc} {k : Effect} (hk : startWatch cells model a reply pc = some k) :
    v.alarmed k.notice = if pc = .show then [v.modified] else [] := by
  cases acts_of_startWatch hk with
  | _ => rfl

/-- A step of the watcher, told from that of `startWatch`. -/
theorem client_of_startWatch {v : Watch} {model : List Row} {thrown : Bool} {k : Effect}
    (hwait : ¬ (v.pc = .call ∧ thrown = false ∧ v.reply = none))
    (hk : startWatch v.cells model v.args (v.received thrown) v.pc = some k) :
    v.client model thrown = some { v with
      pc := k.pc
      call := if v.pc = .call then none else v.call
      windows :=
        if v.pc = .call ∧ v.received thrown = some 1 then v.windows ++ [v.window] else v.windows
      shown := if v.pc = .show then v.shown ++ [v.modified] else v.shown } := by
  rw [Watch.client, if_neg hwait, hk, Option.map_some, alarmed_eq hk]
  by_cases hshow : v.pc = .show
  · rw [if_pos hshow, if_pos hshow]
  · rw [if_neg hshow, if_neg hshow, List.append_nil]

/-- The server and the kernel leave the watcher alone. -/
theorem kept_of_server {v v' : Watch} {e : WatchEvent} (he : ofServer e = true)
    (h : v.step e = some v') :
    v'.args = v.args ∧ v'.cells = v.cells ∧ v'.pc = v.pc ∧ v'.modified = v.modified ∧
      v'.shown = v.shown ∧ v'.windows = v.windows := by
  have server : ∀ {r : SysResult} {u : Watch}, v.server r = some u →
      u.args = v.args ∧ u.cells = v.cells ∧ u.pc = v.pc ∧ u.modified = v.modified ∧
        u.shown = v.shown ∧ u.windows = v.windows := by
    intro r u hu
    obtain ⟨phase, phase', -, -, rfl⟩ := Watch.server_cases hu
    exact ⟨rfl, rfl, rfl, rfl, rfl, rfl⟩
  cases e with
  | client model thrown => cases he
  | write state => cases he
  | modify => cases he
  | serve stack =>
    simp only [Watch.step] at h
    split at h
    · obtain rfl := Option.some.inj h
      exact ⟨rfl, rfl, rfl, rfl, rfl, rfl⟩
    · cases h
  | opens fd =>
    simp only [Watch.step, Watch.opens] at h
    split at h
    · obtain ⟨u, hu, rfl⟩ := Option.map_eq_some_iff.mp h
      have hkept := server hu
      split
      · exact hkept
      · exact hkept
    · cases h
  | adds wd =>
    simp only [Watch.step, Watch.adds] at h
    split at h
    · split at h
      · exact server h
      · split at h
        · cases h
        · obtain ⟨u, hu, rfl⟩ := Option.map_eq_some_iff.mp h
          have hkept := server hu
          exact hkept
    · cases h
  | fails => exact server h
  | empty => exact server h
  | reads k =>
    simp only [Watch.step, Watch.reads] at h
    split at h
    · split at h
      · cases h
      · split at h
        · obtain ⟨u, hu, rfl⟩ := Option.map_eq_some_iff.mp h
          have hkept := server hu
          exact hkept
        · cases h
    · cases h
  | look => exact server h
  | deliver fd e =>
    simp only [Watch.step, Watch.deliver] at h
    split at h
    · cases h
    · split at h
      · obtain rfl := Option.some.inj h
        exact ⟨rfl, rfl, rfl, rfl, rfl, rfl⟩
      · cases h

theorem view_put {t : Nat} {w : Watcher} {e : WatchEvent} {v : Watch} (he : ofServer e = true)
    (h : (s.view world t w).step e = some v) : (s.put t v).view world t w = v := by
  obtain ⟨hargs, hcells, hpc, hmodified, -⟩ := kept_of_server he h
  simp only [view, put, Function.update_self]
  obtain ⟨args, cells, pc, call, instances, modified, window, windows, shown⟩ := v
  dsimp only at hargs hcells hpc hmodified
  subst hargs hcells hpc hmodified
  rfl

/-- What watcher `t` sees of a step: it is started, sees nothing, or makes or suffers
a step of its `Watch`. -/
inductive Sees (world : World S F) (s s' : Network F) (t : Nat) (w' : Watcher) : Prop
  | starts (hnone : s.client.watchers[t]? = none) (hpc : w'.pc = .init)
      (hsession : s'.sessions t = s.sessions t)
  | nothing (w : Watcher) (hw : s.client.watchers[t]? = some w) (hargs : w'.args = w.args)
      (hview : s'.view world t w' = s.view world t w)
  | steps (w : Watcher) (hw : s.client.watchers[t]? = some w) (hargs : w'.args = w.args)
      (e : WatchEvent) (hstep : (s.view world t w).step e = some (s'.view world t w'))

/-- The UI thread writes to its cell, or starts it. -/
theorem sees_of_client {e : Event} (he : ofWatcher e = false) {client : State}
    (hs : Client.step s.client e = some client) {t : Nat} {w' : Watcher}
    (hw' : client.watchers[t]? = some w') : Sees world s { s with client } t w' := by
  have writes : s.client.watchers[t]? = some w' → Sees world s { s with client } t w' :=
    fun hw => .steps w' hw rfl (.write (client.cell w'.args.runstate)) rfl
  rcases (move_of_step hs).watchers with hsame | ⟨w, hpc, happ⟩ | ⟨u, reply, v, k, -, rfl, -, -⟩
  · exact writes (by rw [← hsame, hw'])
  · rw [happ] at hw'
    rcases Nat.lt_or_ge t s.client.watchers.length with hlt | hge
    · rw [List.getElem?_append_left hlt] at hw'
      exact writes hw'
    · obtain ⟨hlt, -⟩ := List.getElem?_eq_some_iff.mp hw'
      rw [List.length_append, List.length_singleton] at hlt
      obtain rfl : t = s.client.watchers.length := by omega
      rw [List.getElem?_concat_length] at hw'
      obtain rfl := Option.some.inj hw'
      exact .starts (List.getElem?_eq_none (Nat.le_refl _)) hpc rfl
  · cases he

/-- Its own step, or that of another watcher. -/
theorem sees_of_watcher {u : Nat} {v : Watcher} (hv : s.client.watchers[u]? = some v)
    {thrown : Bool} (hs : s.watcher world u v thrown = some s') {t : Nat} {w' : Watcher}
    (hw' : s'.client.watchers[t]? = some w') : Sees world s s' t w' := by
  unfold watcher at hs
  split at hs
  · cases hs
  rename_i hwait
  obtain ⟨client, hstep, rfl⟩ := Option.map_eq_some_iff.mp hs
  obtain ⟨v', k, hv', hk, rfl⟩ := step_watcher hstep
  obtain rfl := Option.some.inj (hv.symm.trans hv')
  by_cases htu : t = u
  · subst htu
    obtain ⟨hlt, -⟩ := List.getElem?_eq_some_iff.mp hv
    have hself : ((s.client.watchers.set t { v with pc := k.pc })[t]?) = some w' := hw'
    rw [List.getElem?_set_self hlt] at hself
    obtain rfl := Option.some.inj hself
    have hown := startWatch_own s.client.serv.cells s.client.model v.args
      ((s.view world t v).received thrown) v.pc
    rw [hk] at hown
    refine .steps v hv rfl (.client s.client.model thrown) ?_
    refine (client_of_startWatch (v := s.view world t v) hwait hown).trans ?_
    simp only [view, Function.update_self, State.advance, State.cell]
    rfl
  · have hother : ((s.client.watchers.set u { v with pc := k.pc })[t]?) = some w' := hw'
    rw [List.getElem?_set_ne (Ne.symm htu)] at hother
    refine .nothing w' hother rfl ?_
    simp only [view, Function.update_of_ne htu, State.advance, State.cell]

/-- A step of its own server, or of another one. -/
theorem sees_of_session {u : Nat} {v : Watcher} (hv : s.client.watchers[u]? = some v)
    {e : WatchEvent} (he : ofServer e = true) {x : Watch} (hx : (s.view world u v).step e = some x)
    {t : Nat} {w' : Watcher} (hw' : s.client.watchers[t]? = some w') :
    Sees world s (s.put u x) t w' := by
  by_cases htu : t = u
  · subst htu
    obtain rfl := Option.some.inj (hv.symm.trans hw')
    exact .steps v hv rfl e (by rw [view_put he hx, hx])
  · refine .nothing w' hw' rfl ?_
    simp only [view, put, Function.update_of_ne htu]

theorem sees_of_modify [DecidableEq F] (f : F) {t : Nat} {w' : Watcher}
    (hw' : s.client.watchers[t]? = some w') :
    Sees world s { s with modified := Function.update s.modified f (s.modified f + 1) } t w' := by
  by_cases hf : world.file w'.args.ip w'.args.filename = f
  · refine .steps w' hw' rfl .modify ?_
    subst hf
    simp only [Watch.step, view, Function.update_self]
  · refine .nothing w' hw' rfl ?_
    simp only [view, Function.update_of_ne hf]

variable (world s) in
/-- Each watcher with its calls is a sound `Watch`. -/
structure Watched : Prop where
  sound : ∀ t w, s.client.watchers[t]? = some w → (s.view world t w).Sound
  unused : ∀ t, s.client.watchers[t]? = none → s.sessions t = .new

/-- A watcher that is started has made no call. -/
theorem sound_new {t : Nat} {w : Watcher} (hpc : w.pc = .init) (hnew : s.sessions t = .new) :
    (s.view world t w).Sound := by
  have hcall : (s.view world t w).call = none := congrArg Session.call hnew
  have hinst : (s.view world t w).instances = fun _ => none := congrArg Session.instances hnew
  have hwindows : (s.view world t w).windows = [] := congrArg Session.windows hnew
  have hshown : (s.view world t w).shown = [] := congrArg Session.shown hnew
  refine ⟨fun p hp => ?_, fun fd inst hi => ?_, fun x hx => ?_, ?_, fun k n hk => ?_, ?_⟩
  · rw [hcall] at hp
    cases hp
  · rw [hinst] at hi
    cases hi
  · rw [hwindows] at hx
    cases hx
  · rw [hwindows]
    exact List.Pairwise.nil
  · rw [hshown] at hk
    cases hk
  · rw [hwindows, hshown]
    change 0 = 0 + if w.pc = .show then 1 else 0
    rw [hpc]
    rfl

variable [DecidableEq S] [DecidableEq F]

theorem sees_of_step {e : NetworkEvent F} (hs : s.step world e = some s') {t : Nat} {w' : Watcher}
    (hw' : s'.client.watchers[t]? = some w') : Sees world s s' t w' := by
  cases e with
  | client e =>
    simp only [step] at hs
    split at hs
    · cases hs
    · rename_i he
      obtain ⟨client, hstep, rfl⟩ := Option.map_eq_some_iff.mp hs
      exact sees_of_client (by simpa using he) hstep hw'
  | watcher u thrown =>
    obtain ⟨v, hv, hs⟩ := Option.bind_eq_some_iff.mp hs
    exact sees_of_watcher hv hs hw'
  | session u e =>
    obtain ⟨v, hv, hs⟩ := Option.bind_eq_some_iff.mp hs
    split at hs
    · rename_i hguard
      obtain ⟨x, hx, rfl⟩ := Option.map_eq_some_iff.mp hs
      exact sees_of_session hv (Bool.and_eq_true_iff.mp hguard).1 hx hw'
    · cases hs
  | modify f =>
    obtain rfl := Option.some.inj hs
    exact sees_of_modify f hw'

theorem length_watchers_step {e : Event} {client client' : State}
    (hs : Client.step client e = some client') :
    client.watchers.length ≤ client'.watchers.length := by
  rcases (move_of_step hs).watchers with hsame | ⟨w, -, happ⟩ | ⟨u, reply, v, k, -, -, -, rfl⟩
  · rw [hsame]
  · rw [happ, List.length_append]
    exact Nat.le_add_right ..
  · exact Nat.le_of_eq (List.length_set ..).symm

/-- Watchers stay, and sessions change with a watcher only. -/
theorem grows_of_step {e : NetworkEvent F} (hs : s.step world e = some s') :
    s.client.watchers.length ≤ s'.client.watchers.length ∧
      ∀ t, s.client.watchers[t]? = none → s'.sessions t = s.sessions t := by
  have other : ∀ {u t : Nat} {w : Watcher}, s.client.watchers[u]? = some w →
      s.client.watchers[t]? = none → t ≠ u := by
    rintro u t w hw hnone rfl
    rw [hw] at hnone
    cases hnone
  cases e with
  | client e =>
    simp only [step] at hs
    split at hs
    · cases hs
    · obtain ⟨client, hstep, rfl⟩ := Option.map_eq_some_iff.mp hs
      exact ⟨length_watchers_step hstep, fun t _ => rfl⟩
  | watcher u thrown =>
    obtain ⟨w, hw, hs⟩ := Option.bind_eq_some_iff.mp hs
    unfold watcher at hs
    split at hs
    · cases hs
    · obtain ⟨client, hstep, rfl⟩ := Option.map_eq_some_iff.mp hs
      exact ⟨length_watchers_step hstep, fun t ht => Function.update_of_ne (other hw ht) ..⟩
  | session u e =>
    obtain ⟨w, hw, hs⟩ := Option.bind_eq_some_iff.mp hs
    split at hs
    · obtain ⟨x, -, rfl⟩ := Option.map_eq_some_iff.mp hs
      exact ⟨Nat.le_refl _, fun t ht => Function.update_of_ne (other hw ht) ..⟩
    · cases hs
  | modify f =>
    obtain rfl := Option.some.inj hs
    exact ⟨Nat.le_refl _, fun t _ => rfl⟩

theorem Watched.step {e : NetworkEvent F} (h : Watched world s) (hs : s.step world e = some s') :
    Watched world s' where
  sound t w' hw' := by
    cases sees_of_step hs hw' with
    | starts hnone hpc hsession => exact sound_new hpc (hsession.trans (h.unused t hnone))
    | nothing w hw _ hview =>
      rw [hview]
      exact h.sound t w hw
    | steps w hw _ e hstep => exact (h.sound t w hw).step hstep
  unused t ht := by
    obtain ⟨hlen, hsession⟩ := grows_of_step hs
    have hnone : s.client.watchers[t]? = none :=
      List.getElem?_eq_none (Nat.le_trans hlen (List.getElem?_eq_none_iff.mp ht))
    rw [hsession t hnone]
    exact h.unused t hnone

end View

def isAlarm : Notice → Bool
  | .alarm _ _ => true
  | .down _ _ => false

/-- The alarm of watcher `t`. -/
def alarmOf (s : Network F) (t : Nat) : Option Notice :=
  s.client.watchers[t]?.map fun w => .alarm w.args.friendlyname w.args.servername

/-- `alarms` says of each alarm that the user has seen whose it is. -/
structure Ledger (s : Network F) : Prop where
  named : s.client.shown.filter isAlarm = s.alarms.filterMap s.alarmOf
  started : ∀ t ∈ s.alarms, t < s.client.watchers.length
  counted : ∀ t, (s.sessions t).shown.length = s.alarms.count t

section Alarms
variable {world : World S F} {s s' : Network F}

theorem ledger_start : Ledger (start : Network F) := by
  constructor
  · rfl
  · intro t ht; cases ht
  · intro t; rfl

theorem alarm_of_startWatch {cells : List Int} {model : List Row} {a : WatchArgs}
    {reply : Option Int} {pc : Pc} {k : Effect} (hk : startWatch cells model a reply pc = some k) :
    k.notice.toList.filter isAlarm =
      if pc = .show then [.alarm a.friendlyname a.servername] else [] := by
  cases acts_of_startWatch hk with
  | _ => rfl

/-- No alarm is shown in the step. -/
theorem Ledger.quiet (h : Ledger s)
    (hshown : s'.client.shown.filter isAlarm = s.client.shown.filter isAlarm)
    (halarms : s'.alarms = s.alarms)
    (hlen : s.client.watchers.length ≤ s'.client.watchers.length)
    (hof : ∀ t < s.client.watchers.length, s'.alarmOf t = s.alarmOf t)
    (hsessions : ∀ t, (s'.sessions t).shown = (s.sessions t).shown) : Ledger s' where
  named := by
    rw [hshown, halarms, h.named]
    exact List.filterMap_congr fun t ht => (hof t (h.started t ht)).symm
  started t ht := by
    rw [halarms] at ht
    exact Nat.lt_of_lt_of_le (h.started t ht) hlen
  counted t := by
    rw [hsessions, halarms]
    exact h.counted t

/-- The UI thread shows no notification. -/
theorem shown_of_client {e : Event} (he : ofWatcher e = false) {client client' : State}
    (hs : Client.step client e = some client') : client'.shown = client.shown := by
  cases move_of_step hs with
  | watched => cases he
  | _ => rfl

theorem alarmOf_of_args {t : Nat} (h : ∀ w, s.client.watchers[t]? = some w →
      ∃ w', s'.client.watchers[t]? = some w' ∧ w'.args = w.args)
    (ht : t < s.client.watchers.length) : s'.alarmOf t = s.alarmOf t := by
  obtain ⟨w', hw', hargs⟩ := h _ (List.getElem?_eq_getElem ht)
  rw [alarmOf, alarmOf, hw', List.getElem?_eq_getElem ht, Option.map_some, Option.map_some, hargs]

/-- An alarm is entered when it is shown. -/
theorem Ledger.watcher {t : Nat} {w : Watcher} (h : Ledger s) (hw : s.client.watchers[t]? = some w)
    {thrown : Bool} (hs : s.watcher world t w thrown = some s')
    (hof : ∀ u < s.client.watchers.length, s'.alarmOf u = s.alarmOf u) : Ledger s' := by
  unfold Network.watcher at hs
  split at hs
  · cases hs
  obtain ⟨client, hstep, rfl⟩ := Option.map_eq_some_iff.mp hs
  obtain ⟨w₀, k, hw₀, hk, rfl⟩ := step_watcher hstep
  obtain rfl := Option.some.inj (hw.symm.trans hw₀)
  obtain ⟨ht, -⟩ := List.getElem?_eq_some_iff.mp hw
  have hlen : s.client.watchers.length ≤ (s.client.advance t w k).watchers.length :=
    length_watchers_step hstep
  have hnotice := alarm_of_startWatch hk
  by_cases hshow : w.pc = .show
  · rw [if_pos hshow] at hnotice
    simp only [if_pos hshow] at hof ⊢
    refine ⟨?_, fun u hu => ?_, fun u => ?_⟩
    · change (s.client.shown ++ k.notice.toList).filter isAlarm = _
      have hold : s.alarms.filterMap s.alarmOf = s.alarms.filterMap _ :=
        List.filterMap_congr fun u hu => (hof u (h.started u hu)).symm
      rw [List.filter_append, hnotice, h.named, hold, List.filterMap_append]
      refine congrArg _ ?_
      rw [List.filterMap_cons_some ((hof t ht).trans (by rw [alarmOf, hw]; rfl))]
      rfl
    · rcases List.mem_append.mp hu with hu | hu
      · exact Nat.lt_of_lt_of_le (h.started u hu) hlen
      · rw [List.mem_singleton.mp hu]
        exact Nat.lt_of_lt_of_le ht hlen
    · by_cases hut : u = t
      · subst hut
        simp only [Function.update_self, List.length_append, List.length_singleton,
          List.count_append, List.count_singleton_self, h.counted]
      · simp only [Function.update_of_ne hut, List.count_append,
          List.count_singleton, h.counted]
        simp [Ne.symm hut]
  · rw [if_neg hshow] at hnotice
    refine h.quiet ?_ (if_neg hshow) hlen hof fun u => ?_
    · change (s.client.shown ++ k.notice.toList).filter isAlarm = _
      rw [List.filter_append, hnotice, List.append_nil]
    · by_cases hut : u = t
      · subst hut
        simp only [Function.update_self, if_neg hshow]
      · simp only [Function.update_of_ne hut]

variable [DecidableEq S] [DecidableEq F]

theorem alarmOf_step {e : NetworkEvent F} (hs : s.step world e = some s') {t : Nat}
    (ht : t < s.client.watchers.length) : s'.alarmOf t = s.alarmOf t := by
  refine alarmOf_of_args (fun w hw => ?_) ht
  have hlt := Nat.lt_of_lt_of_le ht (grows_of_step hs).1
  refine ⟨_, List.getElem?_eq_getElem hlt, ?_⟩
  cases sees_of_step hs (List.getElem?_eq_getElem hlt) with
  | starts hnone => rw [hw] at hnone; cases hnone
  | nothing w₀ hw₀ hargs => rw [hargs, Option.some.inj (hw₀.symm.trans hw)]
  | steps w₀ hw₀ hargs => rw [hargs, Option.some.inj (hw₀.symm.trans hw)]

theorem Ledger.step {e : NetworkEvent F} (h : Ledger s) (hs : s.step world e = some s') :
    Ledger s' := by
  have hlen := (grows_of_step hs).1
  have hof : ∀ t < s.client.watchers.length, s'.alarmOf t = s.alarmOf t := fun t ht =>
    alarmOf_step hs ht
  cases e with
  | client e =>
    simp only [Network.step] at hs
    split at hs
    · cases hs
    · rename_i he
      obtain ⟨client, hstep, rfl⟩ := Option.map_eq_some_iff.mp hs
      have hshown := shown_of_client (by simpa using he) hstep
      exact h.quiet (congrArg (List.filter isAlarm) hshown) rfl hlen hof fun t => rfl
  | watcher t thrown =>
    obtain ⟨w, hw, hs⟩ := Option.bind_eq_some_iff.mp hs
    exact h.watcher hw hs hof
  | session t e =>
    obtain ⟨w, hw, hs⟩ := Option.bind_eq_some_iff.mp hs
    split at hs
    · rename_i hguard
      obtain ⟨v, hv, rfl⟩ := Option.map_eq_some_iff.mp hs
      obtain ⟨-, -, -, -, hshown, -⟩ := kept_of_server (Bool.and_eq_true_iff.mp hguard).1 hv
      refine h.quiet rfl rfl hlen hof fun u => ?_
      by_cases hut : u = t
      · subst hut
        simp only [put, Function.update_self]
        exact hshown
      · simp only [put, Function.update_of_ne hut]
    · cases hs
  | modify f =>
    obtain rfl := Option.some.inj hs
    exact h.quiet rfl rfl hlen hof fun t => rfl

end Alarms

section Runs
variable {world : World S F} {s s' : Network F}

structure Invariant (world : World S F) (s : Network F) : Prop where
  watched : Watched world s
  ledger : Ledger s
  client : Reachable Client.step Client.start s.client

theorem invariant_start : Invariant world (start : Network F) where
  watched := ⟨fun t w hw => (by cases hw), fun _ _ => rfl⟩
  ledger := ledger_start
  client := ⟨[], rfl⟩

/-- Windows that are not empty, one behind the other. -/
theorem length_windows_le {windows : List (Nat × Nat)} {m : Nat}
    (h : ∀ x ∈ windows, x.1 < x.2 ∧ x.2 ≤ m) (hp : windows.Pairwise fun x y => x.2 ≤ y.1) :
    windows.length ≤ m := by
  have hfrom : ∀ a ≤ m, (∀ x ∈ windows, a ≤ x.1) → windows.length + a ≤ m := by
    induction windows with
    | nil => intro a ha _; simpa using ha
    | cons x windows ih =>
      intro a _ hall
      obtain ⟨hx, hrest⟩ := List.pairwise_cons.mp hp
      obtain ⟨hlt, hle⟩ := h x List.mem_cons_self
      have hax := hall x List.mem_cons_self
      have hlen := ih (fun y hy => h y (List.mem_cons_of_mem x hy)) hrest x.2 hle hx
      rw [List.length_cons]
      omega
  exact hfrom 0 (Nat.zero_le m) fun x _ => Nat.zero_le x.1

variable [DecidableEq S] [DecidableEq F]

/-- What the client does among its servers it does in some run of its own. -/
theorem client_of_step {e : NetworkEvent F} (hs : s.step world e = some s') :
    s'.client = s.client ∨ ∃ e', Client.step s.client e' = some s'.client := by
  cases e with
  | client e =>
    simp only [step] at hs
    split at hs
    · cases hs
    · obtain ⟨client, hstep, rfl⟩ := Option.map_eq_some_iff.mp hs
      exact Or.inr ⟨e, hstep⟩
  | watcher t thrown =>
    obtain ⟨w, hw, hs⟩ := Option.bind_eq_some_iff.mp hs
    unfold watcher at hs
    split at hs
    · cases hs
    · obtain ⟨client, hstep, rfl⟩ := Option.map_eq_some_iff.mp hs
      exact Or.inr ⟨_, hstep⟩
  | session t e =>
    obtain ⟨w, hw, hs⟩ := Option.bind_eq_some_iff.mp hs
    split at hs
    · obtain ⟨v, hv, rfl⟩ := Option.map_eq_some_iff.mp hs
      exact Or.inl rfl
    · cases hs
  | modify f =>
    obtain rfl := Option.some.inj hs
    exact Or.inl rfl

theorem Invariant.step {e : NetworkEvent F} (h : Invariant world s)
    (hs : s.step world e = some s') : Invariant world s' where
  watched := h.watched.step hs
  ledger := h.ledger.step hs
  client := by
    rcases client_of_step hs with hsame | ⟨e', hstep⟩
    · rw [hsame]
      exact h.client
    · obtain ⟨es, hes⟩ := h.client
      exact ⟨es ++ [e'], run_append hes (Option.bind_eq_some_iff.mpr ⟨_, hstep, rfl⟩)⟩

/-- In every run of the whole, whatever else the client and its servers do. Each
alarm the user has seen is a certain watcher's and names its watch. Alarm `k` of a
watcher comes behind the `k`-th of its calls that returned 1, and in the window of
this call, from its `inotify_add_watch` to its return, the watched file was
modified; windows of one watcher do not overlap. So a watcher never shows more
alarms than its file had modifications. The client itself does nothing that it does
not do in some run of its own. -/
theorem alarms_of_modifications (world : World S F) (es : List (NetworkEvent F)) :
    Along (step world) (fun s =>
      Reachable Client.step Client.start s.client ∧
      s.client.shown.filter isAlarm = s.alarms.filterMap s.alarmOf ∧
      ∀ t w, s.client.watchers[t]? = some w →
        (∀ (k n : Nat), (s.sessions t).shown[k]? = some n →
          ∃ x, (s.sessions t).windows[k]? = some x ∧ x.1 < x.2 ∧ x.2 ≤ n) ∧
        (s.sessions t).windows.Pairwise (fun x y => x.2 ≤ y.1) ∧
        (s.sessions t).shown.length = s.alarms.count t ∧
        s.alarms.count t ≤ s.modified (world.file w.args.ip w.args.filename)) start es := by
  refine (along (fun _ _ _ h hs => Invariant.step h hs) invariant_start es).mono fun s h => ?_
  refine ⟨h.client, h.ledger.named, fun t w hw => ?_⟩
  have hsound := h.watched.sound t w hw
  have hcounted := h.ledger.counted t
  refine ⟨fun k n hk => ?_, hsound.apart, hcounted, ?_⟩
  · obtain ⟨x, hx, hle⟩ := hsound.shown k n hk
    exact ⟨x, hx, (hsound.windows x (List.mem_of_getElem? hx)).1, hle⟩
  · have hlen : (s.sessions t).windows.length = (s.sessions t).shown.length + _ := hsound.count
    have hle : (s.sessions t).windows.length ≤
        s.modified (world.file w.args.ip w.args.filename) :=
      length_windows_le hsound.windows hsound.apart
    omega

end Runs

end Network

end Errifier.System
