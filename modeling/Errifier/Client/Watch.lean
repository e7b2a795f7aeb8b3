import Errifier.Client.Table

/-!
# `WorkerThread::startWatch`, step by step

A watcher thread is what it was started with and a position in `startWatch`.
Each access to the run-state cell, to the table and to libnotify is a step of its
own. A step reads the cells and the table and returns what it writes; the only
input from outside is how the pending `startNotifier` call ends.
-/
namespace Errifier.Client

set_option autoImplicit false

open Errifier.Text

def THREAD_LOCK : Int := 0
def THREAD_RUN : Int := 1
def THREAD_STOP : Int := 2

/-- The arguments bound at `new boost::thread(&startWatch, ...)`. `ip` is the
address that `transport` was opened to. -/
structure WatchArgs where
  runstate : Nat
  filename : StdString
  ip : StdString
  friendlyname : StdString
  servername : StdString
  deriving DecidableEq

/-- The next thing the thread does: `notify_init(friendlyname)`, the test of the `while`
loop, the test for THREAD_RUN, the end of the pending `startNotifier`, showing the alarm,
`transport->close()`; in the catch block showing the message, `notify_uninit()`,
`model->rowCount()`, the loop test and comparison with row `i`, `model->index(i, 3)` and
`setData`; `notify_uninit()` at the end. -/
inductive Pc where
  | init
  | loop
  | test
  | call
  | show
  | close
  | errShow
  | errUninit
  | errCount
  | errSearch (rowCount i : Nat)
  | errIndex (i : Nat)
  | errSet (index : Option Nat)
  | uninit
  | done
  deriving DecidableEq

structure Watcher where
  args : WatchArgs
  pc : Pc
  deriving DecidableEq

/-- The notifications that are shown: after a call that returned 1, and in the catch
block. -/
inductive Notice where
  | alarm (friendlyname servername : StdString)
  | down (friendlyname servername : StdString)
  deriving DecidableEq

/-- What a step writes: where the thread goes, whether libnotify is now
initialised, what is shown, and the row whose status becomes an error. -/
structure Effect where
  pc : Pc
  initted : Option Bool := none
  notice : Option Notice := none
  mark : Option Nat := none

def afterLoopTest (runstate : Int) : Pc := if runstate ≠ THREAD_STOP then .test else .close

def afterRunTest (runstate : Int) : Pc := if runstate = THREAD_RUN then .call else .loop

def afterReply (r : Int) : Pc := if r = 1 then .show else .loop

/-- One step of `startWatch`. `reply` is what the pending `startNotifier`
returns, none when it throws; the other steps do not look at it. -/
def startWatch (cells : List Int) (model : List Row) (a : WatchArgs) (reply : Option Int) :
    Pc → Option Effect
  | .init => some { pc := .loop, initted := some true }
  | .loop => some { pc := afterLoopTest (cells.getD a.runstate 0) }
  | .test => some { pc := afterRunTest (cells.getD a.runstate 0) }
  | .call =>
    match reply with
    | some r => some { pc := afterReply r }
    | none => some { pc := .errShow }
  | .show => some { pc := .loop, notice := some (.alarm a.friendlyname a.servername) }
  | .close => some { pc := .uninit }
  | .errShow => some { pc := .errUninit, notice := some (.down a.friendlyname a.servername) }
  | .errUninit => some { pc := .errCount, initted := some false }
  | .errCount => some { pc := .errSearch model.length 0 }
  | .errSearch rowCount i =>
    if i < rowCount then
      if a.friendlyname = toStdString (dataAt model i (·.friendlyName)) then some { pc := .errIndex i }
      else some { pc := .errSearch rowCount (i + 1) }
    else some { pc := .errIndex i }
  | .errIndex i => some { pc := .errSet (if i < model.length then some i else none) }
  | .errSet index => some { pc := .uninit, mark := index }
  | .uninit => some { pc := .done, initted := some false }
  | .done => none

/-- What one step can do: the reply it needs, where it is taken and its effect. -/
inductive Acts (cells : List Int) (model : List Row) (a : WatchArgs) :
    Option Int → Pc → Effect → Prop
  | inits (reply : Option Int) : Acts cells model a reply .init { pc := .loop, initted := some true }
  | loops (reply : Option Int) :
      Acts cells model a reply .loop { pc := afterLoopTest (cells.getD a.runstate 0) }
  | tests (reply : Option Int) :
      Acts cells model a reply .test { pc := afterRunTest (cells.getD a.runstate 0) }
  | replied (r : Int) : Acts cells model a (some r) .call { pc := afterReply r }
  | thrown : Acts cells model a none .call { pc := .errShow }
  | shows (reply : Option Int) :
      Acts cells model a reply .show { pc := .loop, notice := some (.alarm a.friendlyname a.servername) }
  | closes (reply : Option Int) : Acts cells model a reply .close { pc := .uninit }
  | errShows (reply : Option Int) :
      Acts cells model a reply .errShow
        { pc := .errUninit, notice := some (.down a.friendlyname a.servername) }
  | errUninits (reply : Option Int) :
      Acts cells model a reply .errUninit { pc := .errCount, initted := some false }
  | counts (reply : Option Int) :
      Acts cells model a reply .errCount { pc := .errSearch model.length 0 }
  | finds (reply : Option Int) (rowCount i : Nat) (hi : i < rowCount)
      (hname : a.friendlyname = toStdString (dataAt model i (·.friendlyName))) :
      Acts cells model a reply (.errSearch rowCount i) { pc := .errIndex i }
  | passes (reply : Option Int) (rowCount i : Nat) (hi : i < rowCount)
      (hname : a.friendlyname ≠ toStdString (dataAt model i (·.friendlyName))) :
      Acts cells model a reply (.errSearch rowCount i) { pc := .errSearch rowCount (i + 1) }
  | ends (reply : Option Int) (rowCount i : Nat) (hi : rowCount ≤ i) :
      Acts cells model a reply (.errSearch rowCount i) { pc := .errIndex i }
  | indexes (reply : Option Int) (i : Nat) :
      Acts cells model a reply (.errIndex i)
        { pc := .errSet (if i < model.length then some i else none) }
  | marks (reply : Option Int) (index : Option Nat) :
      Acts cells model a reply (.errSet index) { pc := .uninit, mark := index }
  | uninits (reply : Option Int) :
      Acts cells model a reply .uninit { pc := .done, initted := some false }

theorem acts_of_startWatch {cells : List Int} {model : List Row} {a : WatchArgs}
    {reply : Option Int} {pc : Pc} {k : Effect} (h : startWatch cells model a reply pc = some k) :
    Acts cells model a reply pc k := by
  cases pc with
  | init => obtain rfl := Option.some.inj h; exact .inits _
  | loop => obtain rfl := Option.some.inj h; exact .loops _
  | test => obtain rfl := Option.some.inj h; exact .tests _
  | call =>
    cases reply with
    | some r => obtain rfl := Option.some.inj h; exact .replied r
    | none => obtain rfl := Option.some.inj h; exact .thrown
  | «show» => obtain rfl := Option.some.inj h; exact .shows _
  | close => obtain rfl := Option.some.inj h; exact .closes _
  | errShow => obtain rfl := Option.some.inj h; exact .errShows _
  | errUninit => obtain rfl := Option.some.inj h; exact .errUninits _
  | errCount => obtain rfl := Option.some.inj h; exact .counts _
  | errSearch rowCount i =>
    simp only [startWatch] at h
    split at h
    · rename_i hi
      split at h
      · rename_i hname
        obtain rfl := Option.some.inj h
        exact .finds _ _ _ hi hname
      · rename_i hname
        obtain rfl := Option.some.inj h
        exact .passes _ _ _ hi hname
    · rename_i hi
      obtain rfl := Option.some.inj h
      exact .ends _ _ _ (Nat.le_of_not_lt hi)
  | errIndex i => obtain rfl := Option.some.inj h; exact .indexes _ _
  | errSet index => obtain rfl := Option.some.inj h; exact .marks _ _
  | uninit => obtain rfl := Option.some.inj h; exact .uninits _
  | done => cases h

/-- Still inside the `while` loop. -/
def Pc.inLoop : Pc → Bool
  | .init | .loop | .test | .call | .show => true
  | _ => false

/-- The loop is not entered again. -/
theorem inLoop_act {cells : List Int} {model : List Row} {a : WatchArgs} {reply : Option Int}
    {pc : Pc} {k : Effect} (h : Acts cells model a reply pc k) (hp : pc.inLoop = false) :
    k.pc.inLoop = false := by
  cases h with
  | inits | loops | tests | replied | thrown | shows => cases hp
  | _ => rfl

/-- The row that the next step marks, none for an invalid index. -/
def Pc.marks : Pc → Option Nat
  | .errSet index => index
  | _ => none

theorem mark_eq {cells : List Int} {model : List Row} {a : WatchArgs} {reply : Option Int} {pc : Pc}
    {k : Effect} (h : startWatch cells model a reply pc = some k) : k.mark = pc.marks := by
  cases acts_of_startWatch h <;> rfl

/-- In the loop, or in the catch block with `setData` still to come. -/
def Pc.unmarked : Pc → Bool
  | .uninit | .done | .close => false
  | _ => true

end Errifier.Client
