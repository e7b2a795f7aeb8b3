import Errifier.Server.Inotify
import Errifier.Text.QString

/-!
# `startNotifier`, one system call or one event at a time

A call of the handler goes from one system call to the next. What a system call
returns comes from outside. `close(fd)` stands behind `while(1)` and is reached
from nowhere.
-/
namespace Errifier.Server

set_option autoImplicit false

open Errifier.Text

/-- What a system call returns: `inotify_init`, `inotify_add_watch`, a read that comes to -1
and one that comes to a number of bytes; `none` is no system call. -/
inductive SysResult where
  | fd (fd : Int)
  | wd (wd : Int)
  | failed
  | got (bytes : List UInt8)
  | none
  deriving DecidableEq

/-- The next thing the call does: `inotify_init()`, `inotify_add_watch(fd, ...)`,
`read(fd, buffer, BUF_LEN)` or the test `length > 0 && i < length` of the inner loop.
`buffer` starts as whatever the stack held. -/
inductive Phase where
  | init (buffer : Buffer)
  | addWatch (fd : Int) (buffer : Buffer)
  | read (fd : Int) (buffer : Buffer)
  | scan (fd : Int) (buffer : Buffer) (length i : Int)
  | returned (r : Int)
  deriving DecidableEq

structure Call where
  filename : StdString
  phase : Phase
  deriving DecidableEq

/-- `i += EVENT_SIZE + event->len`: a sum in `size_t`, stored in an `int`. -/
def nextEvent (buffer : Buffer) (i : Int) : Int :=
  Int.bmod (i + (EVENT_SIZE + lenAt buffer i.toNat)) UInt32.size

/-- The event at `&buffer[i]` is looked at and has IN_MODIFY. -/
def Hits (buffer : Buffer) (length i : Int) : Prop :=
  0 < length ∧ i < length ∧ maskAt buffer i.toNat &&& IN_MODIFY ≠ 0

instance (buffer : Buffer) (length i : Int) : Decidable (Hits buffer length i) :=
  inferInstanceAs (Decidable (_ ∧ _ ∧ _))

/-- The inner loop, one test at a time. -/
def scan (fd : Int) (buffer : Buffer) (length i : Int) : Phase :=
  if 0 < length ∧ i < length then
    if maskAt buffer i.toNat &&& IN_MODIFY ≠ 0 then .returned 1
    else .scan fd buffer length (nextEvent buffer i)
  else .read fd buffer

/-- One step of `startNotifier`; none when the result is not one of the call that
is due. -/
def startNotifier : Phase → SysResult → Option Phase
  | .init buffer, .fd fd => some (.addWatch fd buffer)
  | .addWatch fd buffer, .wd _ => some (.read fd buffer)
  | .read fd buffer, .failed => some (.scan fd buffer (-1) 0)
  | .read fd buffer, .got bytes =>
    if bytes.length ≤ BUF_LEN then
      some (.scan fd (bytes ++ buffer.drop bytes.length) bytes.length 0)
    else none
  | .scan fd buffer length i, .none => some (scan fd buffer length i)
  | _, _ => none

/-- What one step can do. -/
inductive Serves : Phase → SysResult → Phase → Prop
  | inits (buffer : Buffer) (fd : Int) : Serves (.init buffer) (.fd fd) (.addWatch fd buffer)
  | adds (fd : Int) (buffer : Buffer) (wd : Int) : Serves (.addWatch fd buffer) (.wd wd) (.read fd buffer)
  | fails (fd : Int) (buffer : Buffer) : Serves (.read fd buffer) .failed (.scan fd buffer (-1) 0)
  | reads (fd : Int) (buffer : Buffer) (bytes : List UInt8) (hlen : bytes.length ≤ BUF_LEN) :
      Serves (.read fd buffer) (.got bytes)
        (.scan fd (bytes ++ buffer.drop bytes.length) bytes.length 0)
  | finds (fd : Int) (buffer : Buffer) (length i : Int) (h : Hits buffer length i) :
      Serves (.scan fd buffer length i) .none (.returned 1)
  | passes (fd : Int) (buffer : Buffer) (length i : Int) (hl : 0 < length ∧ i < length)
      (hm : maskAt buffer i.toNat &&& IN_MODIFY = 0) :
      Serves (.scan fd buffer length i) .none (.scan fd buffer length (nextEvent buffer i))
  | ends (fd : Int) (buffer : Buffer) (length i : Int) (hl : ¬ (0 < length ∧ i < length)) :
      Serves (.scan fd buffer length i) .none (.read fd buffer)

theorem serves_of_scan (fd : Int) (buffer : Buffer) (length i : Int) :
    Serves (.scan fd buffer length i) .none (scan fd buffer length i) := by
  unfold scan
  split
  · rename_i hl
    split
    · rename_i hm
      exact .finds _ _ _ _ ⟨hl.1, hl.2, hm⟩
    · rename_i hm
      exact .passes _ _ _ _ hl (Decidable.not_not.mp hm)
  · rename_i hl
    exact .ends _ _ _ _ hl

theorem serves_of_startNotifier {p p' : Phase} {r : SysResult} (h : startNotifier p r = some p') :
    Serves p r p' := by
  unfold startNotifier at h
  split at h
  · obtain rfl := Option.some.inj h; exact .inits _ _
  · obtain rfl := Option.some.inj h; exact .adds _ _ _
  · obtain rfl := Option.some.inj h; exact .fails _ _
  · split at h
    · rename_i hlen
      obtain rfl := Option.some.inj h
      exact .reads _ _ _ hlen
    · cases h
  · obtain rfl := Option.some.inj h
    exact serves_of_scan _ _ _ _
  · cases h

end Errifier.Server
