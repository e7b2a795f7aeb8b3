import Errifier.Rpc.WorkerHandler
import Errifier.Server.StartNotifier

/-!
# `workerHandlerHandler`

The four handlers of the server behind one interface. What they find changes from
call to call: `hosts` has the machine as the calls find it, one after the other.
-/
namespace Errifier.Server

set_option autoImplicit false

open Errifier.Text Errifier.Rpc

/-- What the handlers see of their machine: the output of a command, whether `stat` finds a
path, and whether a call of `startNotifier` for the file ever returns. -/
structure Host where
  popen : StdString → List UInt8
  stat : StdString → Bool
  notified : StdString → Bool

/-- `ping` -/
def ping : Int32 := 200

/-- `isFileExist` -/
def isFileExist (host : Host) (filename : StdString) : Int32 :=
  if host.stat (cString filename) then 1 else 0

/-- The number of calls so far says which machine a call finds. What `startNotifier`
returns, if it does, is `startNotifier_returns`. -/
def workerHandlerHandler (hosts : Nat → Host) : WorkerHandlerIf Nat where
  ping _ n := some (.ok ping, n + 1)
  getLog args n :=
    some (.ok (getLog (hosts n).popen args.filename args.type.toInt args.lines), n + 1)
  isFileExist filename n := some (.ok (isFileExist (hosts n) filename), n + 1)
  startNotifier filename n := if (hosts n).notified filename then some (.ok 1, n + 1) else none

/-- A call of `startNotifier` that returns, returns 1. -/
theorem startNotifier_returns {p : Phase} {r : SysResult} {v : Int}
    (h : startNotifier p r = some (.returned v)) : v = 1 := by
  cases serves_of_startNotifier h with
  | finds => rfl

end Errifier.Server
