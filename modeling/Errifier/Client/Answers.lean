import Errifier.Client.LogSetting
import Errifier.Rpc.Connection
import Errifier.Server.LogDecoder

/-!
# What the user is shown of an answer

A ping and a log are asked for over a connection that may break anywhere. What has
come until then is all that the stub reads, and the user is shown the whole answer
or a warning.
-/
namespace Errifier.Client

set_option autoImplicit false

open Errifier.Text Errifier.Machine Errifier.Rpc
open Errifier.Server (Host workerHandlerHandler decodeLog command decodeLog_logOf)
open TProtocol (Gives)

section Stub
variable {α β : Type}

/-- A stub that throws in the middle of a message or at its end. -/
def called (r : Except Exn (Except Exn β × List UInt8)) : Except Exn β := r.bind (·.1)

/-- The answer to a call comes whole, or the connection breaks within it. -/
theorem called_recv {m : Method α β} {P : Protocol} (hname : Fits m.name) {seqid : Int32}
    {r : Except StdString β} (hr : m.Returns P r) {part : List UInt8}
    (hpart : part <+: m.reply P.toTProtocol seqid r) :
    called ((m.recv P).read part) =
      if part = m.reply P.toTProtocol seqid r then r.mapError (.application UNKNOWN)
      else .error .transport := by
  rcases (m.gives_recv hname hr seqid).read_part hpart with ⟨he, hread⟩ | ⟨hne, hread⟩
  · rw [hread, if_pos he]
    rfl
  · rw [hread, if_neg hne]
    rfl

end Stub

/-- The message boxes of `on_ping_clicked` and `showPingMsg`. -/
inductive PingMsg where
  | successful
  | notAuthenticated
  | notActivated
  deriving DecidableEq

/-- The `switch` of `showPingMsg`; other values are not shown. -/
def showPingMsg (pingval : Int32) : Option PingMsg := if pingval = 200 then some .successful else none

/-- The handlers of the `try` block of `on_ping_clicked`: what is shown, or an
exception that none of them takes and that leaves the slot. -/
def catchPing : Except Exn Int32 → Except Exn (Option PingMsg)
  | .ok pingValue => .ok (showPingMsg pingValue)
  | .error .ssl => .ok (some .notAuthenticated)
  | .error .transport => .ok (some .notActivated)
  | .error x => .error x

/-- `on_ping_clicked`, where `input` is what the server sends until the connection
ends. -/
def onPingClicked (P : Protocol) (opened : Except Exn Unit) (input : List UInt8) :
    Except Exn (Option PingMsg) :=
  catchPing (opened.bind fun _ => called ((ping.recv P).read input))

/-- Over a connection that breaks anywhere or nowhere, a ping shows success just
when the whole answer came and the handler returned 200, and the warning just when
it did not come whole. An exception leaves the slot just when the handler threw. -/
theorem onPingClicked_answer (P : Protocol) (seqid : Int32) {r : Except StdString Int32}
    (hr : ping.Returns P r) {part : List UInt8} (hpart : part <+: ping.reply P.toTProtocol seqid r) :
    (onPingClicked P (.ok ()) part = .ok (some .successful) ↔
      part = ping.reply P.toTProtocol seqid r ∧ r = .ok 200) ∧
    (onPingClicked P (.ok ()) part = .ok (some .notActivated) ↔
      part ≠ ping.reply P.toTProtocol seqid r) ∧
    ((∃ x, onPingClicked P (.ok ()) part = .error x) ↔
      part = ping.reply P.toTProtocol seqid r ∧ ∃ what, r = .error what) := by
  have hcalled : onPingClicked P (.ok ()) part =
      catchPing (if part = ping.reply P.toTProtocol seqid r then
        r.mapError (.application UNKNOWN) else .error .transport) :=
    congrArg catchPing (called_recv (by decide) hr hpart)
  rw [hcalled]
  by_cases he : part = ping.reply P.toTProtocol seqid r
  · rw [if_pos he]
    cases r with
    | ok v =>
      by_cases hv : v = 200
      · simp [he, hv, catchPing, showPingMsg, Except.mapError]
      · simp [he, hv, catchPing, showPingMsg, Except.mapError]
    | error what => simp [he, catchPing, Except.mapError]
  · simp [he, catchPing]

/-- The server's handler throws nothing; another one may. -/
theorem onPingClicked_answer_thrown :
    ∃ x, onPingClicked binary (.ok ()) (ping.reply binary.toTProtocol 0 (.error [33])) = .error x :=
  (onPingClicked_answer binary 0 (r := .error [33]) (by decide : Fits [33]) List.prefix_rfl).2.2.mpr
    ⟨rfl, [33], rfl⟩

/-- The arguments of `getLog` in `on_tableView_doubleClicked`. -/
def logArgs (setting : ReturnLogSetting) (filename : QString) : GetLogArgs :=
  ⟨toStdString filename, setting.checkbox, setting.logLines⟩

/-- The text that the window is given; none when the `catch` block shows a
warning. -/
def logText : Except Exn StdString → Option QString
  | .ok logData => some (ofCString logData)
  | .error _ => none

/-- What the command of a request outputs on the machine. -/
def logOutput (host : Host) (args : GetLogArgs) : List UInt8 :=
  host.popen (cString (command args.filename args.type.toInt args.lines))

/-- The text shows the output: it can be read back from what the window is
given. -/
theorem decodeLog_text {output : List UInt8} (h : 0 ∉ output) :
    decodeLog (toStdString (ofCString (Server.logOf output))) = output := by
  rw [toStdString_ofCString, cString_of_not_mem (Server.zero_not_mem_logOf output),
    decodeLog_logOf h]

/-- After any log dialogs and for every watched file, when the file name, the lines text and
the log each fit a message: the server reads the request and runs its command; of the answer
the user is shown a warning when it does not come whole, and else a text from which the output
can be read back. -/
theorem log_shown_answer {P : Protocol} (D : TDispatchProcessor P) (hosts : Nat → Host) (n : Nat)
    (dialogs : List (List LogInput)) (fileloc : QString) (hfile : Fits (toStdString fileloc))
    (hlines : Fits (logSettings dialogs).logLines)
    (hlog : Fits (Server.logOf (logOutput (hosts n) (logArgs (logSettings dialogs) fileloc)))) :
    ∃ answer, Gives (process D (workerHandlerHandler hosts) n)
        (getLog.send P.toTProtocol (logArgs (logSettings dialogs) fileloc))
        (some (some (answer, n + 1))) ∧
      ∀ part, part <+: answer →
        (part ≠ answer → logText (called ((getLog.recv P).read part)) = none) ∧
        (part = answer → ∃ text, logText (called ((getLog.recv P).read part)) = some text ∧
          (0 ∉ logOutput (hosts n) (logArgs (logSettings dialogs) fileloc) →
            decodeLog (toStdString text) =
              logOutput (hosts n) (logArgs (logSettings dialogs) fileloc))) := by
  have hcarried : Request.Carried (.getLog (logArgs (logSettings dialogs) fileloc)) :=
    ⟨hfile, hlines⟩
  refine ⟨_, Request.gives_send D (workerHandlerHandler hosts) hcarried n, fun part hpart => ?_⟩
  have hcalled := called_recv (m := getLog) (P := P) (by decide) (r := .ok _) hlog hpart
  exact ⟨fun hne => congrArg logText (hcalled.trans (if_neg hne)),
    fun he => ⟨_, congrArg logText (hcalled.trans (if_pos he)), decodeLog_text⟩⟩

/-- "last some line" with three lines, after a look at the dialog. -/
theorem log_shown_answer_lines :
    ∃ answer, Gives (process (dispatchProcessor binary) (workerHandlerHandler fun _ => quietHost) 0)
        (getLog.send binary.toTProtocol
          (logArgs (logSettings [[], [.lastsomeline, .lines_qty ['3']]]) ['f']))
        (some (some (answer, 1))) ∧
      ∀ part, part <+: answer →
        (part ≠ answer → logText (called ((getLog.recv binary).read part)) = none) ∧
        (part = answer → ∃ text, logText (called ((getLog.recv binary).read part)) = some text ∧
          (0 ∉ logOutput quietHost
              (logArgs (logSettings [[], [.lastsomeline, .lines_qty ['3']]]) ['f']) →
            decodeLog (toStdString text) = logOutput quietHost
              (logArgs (logSettings [[], [.lastsomeline, .lines_qty ['3']]]) ['f']))) :=
  log_shown_answer (dispatchProcessor binary) (fun _ => quietHost) 0
    [[], [.lastsomeline, .lines_qty ['3']]] ['f'] (by decide) (by decide) (by decide)

end Errifier.Client
