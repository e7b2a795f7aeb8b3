import Errifier.Client.WorkerThread
import Errifier.Machine.Run

/-!
# The client: UI handlers and watcher threads over one state

A handler of `errifierui` runs in the UI thread while watchers run in theirs.
`Ui` is the position of the handler in progress; a handler is cut into one step
for each access to what watchers share with it: the table, a run-state cell, the
creation of a thread. What only the UI thread uses (the server list,
`ipnamemap`, `threadList`, the columns it reads to check for duplicates) is read
and written in the step of the next shared access. Opening a connection, an RPC
and creating a thread may each fail, as the event says.
-/
namespace Errifier.Client

set_option autoImplicit false

open Errifier.Text Errifier.Machine
open WorkerThread (ThreadOutcome)

/-- The message boxes. -/
inductive Warning where
  | blankInput | monitored | notAuthenticated | notActivated | noFile | watchDown | notRunning
  deriving DecidableEq

/-- The next thing the UI thread does: nothing, `model->appendRow(newRow)`, the loop of
`serv.removeServer`, the loop of `removeServerHandler`; in the click handler on a status
the read of the status, `serv.setThreadLock(rowid)` and the write of Paused,
`serv.setThreadRun(rowid)` and the write of Active, or opening the connection and setting
the state in `startTimedoutThread`, its `boost::thread` and the write of Active. It has
`crashed` when it read through `ipnamemap.end()`, and has `escaped` when an exception left
the slot; no handler is called any more then. -/
inductive Ui where
  | idle
  | append (row : Row)
  | removeThreads (servername : QString) (i : Nat)
  | removeRows (servername : QString) (i : Nat)
  | clicked (rowid : Nat) (serverip : QString)
  | lock (rowid : Nat)
  | pausing (rowid : Nat)
  | unlock (rowid : Nat)
  | resuming (rowid : Nat)
  | reconnect (rowid : Nat) (serverip : QString)
  | respawn (rowid : Nat) (serverip : QString)
  | reconnected (rowid : Nat)
  | crashed
  | escaped
  deriving DecidableEq

structure State where
  serverlist : List ServerEntry
  model : List Row
  ipnamemap : List (QString × QString)
  serv : WorkerThread
  watchers : List Watcher
  initted : Bool
  shown : List Notice
  warnings : List Warning
  ui : Ui

/-- After the constructor of `errifierui`. -/
def start : State where
  serverlist := [host]
  model := []
  ipnamemap := []
  serv := ⟨[], []⟩
  watchers := []
  initted := false
  shown := []
  warnings := []
  ui := .idle

/-- `std::map::insert`: a key that is there keeps its value. -/
def insertIp (m : List (QString × QString)) (servername serverip : QString) :
    List (QString × QString) :=
  if (m.lookup servername).isSome then m else m ++ [(servername, serverip)]

/-- The loop of `fileAlreadyMonitored`: the table converted with `toUtf8`,
against arguments that the caller converted with `toStdString`. -/
def fileAlreadyMonitored (servername fileloc friendlyName : StdString) (model : List Row) : Bool :=
  model.any fun row =>
    (strcmpEq (toUtf8 row.fileloc) fileloc && strcmpEq (toUtf8 row.servername) servername) ||
      strcmpEq (toUtf8 row.friendlyName) friendlyName

/-- What checking the connection and the file come to, before `startNewThread`: a
TSSLException, another exception of `open()` or `isFileExist`, the file is not there, or
it is and the thread comes about or not. -/
inductive StartOutcome where
  | notAuthenticated
  | refused
  | missing
  | found (thread : ThreadOutcome)
  deriving DecidableEq

/-- One pass of the loop over the rows in `removeServerHandler`. -/
def removeRowAt (servername : StdString) (model : List Row) (i : Nat) : Option (List Row × Nat) :=
  match model[i]? with
  | none => none
  | some row =>
    if toStdString row.servername = servername then some (model.eraseIdx i, i)
    else some (model, i + 1)

namespace State

def warn (s : State) (w : Warning) : State := { s with warnings := s.warnings ++ [w] }

/-- `serverlist->currentText()` when item `cur` is selected, empty for an empty
list. -/
def currentText (s : State) (cur : Nat) : QString := s.serverlist[cur]?.elim [] (·.text)

def addServerHandler (s : State) (servername serverip : QString) : State :=
  if h : servername ≠ [] ∧ serverip ≠ [] then
    { s with serverlist := s.serverlist ++ [⟨servername, serverip, h.1, h.2⟩] }
  else s

/-- The checks of `on_pushButton_clicked` before it connects: the server's name
and address, or the warning shown instead. -/
def request (s : State) (cur : Nat) (fileloc friendlyName : QString) :
    Except Warning (QString × QString) :=
  if fileloc ≠ [] ∧ friendlyName ≠ [] then
    let (servername, serverip) := splitEntry (s.currentText cur)
    if fileAlreadyMonitored (toStdString servername) (toStdString fileloc)
        (toStdString friendlyName) s.model then .error .monitored
    else .ok (servername, serverip)
  else .error .blankInput

/-- `on_pushButton_clicked` up to `appendRow`. -/
def onPushButtonClicked (s : State) (cur : Nat) (fileloc friendlyName : QString)
    (out : StartOutcome) : State :=
  match s.request cur fileloc friendlyName with
  | .error w => s.warn w
  | .ok (servername, serverip) =>
    match out with
    | .notAuthenticated => s.warn .notAuthenticated
    | .refused => s.warn .notActivated
    | .missing => s.warn .noFile
    | .found thread =>
      let s := { s with ipnamemap := insertIp s.ipnamemap servername serverip }
      let cell := s.serv.cells.length
      let (serv, watchers, threadnum) := s.serv.startNewThread (toStdString fileloc)
        (toStdString serverip) (toStdString friendlyName) (toStdString servername) thread
      let s := { s with serv, watchers := s.watchers ++ watchers }
      if 0 ≤ threadnum then
        { s with ui := .append ⟨servername, fileloc, friendlyName, active, cell, s.serverlist[cur]?⟩ }
      else if threadnum = -100 then s.warn .watchDown
      else s

/-- `removeServerHandler` up to its first loop. -/
def removeServer (s : State) (cur : Nat) : State :=
  { s with
    serverlist := s.serverlist.eraseIdx cur
    ui := .removeThreads (splitEntry (s.currentText cur)).1 0 }

/-- `on_tableView_doubleClicked` up to reading the status; none for a cell that
is not there. `secured`, `opened` and `answered`: whether setting up SSL, which stands in
front of the `try`, `open()` and `getLog` succeed. -/
def onTableViewDoubleClicked (s : State) (row column : Nat) (secured opened answered : Bool) :
    Option State :=
  match s.model[row]? with
  | none => none
  | some r =>
    match s.ipnamemap.lookup r.servername with
    | none => some { s with ui := .crashed }
    | some serverip =>
      if !secured then some { s with ui := .escaped }
      else if !opened then some (s.warn .notActivated)
      else
        match column with
        | 1 => some (if answered then s else s.warn .notActivated)
        | 3 => some { s with ui := .clicked row serverip }
        | _ => some s

/-- The next step of the handler in progress; `ok`: whether a connection or a
thread that it needs comes about. -/
def uiStep (s : State) (ok : Bool) : Option State :=
  match s.ui with
  | .idle => none
  | .crashed => none
  | .escaped => none
  | .append row => some { s with model := s.model ++ [row], ui := .idle }
  | .removeThreads servername i =>
    match s.serv.removeServerAt (toStdString servername) i with
    | some (serv, i) => some { s with serv, ui := .removeThreads servername i }
    | none => some { s with ui := .removeRows servername 0 }
  | .removeRows servername i =>
    match removeRowAt (toStdString servername) s.model i with
    | some (model, i) => some { s with model, ui := .removeRows servername i }
    | none => some { s with ui := .idle }
  | .clicked rowid serverip =>
    if toStdString (dataAt s.model rowid (·.status)) = toStdString active then
      some { s with ui := .lock rowid }
    else if toStdString (dataAt s.model rowid (·.status)) = toStdString paused then
      some { s with ui := .unlock rowid }
    else some { s with ui := .reconnect rowid serverip }
  | .lock rowid =>
    match s.serv.setThreadLock rowid with
    | some serv => some { s with serv, ui := .pausing rowid }
    | none => some { s.warn .notActivated with ui := .idle }
  | .pausing rowid => some { s with model := setStatus s.model rowid paused, ui := .idle }
  | .unlock rowid =>
    match s.serv.setThreadRun rowid with
    | some serv => some { s with serv, ui := .resuming rowid }
    | none => some { s.warn .notActivated with ui := .idle }
  | .resuming rowid => some { s with model := setStatus s.model rowid active, ui := .idle }
  | .reconnect rowid serverip =>
    if !ok then some { s.warn .notRunning with ui := .idle }
    else
      match s.serv.setThreadRun rowid with
      | some serv => some { s with serv, ui := .respawn rowid serverip }
      | none => some { s.warn .notRunning with ui := .idle }
  | .respawn rowid serverip =>
    if !ok then some { s.warn .notRunning with ui := .idle }
    else
      match s.serv.respawn (toStdString (dataAt s.model rowid (·.fileloc))) (toStdString serverip)
          (toStdString (dataAt s.model rowid (·.friendlyName)))
          (toStdString (dataAt s.model rowid (·.servername))) rowid with
      | some watcher => some { s with watchers := s.watchers ++ [watcher], ui := .reconnected rowid }
      | none => some { s.warn .notRunning with ui := .idle }
  | .reconnected rowid => some { s with model := setStatus s.model rowid active, ui := .idle }

/-- The state after thread `t`, a watcher `w`, took a step with effect `k`. -/
def advance (s : State) (t : Nat) (w : Watcher) (k : Effect) : State :=
  { s with
    watchers := s.watchers.set t { w with pc := k.pc }
    initted := k.initted.getD s.initted
    shown := s.shown ++ k.notice.toList
    model := k.mark.elim s.model fun i => setStatus s.model i connectionError }

def watcherStep (s : State) (t : Nat) (reply : Option Int) : Option State :=
  match s.watchers[t]? with
  | none => none
  | some w => (startWatch s.serv.cells s.model w.args reply w.pc).map (s.advance t w)

end State

/-- A handler is called, the handler in progress goes on, or a watcher does.
`doubleClickThrows` is a double click whose SSL set-up throws. -/
inductive Event where
  | addServer (servername serverip : QString)
  | removeServer (cur : Nat)
  | startWatch (cur : Nat) (fileloc friendlyName : QString) (out : StartOutcome)
  | doubleClick (row column : Nat) (opened answered : Bool)
  | doubleClickThrows (row column : Nat)
  | ui (ok : Bool)
  | watcher (t : Nat) (reply : Option Int)
  deriving DecidableEq

/-- An item is selected, or the list is empty. -/
def State.selects (s : State) (cur : Nat) : Prop :=
  cur < s.serverlist.length ∨ s.serverlist = []

instance (s : State) (cur : Nat) : Decidable (s.selects cur) :=
  inferInstanceAs (Decidable (_ ∨ _))

/-- A handler starts only when no other is in progress; the other steps are
interleaved in any order. -/
def step (s : State) : Event → Option State
  | .addServer servername serverip =>
    if s.ui = .idle then some (s.addServerHandler servername serverip) else none
  | .removeServer cur =>
    if s.ui = .idle ∧ s.selects cur then some (s.removeServer cur) else none
  | .startWatch cur fileloc friendlyName out =>
    if s.ui = .idle ∧ s.selects cur then
      some (s.onPushButtonClicked cur fileloc friendlyName out)
    else none
  | .doubleClick row column opened answered =>
    if s.ui = .idle then s.onTableViewDoubleClicked row column true opened answered else none
  | .doubleClickThrows row column =>
    if s.ui = .idle then s.onTableViewDoubleClicked row column false false false else none
  | .ui ok => s.uiStep ok
  | .watcher t reply => s.watcherStep t reply

/-- The row that the step writes a status to. -/
def State.written (s : State) : Event → Option Nat
  | .ui _ =>
    match s.ui with
    | .pausing rowid | .resuming rowid | .reconnected rowid => some rowid
    | _ => none
  | .watcher t _ => (s.watchers[t]?).bind (·.pc.marks)
  | _ => none

/-- No `setData` goes through an index past the end of the table. -/
def InTable (s : State) (e : Event) : Prop := ∀ i ∈ s.written e, i < s.model.length

instance (s : State) (e : Event) : Decidable (InTable s e) :=
  inferInstanceAs (Decidable (∀ i ∈ s.written e, i < s.model.length))

end Errifier.Client
