import Errifier.Rpc.Connection
import Errifier.System.Network

/-!
# A watcher over its connection

Here the call of a watcher is bytes: its stub writes a request and reads an answer,
the server thread reads the one and writes the other, and the connection may be cut
at any time and in the middle of a message. Whatever happens on the wire, watcher,
handler and kernel do what they do in `Watch`, where a call is a call and may throw.
And no return of the handler is told twice or made up: at most one is lost, when the
connection is cut, and then the user is warned.
-/
namespace Errifier.System

set_option autoImplicit false

open Errifier.Text Errifier.Machine Errifier.Client Errifier.Server Errifier.Rpc
open TProtocol (Gives)

/-- The bytes on their way, and the server thread: the file name that came with the
last call, the number of the call in progress and where its handler is. -/
structure Link where
  up : List UInt8
  down : List UInt8
  cut : Bool
  asked : StdString
  serving : Option (Int32 × Phase)

/-- `instances`, `window`, `windows` and `shown` are as in `Watch`. `waiting` says that
the request was written, and `returns` counts the returns of the handler. -/
structure Remote (F : Type) where
  args : WatchArgs
  cells : List Int
  pc : Pc
  waiting : Bool
  link : Link
  instances : Int → Option Inotify
  modified : F → Nat
  window : Nat × Nat
  windows : List (Nat × Nat)
  shown : List Nat
  notices : List Notice
  returns : Nat

/-- `client` and `write` are as in `WatchEvent`. The server thread reads a call, up to the
handler (`takes`), then come the steps of the handler and of the kernel (`session`), and what
the handler has returned is written (`replies`). After a `cut` only the first `n` and `k` of
the bytes on their way arrive. -/
inductive RemoteEvent (F : Type) where
  | client (model : List Row)
  | write (state : Int)
  | takes (stack : Buffer)
  | session (e : WatchEvent)
  | replies
  | cut (n k : Nat)
  | modify (f : F)

/-- The steps of the handler and the kernel. -/
def ofHandler : WatchEvent → Bool
  | .serve _ => false
  | e => ofServer e

namespace Remote
variable {F : Type}

def start (filename ip friendlyname servername : StdString) (modified : F → Nat) : Remote F where
  args := ⟨0, filename, ip, friendlyname, servername⟩
  cells := [THREAD_RUN]
  pc := .init
  waiting := false
  link := ⟨[], [], false, [], none⟩
  instances := fun _ => none
  modified := modified
  window := (0, 0)
  windows := []
  shown := []
  notices := []
  returns := 0

section Step
variable (P : Protocol) (file : StdString → F) (s : Remote F)

/-- What the handler and the kernel see while `filename` is asked for. -/
def view (filename : StdString) : Watch where
  args := s.args
  cells := s.cells
  pc := s.pc
  call := s.link.serving.map (·.2)
  instances := s.instances
  modified := s.modified (file filename)
  window := s.window
  windows := s.windows
  shown := s.shown

/-- What the stub's call comes to, and what it leaves of the answer: the outer none
when it waits for more, the inner one when it throws. -/
def answer : Option (Option Int × List UInt8) :=
  match (Rpc.startNotifier.recv P).read s.link.down with
  | .ok (r, rest) => some (r.toOption.map Int32.toInt, rest)
  | .error .transport => if s.link.cut then some (none, []) else none
  | .error _ => some (none, [])

/-- A step of `startWatch`, with what is left of an answer. -/
def goes (down : List UInt8) (model : List Row) (reply : Option Int) : Option (Remote F) :=
  (startWatch s.cells model s.args reply s.pc).map fun k =>
    { s with
      pc := k.pc
      waiting := false
      link := { s.link with down }
      windows := if s.pc = .call ∧ reply = some 1 then s.windows ++ [s.window] else s.windows
      shown := if s.pc = .show then s.shown ++ [s.modified (file s.args.filename)] else s.shown
      notices := s.notices ++ k.notice.toList }

def sends : Remote F :=
  { s with
    waiting := true
    link := { s.link with
      up := if s.link.cut then s.link.up
        else s.link.up ++ Rpc.startNotifier.send P.toTProtocol s.args.filename } }

/-- A call is written first, and goes on when its answer has come. -/
def client (model : List Row) : Option (Remote F) :=
  if s.pc = .call then
    if s.waiting then
      (s.answer P).bind fun r => s.goes file r.2 model r.1
    else some (s.sends P)
  else s.goes file s.link.down model none

variable {P} in
/-- A call is read up to the handler. -/
def takes (D : TDispatchProcessor P) (stack : Buffer) : Option (Remote F) :=
  if s.link.serving = none then
    match (takeNotifier D).read s.link.up with
    | .ok (some (some (seqid, filename)), rest) =>
      some { s with
        link := { s.link with up := rest, asked := filename, serving := some (seqid, .init stack) } }
    | _ => none
  else none

/-- What the handler and the kernel have changed. -/
def put (v : Watch) : Remote F :=
  { s with
    link := { s.link with serving := s.link.serving.map fun c => (c.1, v.call.getD c.2) }
    instances := v.instances
    window := v.window }

def replies : Option (Remote F) :=
  match s.link.serving with
  | some (seqid, .returned r) =>
    some { s with
      link := { s.link with
        serving := none
        down := if s.link.cut then s.link.down
          else s.link.down ++ Rpc.startNotifier.reply P.toTProtocol seqid (.ok (Int32.ofInt r)) }
      returns := s.returns + 1 }
  | _ => none

end Step

def step [DecidableEq F] {P : Protocol} (D : TDispatchProcessor P) (file : StdString → F)
    (s : Remote F) : RemoteEvent F → Option (Remote F)
  | .client model => s.client P file model
  | .write state => some { s with cells := s.cells.set s.args.runstate state }
  | .takes stack => s.takes D stack
  | .session e =>
    if ofHandler e then ((s.view file s.link.asked).step e).map s.put else none
  | .replies => s.replies P
  | .cut n k =>
    some { s with
      link := { s.link with up := s.link.up.take n, down := s.link.down.take k, cut := true } }
  | .modify f => some { s with modified := Function.update s.modified f (s.modified f + 1) }

/-- The server thread is the generated code: what it takes goes to the handler, and with
what the handler returns `process` reads and writes what `takes` and `replies` do. -/
theorem process_of_takes {P : Protocol} (D : TDispatchProcessor P) {s s' : Remote F}
    {stack : Buffer} (hs : s.takes D stack = some s') :
    ∃ seqid, s'.link.serving = some (seqid, .init stack) ∧
      ∀ {σ : Type} (iface : WorkerHandlerIf σ) (t : σ),
        (process D iface t).read s.link.up =
          .ok (some (Rpc.startNotifier.answer P.toTProtocol iface.startNotifier seqid
            s'.link.asked t), s'.link.up) := by
  unfold takes at hs
  split at hs
  · split at hs
    · rename_i seqid filename rest hread
      obtain rfl := Option.some.inj hs
      exact ⟨seqid, rfl, fun iface t => process_of_takeNotifier D iface t hread⟩
    · cases hs
  · cases hs

section Wire
variable (P : Protocol) (filename : StdString)

/-- A request, its call or its answer is under way: `call` is where the handler is or
has come to, and `lost` counts the returns that the watcher has not been told of. -/
inductive Wire : Link → Option Phase → Nat → Prop
  | quiet (cut : Bool) (asked : StdString) : Wire ⟨[], [], cut, asked, none⟩ none 0
  | sent (up : List UInt8) (cut : Bool) (asked : StdString)
      (hup : up <+: Rpc.startNotifier.send P.toTProtocol filename)
      (hwhole : cut = false → up = Rpc.startNotifier.send P.toTProtocol filename) :
      Wire ⟨up, [], cut, asked, none⟩ none 0
  | taken (cut : Bool) (phase : Phase) :
      Wire ⟨[], [], cut, filename, some (0, phase)⟩ (some phase) 0
  | answered (down : List UInt8) (cut : Bool) (asked : StdString) (r : Int)
      (hdown : down <+: Rpc.startNotifier.reply P.toTProtocol 0 (.ok (Int32.ofInt r)))
      (hwhole : cut = false →
        down = Rpc.startNotifier.reply P.toTProtocol 0 (.ok (Int32.ofInt r))) :
      Wire ⟨[], down, cut, asked, none⟩ (some (.returned r)) 1

variable {P filename} {link : Link} {call : Option Phase} {lost : Nat}

theorem send_ne_nil : Rpc.startNotifier.send P.toTProtocol filename ≠ [] :=
  Request.send_ne_nil P (.startNotifier filename)

theorem takeNotifier_nil (D : TDispatchProcessor P) :
    (takeNotifier D).read [] = .error .transport := by
  have hfits : Fits [] := by decide
  exact (gives_takeNotifier D hfits).cut [] List.nil_prefix send_ne_nil.symm

theorem recv_nil : (Rpc.startNotifier.recv P).read [] = .error .transport :=
  (Rpc.startNotifier.gives_recv (by decide) (r := .ok 1) trivial 0).cut [] List.nil_prefix
    (Rpc.startNotifier.reply_ne_nil P (by decide) 0 (.ok 1)).symm

theorem Wire.lost_le (h : Wire P filename link call lost) : lost ≤ 1 := by
  cases h with
  | answered => exact Nat.le_refl 1
  | _ => exact Nat.zero_le 1

theorem Wire.cuts (h : Wire P filename link call lost) (n k : Nat) :
    Wire P filename { link with up := link.up.take n, down := link.down.take k, cut := true } call
      lost := by
  cases h with
  | quiet cut asked =>
    simp only [List.take_nil]
    exact .quiet true asked
  | sent up cut asked hup =>
    simp only [List.take_nil]
    exact .sent _ true asked ((List.take_prefix n up).trans hup) fun hf => by cases hf
  | taken cut phase =>
    simp only [List.take_nil]
    exact .taken true phase
  | answered down cut asked r hdown =>
    simp only [List.take_nil]
    exact .answered _ true asked r ((List.take_prefix k down).trans hdown) fun hf => by cases hf

/-- The stub gives up on an answer. -/
theorem Wire.dropped (h : Wire P filename link call lost) (hcut : link.cut = true) :
    Wire P filename { link with down := [] } call lost := by
  cases h with
  | quiet cut asked => exact .quiet cut asked
  | sent up cut asked hup hwhole => exact .sent up cut asked hup hwhole
  | taken cut phase => exact .taken cut phase
  | answered down cut asked r hdown =>
    exact .answered [] cut asked r List.nil_prefix fun hf =>
      absurd (hcut.symm.trans hf) (by decide)

/-- The server takes nothing but the request. -/
theorem Wire.takes (D : TDispatchProcessor P) (hfits : Fits filename)
    (h : Wire P filename link call lost) (hserving : link.serving = none) {seqid : Int32}
    {name : StdString} {rest : List UInt8}
    (hread : (takeNotifier D).read link.up = .ok (some (some (seqid, name)), rest))
    (stack : Buffer) :
    call = none ∧ lost = 0 ∧ name = filename ∧ link.up ≠ [] ∧
      Wire P filename ⟨rest, link.down, link.cut, name, some (seqid, .init stack)⟩
        (some (.init stack)) 0 := by
  cases h with
  | quiet => rw [takeNotifier_nil] at hread; cases hread
  | taken => cases hserving
  | answered => rw [takeNotifier_nil] at hread; cases hread
  | sent up cut asked hup =>
    rcases (gives_takeNotifier D hfits).read_part hup with ⟨rfl, hwhole⟩ | ⟨-, hshort⟩
    · obtain ⟨hsome, rfl⟩ := Prod.mk.inj (Except.ok.inj (hwhole.symm.trans hread))
      obtain ⟨rfl, rfl⟩ := Prod.mk.inj (Option.some.inj (Option.some.inj hsome))
      exact ⟨rfl, rfl, rfl, send_ne_nil, .taken cut _⟩
    · rw [hshort] at hread
      cases hread

/-- The handler returns, once. -/
theorem Wire.replies (h : Wire P filename link call lost) {seqid : Int32} {r : Int}
    (hserving : link.serving = some (seqid, .returned r)) :
    call = some (.returned r) ∧ lost = 0 ∧
      Wire P filename { link with
        serving := none
        down := if link.cut then link.down
          else link.down ++ Rpc.startNotifier.reply P.toTProtocol seqid (.ok (Int32.ofInt r)) }
        (some (.returned r)) 1 := by
  cases h with
  | quiet => cases hserving
  | sent => cases hserving
  | answered => cases hserving
  | taken cut phase =>
    obtain ⟨rfl, rfl⟩ := Prod.mk.inj (Option.some.inj hserving)
    refine ⟨rfl, rfl, ?_⟩
    cases cut with
    | true => exact .answered [] true filename r List.nil_prefix fun hf => by cases hf
    | false => exact .answered _ false filename r List.prefix_rfl fun _ => rfl

theorem Wire.sends (h : Wire P filename link none 0) (hup : link.up = []) :
    Wire P filename { link with
      up := if link.cut then link.up
        else link.up ++ Rpc.startNotifier.send P.toTProtocol filename } none 0 := by
  cases h with
  | quiet cut asked =>
    cases cut with
    | true => exact .sent [] true asked List.nil_prefix fun hf => by cases hf
    | false => exact .sent _ false asked List.prefix_rfl fun _ => rfl
  | sent up cut asked _ hwhole =>
    obtain rfl : up = [] := hup
    cases cut with
    | true => exact .sent [] true asked List.nil_prefix fun hf => by cases hf
    | false => exact absurd (hwhole rfl).symm send_ne_nil

/-- Of an answer that says 1 the stub reads all, or the connection was cut within it. -/
theorem Wire.read_down (h : Wire P filename link call lost)
    (hone : ∀ r, call = some (.returned r) → r = 1) :
    (Rpc.startNotifier.recv P).read link.down = .error .transport ∨
      (Rpc.startNotifier.recv P).read link.down = .ok (.ok 1, []) ∧ call = some (.returned 1) ∧
        lost = 1 ∧ link.up = [] ∧ Wire P filename { link with down := [] } none 0 := by
  cases h with
  | quiet => exact Or.inl recv_nil
  | sent => exact Or.inl recv_nil
  | taken => exact Or.inl recv_nil
  | answered down cut asked r hdown =>
    obtain rfl := hone r rfl
    have hgives := Rpc.startNotifier.gives_recv (P := P) (by decide) (r := .ok 1) trivial 0
    rcases hgives.read_part hdown with ⟨-, hread⟩ | ⟨-, hread⟩
    · exact Or.inr ⟨hread, rfl, rfl, rfl, .quiet cut asked⟩
    · exact Or.inl hread

/-- While the connection holds, the answer is there when the handler has returned. -/
theorem Wire.whole (h : Wire P filename link call 1) (hcut : link.cut = false) :
    ∃ r, call = some (.returned r) ∧
      link.down = Rpc.startNotifier.reply P.toTProtocol 0 (.ok (Int32.ofInt r)) := by
  cases h with
  | answered down cut asked r _ hwhole => exact ⟨r, rfl, hwhole hcut⟩

/-- The handler goes on. -/
theorem Wire.goes (h : Wire P filename link call lost) {c : Int32 × Phase}
    (hserving : link.serving = some c) (phase : Phase) :
    call = some c.2 ∧ lost = 0 ∧ link.asked = filename ∧
      Wire P filename { link with serving := some (c.1, phase) } (some phase) 0 := by
  cases h with
  | quiet => cases hserving
  | sent => cases hserving
  | answered => cases hserving
  | taken cut old =>
    obtain rfl := Option.some.inj hserving
    exact ⟨rfl, rfl, rfl, .taken cut phase⟩

end Wire

/-- What the user has been shown: the alarms, and the warning of a lost connection. -/
def told (a : WatchArgs) (alarms : Nat) (warned : Bool) : List Notice :=
  List.replicate alarms (.alarm a.friendlyname a.servername) ++
    if warned then [.down a.friendlyname a.servername] else []

/-- Where the watcher is: in its loop and not in a call, in a call, out of the loop, or
thrown out of its call. `direct` is the call of the `Watch`. -/
inductive Place (link : Link) (direct : Option Phase) (pc : Pc) (waiting warned : Bool)
    (call : Option Phase) (lost : Nat) : Prop
  | loops (hpc : pc.inLoop = true) (hwaiting : waiting = false) (hwarned : warned = false)
      (hup : link.up = []) (hdirect : direct = none) (hcall : call = none) (hlost : lost = 0)
  | waits (hpc : pc = .call) (hwaiting : waiting = true) (hwarned : warned = false)
      (hdirect : direct = call)
  | closed (hpc : pc = .close ∨ pc = .uninit ∨ pc = .done) (hwaiting : waiting = false)
      (hwarned : warned = false) (hup : link.up = []) (hcall : call = none) (hlost : lost = 0)
  | thrown (hpc : pc.inLoop = false) (hwaiting : waiting = false) (hcut : link.cut = true)
      (hwarned : warned = decide (pc ≠ .errShow))

theorem Place.cuts {link : Link} {direct call : Option Phase} {pc : Pc} {waiting warned : Bool}
    {lost : Nat} (h : Place link direct pc waiting warned call lost) (n k : Nat) :
    Place { link with up := link.up.take n, down := link.down.take k, cut := true } direct pc
      waiting warned call lost := by
  have hnil : link.up = [] → link.up.take n = [] := fun hup => by rw [hup, List.take_nil]
  cases h with
  | loops hpc hwaiting hwarned hup hdirect hcall hlost =>
    exact .loops hpc hwaiting hwarned (hnil hup) hdirect hcall hlost
  | waits hpc hwaiting hwarned hdirect => exact .waits hpc hwaiting hwarned hdirect
  | closed hpc hwaiting hwarned hup hcall hlost =>
    exact .closed hpc hwaiting hwarned (hnil hup) hcall hlost
  | thrown hpc hwaiting hcut hwarned => exact .thrown hpc hwaiting rfl hwarned

/-- The watcher is where `v` is, which makes its calls directly. -/
structure Follows (P : Protocol) (file : StdString → F) (s : Remote F) (v : Watch)
    (call : Option Phase) (lost : Nat) (warned : Bool) : Prop where
  fits : Fits s.args.filename
  args : v.args = s.args
  cells : v.cells = s.cells
  pc : v.pc = s.pc
  modified : v.modified = s.modified (file s.args.filename)
  windows : v.windows = s.windows
  shown : v.shown = s.shown
  instances : s.pc.inLoop = true → v.instances = s.instances ∧ v.window = s.window
  asked : s.link.asked = s.args.filename ∨ ∀ fd, s.instances fd = none
  sound : v.Sound
  returns : s.returns = s.windows.length + lost
  notices : s.notices = told s.args s.shown.length warned
  wire : Wire P s.args.filename s.link call lost
  place : Place s.link v.call s.pc s.waiting warned call lost

variable (P : Protocol) (file : StdString → F) in
/-- `v` is a `Watch` that the watcher follows. -/
def Direct (s : Remote F) (v : Watch) : Prop :=
  ∃ call lost warned, Follows P file s v call lost warned

section Steps
variable {P : Protocol} {file : StdString → F} {s s' : Remote F} {v v' : Watch}
  {call : Option Phase} {lost : Nat} {warned : Bool}

variable (P file) in
/-- What a step comes to for the `Watch`: some steps of its own. -/
def Matched (v : Watch) (s' : Remote F) : Prop :=
  ∃ es v', run Watch.step v es = some v' ∧ Direct P file s' v'

theorem matched_one {e : WatchEvent} (hs : v.step e = some v') (h : Direct P file s' v') :
    Matched P file v s' :=
  ⟨[e], v', by rw [run, hs]; rfl, h⟩

theorem matched_none (h : Direct P file s' v) : Matched P file v s' := ⟨[], v, rfl, h⟩

theorem Follows.write (h : Follows P file s v call lost warned) (state : Int) :
    Matched P file v { s with cells := s.cells.set s.args.runstate state } := by
  have hs : v.step (.write state) = some { v with cells := v.cells.set v.args.runstate state } := rfl
  refine matched_one hs ⟨call, lost, warned, { h with cells := ?_, sound := h.sound.step hs }⟩
  rw [h.args, h.cells]

theorem Follows.cuts (h : Follows P file s v call lost warned) (n k : Nat) :
    Matched P file v { s with
      link := { s.link with up := s.link.up.take n, down := s.link.down.take k, cut := true } } :=
  matched_none ⟨call, lost, warned,
    { h with wire := h.wire.cuts n k, place := h.place.cuts n k }⟩

theorem Follows.modify [DecidableEq F] (h : Follows P file s v call lost warned) (f : F) :
    Matched P file v
      { s with modified := Function.update s.modified f (s.modified f + 1) } := by
  by_cases hf : file s.args.filename = f
  · have hs : v.step .modify = some { v with modified := v.modified + 1 } := rfl
    refine matched_one hs ⟨call, lost, warned, { h with modified := ?_, sound := h.sound.step hs }⟩
    change v.modified + 1 = Function.update s.modified f (s.modified f + 1) (file s.args.filename)
    rw [h.modified, hf, Function.update_self]
  · refine matched_none ⟨call, lost, warned, { h with modified := ?_ }⟩
    change v.modified = Function.update s.modified f (s.modified f + 1) (file s.args.filename)
    rw [Function.update_of_ne hf, h.modified]

theorem Follows.takes (h : Follows P file s v call lost warned) {D : TDispatchProcessor P}
    {stack : Buffer} (hs : s.takes D stack = some s') : Matched P file v s' := by
  unfold Remote.takes at hs
  split at hs
  · rename_i hserving
    split at hs
    · rename_i seqid filename rest hread
      obtain rfl := Option.some.inj hs
      obtain ⟨rfl, rfl, hasked, hup, hwire⟩ := h.wire.takes D h.fits hserving hread stack
      cases h.place with
      | loops _ _ _ hnil => exact absurd hnil hup
      | closed _ _ _ hnil => exact absurd hnil hup
      | waits hpc hwaiting hwarned hdirect =>
        have hstep : v.step (.serve stack) = some { v with call := some (.init stack) } :=
          if_pos ⟨h.pc.trans hpc, hdirect⟩
        exact matched_one hstep ⟨_, 0, warned, { h with
          asked := Or.inl hasked, sound := h.sound.step hstep, wire := hwire,
          place := .waits hpc hwaiting hwarned rfl }⟩
      | thrown hpc hwaiting hcut hwarned =>
        exact matched_none ⟨_, 0, warned, { h with
          asked := Or.inl hasked, wire := hwire, place := .thrown hpc hwaiting hcut hwarned }⟩
    · cases hs
  · cases hs

theorem Follows.replies (h : Follows P file s v call lost warned)
    (hs : s.replies P = some s') : Matched P file v s' := by
  unfold Remote.replies at hs
  split at hs
  · rename_i seqid r hserving
    obtain rfl := Option.some.inj hs
    obtain ⟨rfl, rfl, hwire⟩ := h.wire.replies hserving
    have hreturns : s.returns + 1 = s.windows.length + 1 := congrArg (· + 1) h.returns
    cases h.place with
    | loops _ _ _ _ _ hcall => cases hcall
    | closed _ _ _ _ hcall => cases hcall
    | waits hpc hwaiting hwarned hdirect =>
      exact matched_none ⟨_, 1, warned, { h with
        returns := hreturns, wire := hwire, place := .waits hpc hwaiting hwarned hdirect }⟩
    | thrown hpc hwaiting hcut hwarned =>
      exact matched_none ⟨_, 1, warned, { h with
        returns := hreturns, wire := hwire, place := .thrown hpc hwaiting hcut hwarned }⟩
  · cases hs

theorem ofServer_of_handler {e : WatchEvent} (he : ofHandler e = true) : ofServer e = true := by
  cases e with
  | serve => cases he
  | _ => exact he

/-- With no call in progress the kernel may still queue an event. -/
theorem deliver_of_handler {w x : Watch} {e : WatchEvent} (he : ofHandler e = true)
    (hcall : w.call = none) (hx : w.step e = some x) :
    ∃ fd event, e = .deliver fd event ∧ w.deliver fd event = some x := by
  have hserver : ∀ r, w.server r = none := fun r => by simp only [Watch.server, hcall]
  cases e with
  | client | write | serve | modify => cases he
  | opens fd =>
    simp only [Watch.step, Watch.opens, hserver, Option.map_none, ite_self] at hx
    cases hx
  | adds wd => simp only [Watch.step, Watch.adds, hcall] at hx; cases hx
  | reads k => simp only [Watch.step, Watch.reads, hcall] at hx; cases hx
  | fails | empty | look => simp only [Watch.step, hserver] at hx; cases hx
  | deliver fd event => exact ⟨fd, event, rfl, hx⟩

/-- A step of a call in progress leaves it in progress. -/
theorem call_of_handler {w x : Watch} {e : WatchEvent} (he : ofHandler e = true) {phase : Phase}
    (hcall : w.call = some phase) (hx : w.step e = some x) : ∃ phase', x.call = some phase' := by
  have server : ∀ {r u}, w.server r = some u → ∃ phase', u.call = some phase' := by
    intro r u hu
    obtain ⟨_, phase', -, -, rfl⟩ := Watch.server_cases hu
    exact ⟨phase', rfl⟩
  cases e with
  | client | write | serve | modify => cases he
  | opens fd =>
    simp only [Watch.step, Watch.opens] at hx
    split at hx
    · obtain ⟨u, hu, rfl⟩ := Option.map_eq_some_iff.mp hx
      have hsome := server hu
      split <;> exact hsome
    · cases hx
  | adds wd =>
    simp only [Watch.step, Watch.adds] at hx
    split at hx
    · split at hx
      · exact server hx
      · split at hx
        · cases hx
        · obtain ⟨u, hu, rfl⟩ := Option.map_eq_some_iff.mp hx
          exact server (u := u) hu
    · cases hx
  | reads k =>
    simp only [Watch.step, Watch.reads] at hx
    split at hx
    · split at hx
      · cases hx
      · split at hx
        · obtain ⟨u, hu, rfl⟩ := Option.map_eq_some_iff.mp hx
          exact server (u := u) hu
        · cases hx
    · cases hx
  | fails | empty | look => exact server hx
  | deliver fd event =>
    simp only [Watch.step, Watch.deliver] at hx
    split at hx
    · cases hx
    · split at hx
      · obtain rfl := Option.some.inj hx
        exact ⟨phase, hcall⟩
      · cases hx

/-- What the kernel queues does not depend on the call. -/
theorem deliver_call (w : Watch) (call : Option Phase) (fd : Int) (event : InotifyEvent) :
    Watch.deliver { w with call } fd event = (w.deliver fd event).map fun x => { x with call } := by
  unfold Watch.deliver
  dsimp only
  cases w.instances fd with
  | none => rfl
  | some inst =>
    dsimp only
    split <;> rfl

/-- In the loop the `Watch` is what the handler and the kernel see, but for a call that
has returned. -/
theorem Follows.eq_view (h : Follows P file s v call lost warned) (hloop : s.pc.inLoop = true) :
    v = { s.view file s.args.filename with call := v.call } := by
  obtain ⟨hinstances, hwindow⟩ := h.instances hloop
  have hargs := h.args
  have hcells := h.cells
  have hpc := h.pc
  have hmodified := h.modified
  have hwindows := h.windows
  have hshown := h.shown
  obtain ⟨args, cells, pc, call, instances, modified, window, windows, shown⟩ := v
  dsimp only at *
  subst hinstances hwindow hargs hcells hpc hmodified hwindows hshown
  rfl

theorem Follows.session (h : Follows P file s v call lost warned) {e : WatchEvent} {x : Watch}
    (he : ofHandler e = true) (hx : (s.view file s.link.asked).step e = some x) :
    Matched P file v (s.put x) := by
  obtain ⟨hargs, hcells, hpc, hmodified, hshown, hwindows⟩ :=
    Network.kept_of_server (ofServer_of_handler he) hx
  cases hserving : s.link.serving with
  | none =>
    obtain ⟨fd, event, rfl, hdeliver⟩ := deliver_of_handler he (by rw [view, hserving]; rfl) hx
    have hasked : s.link.asked = s.args.filename := by
      refine h.asked.resolve_right fun hnone => ?_
      simp [Watch.deliver, view, hnone fd] at hdeliver
    have hlink : (s.put x).link = s.link := by
      simp only [put, hserving, Option.map_none]
      rw [← hserving]
    rw [hasked] at hdeliver hmodified
    have hwire : Wire P s.args.filename (s.put x).link call lost := by
      rw [hlink]
      exact h.wire
    by_cases hloop : s.pc.inLoop = true
    · have hstep : v.step (.deliver fd event) = some { x with call := v.call } := by
        refine (congrArg (Watch.step · (.deliver fd event)) (h.eq_view hloop)).trans ?_
        exact (deliver_call _ _ _ _).trans (congrArg (Option.map _) hdeliver)
      refine matched_one hstep ⟨call, lost, warned, { h with
        args := hargs, cells := hcells, pc := hpc, modified := hmodified, windows := hwindows,
        shown := hshown, instances := fun _ => ⟨rfl, rfl⟩, asked := Or.inl ?_,
        sound := h.sound.step hstep, wire := hwire, place := ?_ }⟩
      · rw [hlink]
        exact hasked
      · rw [hlink]
        exact h.place
    · refine matched_none ⟨call, lost, warned, { h with
        instances := fun hl => absurd hl hloop, asked := Or.inl ?_, wire := hwire, place := ?_ }⟩
      · rw [hlink]
        exact hasked
      · rw [hlink]
        exact h.place
  | some c =>
    have hcall : (s.view file s.link.asked).call = some c.2 := by rw [view, hserving]; rfl
    obtain ⟨phase, hphase⟩ := call_of_handler he hcall hx
    obtain ⟨rfl, rfl, hasked, hwire⟩ := h.wire.goes hserving phase
    have hlink : (s.put x).link = { s.link with serving := some (c.1, phase) } := by
      simp only [put, hserving, hphase, Option.map_some, Option.getD_some]
    have hwire' : Wire P s.args.filename (s.put x).link (some phase) 0 := by
      rw [hlink]
      exact hwire
    cases h.place with
    | loops _ _ _ _ _ hnone => cases hnone
    | closed _ _ _ _ hnone => cases hnone
    | waits hin hwaiting hwarned hdirect =>
      have hloop : s.pc.inLoop = true := by rw [hin]; rfl
      have hv : v = s.view file s.link.asked := by
        rw [h.eq_view hloop, hasked, hdirect, ← hcall, hasked]
      have hstep : v.step e = some x := by rw [hv]; exact hx
      rw [hasked] at hmodified
      exact matched_one hstep ⟨some phase, 0, warned, { h with
        args := hargs, cells := hcells, pc := hpc, modified := hmodified, windows := hwindows,
        shown := hshown, instances := fun _ => ⟨rfl, rfl⟩, asked := Or.inl hasked,
        sound := h.sound.step hstep, wire := hwire',
        place := .waits hin hwaiting hwarned hphase }⟩
    | thrown hout hwaiting hcut hwarned =>
      exact matched_none ⟨some phase, 0, warned, { h with
        instances := fun hl => absurd (hout.symm.trans hl) (by decide), asked := Or.inl hasked,
        wire := hwire', place := .thrown hout hwaiting hcut hwarned }⟩

theorem startWatch_reply {cells : List Int} {model : List Row} {a : WatchArgs} {pc : Pc}
    (hpc : pc ≠ .call) (reply reply' : Option Int) :
    startWatch cells model a reply pc = startWatch cells model a reply' pc := by
  cases pc with
  | call => exact absurd rfl hpc
  | _ => rfl

/-- A step outside a call. -/
theorem Place.goes {cells : List Int} {model : List Row} {a : WatchArgs} {reply : Option Int}
    {link : Link} {direct : Option Phase} {pc : Pc} {waiting : Bool} {k : Effect}
    (h : Place link direct pc waiting warned call lost) (hk : Acts cells model a reply pc k)
    (hcall : pc ≠ .call) :
    ∃ warned', Place link direct k.pc false warned' call lost ∧ ∀ n,
      told a n warned ++ k.notice.toList = told a (if pc = .show then n + 1 else n) warned' := by
  cases h with
  | waits hpc => exact absurd hpc hcall
  | loops hpc hwaiting hwarned hup hdirect hnone hlost =>
    subst hwarned
    have hloops : ∀ pc : Pc, pc.inLoop = true → Place link direct pc false false call lost :=
      fun _ hpc => .loops hpc rfl rfl hup hdirect hnone hlost
    cases hk with
    | inits => exact ⟨false, hloops _ rfl, fun n => List.append_nil _⟩
    | loops =>
      refine ⟨false, ?_, fun n => List.append_nil _⟩
      unfold afterLoopTest
      split
      · exact hloops _ rfl
      · exact .closed (.inl rfl) rfl rfl hup hnone hlost
    | tests =>
      refine ⟨false, ?_, fun n => List.append_nil _⟩
      unfold afterRunTest
      split <;> exact hloops _ rfl
    | shows =>
      refine ⟨false, hloops _ rfl, fun n => ?_⟩
      simp [told, List.replicate_succ']
    | replied | thrown => exact absurd rfl hcall
    | _ => cases hpc
  | closed hpc hwaiting hwarned hup hnone hlost =>
    have hcloses : ∀ pc : Pc, pc = .close ∨ pc = .uninit ∨ pc = .done →
        Place link direct pc false warned call lost := fun _ hpc =>
      .closed hpc rfl hwarned hup hnone hlost
    cases hk with
    | closes => exact ⟨warned, hcloses _ (.inr (.inl rfl)), fun n => List.append_nil _⟩
    | uninits => exact ⟨warned, hcloses _ (.inr (.inr rfl)), fun n => List.append_nil _⟩
    | _ => simp at hpc
  | thrown hpc hwaiting hcut hwarned =>
    cases hk with
    | inits | loops | tests | shows => cases hpc
    | replied | thrown => exact absurd rfl hcall
    | _ =>
      subst hwarned
      exact ⟨true, .thrown rfl rfl hcut rfl, fun n => by simp [told]⟩

theorem Follows.goes (h : Follows P file s v call lost warned) (hcall : s.pc ≠ .call)
    {model : List Row} (hs : s.goes file s.link.down model none = some s') : Matched P file v s' := by
  obtain ⟨k, hk, rfl⟩ := Option.map_eq_some_iff.mp hs
  have hacts := acts_of_startWatch hk
  have hvcall : v.pc ≠ .call := by rw [h.pc]; exact hcall
  have hkv : startWatch v.cells model v.args (v.received false) v.pc = some k := by
    rw [h.cells, h.args, h.pc, startWatch_reply hcall _ none]
    exact hk
  have hstep : v.step (.client model false) = some _ :=
    Network.client_of_startWatch (fun hb => hvcall hb.1) hkv
  obtain ⟨warned', hplace, htold⟩ := h.place.goes hacts hcall
  have hwindows : (if s.pc = .call ∧ (none : Option Int) = some 1 then s.windows ++ [s.window]
      else s.windows) = s.windows := if_neg fun hb => hcall hb.1
  refine matched_one hstep ⟨call, lost, warned', ?_⟩
  refine ⟨h.fits, h.args, h.cells, rfl, h.modified, ?_, ?_, fun hloop => h.instances ?_, h.asked,
    h.sound.step hstep, ?_, ?_, h.wire, ?_⟩
  · exact (if_neg fun hb => hvcall hb.1).trans (h.windows.trans hwindows.symm)
  · dsimp only
    rw [h.pc, h.shown, h.modified]
  · by_contra hout
    rw [inLoop_act hacts (by simpa using hout)] at hloop
    cases hloop
  · dsimp only
    rw [hwindows]
    exact h.returns
  · have hlen : (if s.pc = .show then s.shown ++ [s.modified (file s.args.filename)]
        else s.shown).length = if s.pc = .show then s.shown.length + 1 else s.shown.length := by
      split
      · exact List.length_append
      · rfl
    dsimp only
    rw [h.notices, htold, hlen]
  · dsimp only
    rw [if_neg hvcall]
    exact hplace

/-- The request is written when the watcher comes to its call. -/
theorem Follows.sends (h : Follows P file s v call lost warned) (hpc : s.pc = .call)
    (hwaiting : s.waiting = false) : Matched P file v (s.sends P) := by
  cases h.place with
  | waits _ hwaits => rw [hwaiting] at hwaits; cases hwaits
  | closed hout => rw [hpc] at hout; simp at hout
  | thrown hout => rw [hpc] at hout; cases hout
  | loops _ _ hwarned hup hdirect hcall hlost =>
    subst hcall hlost
    refine matched_none ⟨none, 0, warned, { h with
      wire := ?_, place := .waits hpc rfl hwarned hdirect }⟩
    exact h.wire.sends hup

/-- The end of a call, for the watcher and for the `Watch`. -/
theorem goes_call (hpc : s.pc = .call) (down : List UInt8) (model : List Row) (reply : Option Int) :
    s.goes file down model reply = some { s with
      pc := reply.elim .errShow afterReply
      waiting := false
      link := { s.link with down }
      windows := if reply = some 1 then s.windows ++ [s.window] else s.windows } := by
  unfold goes
  rw [hpc]
  cases reply with
  | none => simp [startWatch]
  | some r => simp [startWatch]

theorem client_call (hpc : v.pc = .call) (model : List Row) {thrown : Bool}
    (hreply : thrown = false → v.reply ≠ none) :
    v.client model thrown = some { v with
      pc := (v.received thrown).elim .errShow afterReply
      call := none
      windows := if v.received thrown = some 1 then v.windows ++ [v.window] else v.windows } := by
  unfold Watch.client
  rw [if_neg fun hb => hreply hb.2.1 hb.2.2, hpc]
  cases v.received thrown with
  | none => simp [startWatch, Watch.alarmed]
  | some r => simp [startWatch, Watch.alarmed]

/-- The stub throws. -/
theorem Follows.throws (h : Follows P file s v call lost warned) (hpc : s.pc = .call)
    (hwarned : warned = false) (hcut : s.link.cut = true) {model : List Row}
    (hs : s.goes file [] model none = some s') : Matched P file v s' := by
  obtain rfl := Option.some.inj ((goes_call hpc [] model none).symm.trans hs)
  have hstep : v.step (.client model true) = some _ :=
    client_call (h.pc.trans hpc) model fun hf => nomatch hf
  subst hwarned
  exact matched_one hstep ⟨call, lost, false, { h with
    pc := rfl, instances := fun hloop => (nomatch hloop), sound := h.sound.step hstep,
    wire := h.wire.dropped hcut, place := .thrown rfl rfl hcut rfl }⟩

/-- The stub gives back what the handler returned. -/
theorem Follows.returned (h : Follows P file s v call lost warned) (hpc : s.pc = .call)
    (hwarned : warned = false) (hreply : v.reply = some 1) (hlost : lost = 1)
    (hup : s.link.up = []) (hwire : Wire P s.args.filename { s.link with down := [] } none 0)
    {model : List Row} (hs : s.goes file [] model (some 1) = some s') : Matched P file v s' := by
  obtain rfl := Option.some.inj ((goes_call hpc [] model (some 1)).symm.trans hs)
  have hstep : v.step (.client model false) = some _ :=
    client_call (h.pc.trans hpc) model fun _ => by rw [hreply]; exact Option.some_ne_none 1
  have hreceived : v.received false = some 1 := hreply
  obtain ⟨hinstances, hwindow⟩ := h.instances (by rw [hpc]; rfl)
  subst hwarned hlost
  refine matched_one hstep ⟨none, 0, false, { h with
    pc := ?_, windows := ?_, instances := fun _ => ⟨hinstances, hwindow⟩,
    sound := h.sound.step hstep, returns := ?_, wire := hwire,
    place := .loops rfl rfl rfl hup rfl rfl rfl }⟩
  · rw [hreceived]
  · rw [hreceived, if_pos rfl, if_pos rfl, h.windows, hwindow]
  · rw [if_pos rfl, List.length_append]
    exact h.returns

/-- What the stub makes of the answer. -/
theorem Follows.receives (h : Follows P file s v call lost warned) (hpc : s.pc = .call)
    (hwaiting : s.waiting = true) {r : Option Int × List UInt8} (hr : s.answer P = some r)
    {model : List Row} (hs : s.goes file r.2 model r.1 = some s') : Matched P file v s' := by
  obtain ⟨hdirect, hwarned⟩ : v.call = call ∧ warned = false := by
    cases h.place with
    | waits _ _ hwarned hdirect => exact ⟨hdirect, hwarned⟩
    | loops _ hwaits | closed _ hwaits | thrown _ hwaits => rw [hwaiting] at hwaits; cases hwaits
  have hone : ∀ r, call = some (.returned r) → r = 1 := fun r hcall =>
    (h.sound.calling _ (hdirect.trans hcall)).2.1
  unfold answer at hr
  rcases h.wire.read_down hone with hread | ⟨hread, hcall, hlost, hup, hwire⟩
  · rw [hread] at hr
    dsimp only at hr
    split at hr
    · rename_i hcut
      obtain rfl := Option.some.inj hr
      exact h.throws hpc hwarned hcut hs
    · cases hr
  · rw [hread] at hr
    obtain rfl := Option.some.inj hr
    exact h.returned hpc hwarned (by rw [Watch.reply, hdirect, hcall]) hlost hup hwire hs

/-- What the handler has returned is shown with the next two steps of the watcher. -/
theorem Follows.delivers (h : Follows P file s v call 1 warned) (hcut : s.link.cut = false)
    (model model' : List Row) :
    ∃ s₁ s₂, s.client P file model = some s₁ ∧ s₁.client P file model' = some s₂ ∧
      s₂.notices = s.notices ++ [.alarm s.args.friendlyname s.args.servername] := by
  cases h.place with
  | loops _ _ _ _ _ _ hzero | closed _ _ _ _ _ hzero => cases hzero
  | thrown _ _ hout => rw [hcut] at hout; cases hout
  | waits hpc hwaiting _ hdirect =>
    obtain ⟨r, hcall, hdown⟩ := h.wire.whole hcut
    obtain rfl : r = 1 := (h.sound.calling _ (hdirect.trans hcall)).2.1
    have hread := (Rpc.startNotifier.gives_recv (P := P) (by decide) (r := .ok 1) trivial 0).read_ok []
    rw [List.append_nil] at hread
    have hwhole : s.link.down = Rpc.startNotifier.reply P.toTProtocol 0 (.ok 1) := hdown
    have hanswer : s.answer P = some (some 1, []) := by
      rw [answer, hwhole, hread]
      rfl
    have hfirst : s.client P file model = s.goes file [] model (some 1) := by
      rw [client, if_pos hpc, if_pos hwaiting, hanswer]
      rfl
    exact ⟨_, _, hfirst.trans (goes_call hpc [] model (some 1)), rfl, rfl⟩

end Steps

section Runs
variable {P : Protocol} {file : StdString → F}

theorem direct_start {filename : StdString} (hfits : Fits filename)
    (ip friendlyname servername : StdString) (modified : F → Nat) :
    Direct P file (start filename ip friendlyname servername modified)
      (Watch.start filename ip friendlyname servername (modified (file filename))) := by
  refine ⟨none, 0, false, ?_⟩
  constructor
  · exact hfits
  · rfl
  · rfl
  · rfl
  · rfl
  · rfl
  · rfl
  · exact fun _ => ⟨rfl, rfl⟩
  · exact Or.inr fun _ => rfl
  · exact Watch.sound_start ..
  · rfl
  · rfl
  · exact .quiet false []
  · exact .loops rfl rfl rfl rfl rfl rfl rfl

variable [DecidableEq F]

theorem simulates (D : TDispatchProcessor P) : Simulates (step D file) Watch.step (Direct P file) := by
  rintro s e s' v ⟨call, lost, warned, h⟩ hs
  cases e with
  | client model =>
    simp only [step, client] at hs
    split at hs
    · rename_i hpc
      split at hs
      · rename_i hwaiting
        obtain ⟨r, hr, hgoes⟩ := Option.bind_eq_some_iff.mp hs
        exact h.receives hpc hwaiting hr hgoes
      · rename_i hwaiting
        obtain rfl := Option.some.inj hs
        exact h.sends hpc (by simpa using hwaiting)
    · rename_i hpc
      exact h.goes hpc hs
  | write state =>
    obtain rfl := Option.some.inj hs
    exact h.write state
  | takes stack => exact h.takes hs
  | session e =>
    simp only [step] at hs
    split at hs
    · rename_i he
      obtain ⟨x, hx, rfl⟩ := Option.map_eq_some_iff.mp hs
      exact h.session he hx
    · cases hs
  | replies => exact h.replies hs
  | cut n k =>
    obtain rfl := Option.some.inj hs
    exact h.cuts n k
  | modify f =>
    obtain rfl := Option.some.inj hs
    exact h.modify f

/-- Whatever happens on the wire, the watcher does what it does in some run in which its
calls are calls that may throw. -/
theorem calls_over_wire {P : Protocol} (D : TDispatchProcessor P) (file : StdString → F)
    {filename : StdString} (hfits : Fits filename) (ip friendlyname servername : StdString)
    (modified : F → Nat) (es : List (RemoteEvent F)) :
    Along (step D file) (fun s => ∃ v,
      Reachable Watch.step
        (Watch.start filename ip friendlyname servername (modified (file filename))) v ∧
      v.args = s.args ∧ v.cells = s.cells ∧ v.pc = s.pc ∧ v.windows = s.windows ∧
      v.shown = s.shown ∧ v.modified = s.modified (file s.args.filename))
      (start filename ip friendlyname servername modified) es := by
  refine ((simulates D).along (direct_start (P := P) hfits ip friendlyname servername modified) es).mono
    fun s h => ?_
  obtain ⟨v, hv, call, lost, warned, h⟩ := h
  exact ⟨v, hv, h.args, h.cells, h.pc, h.windows, h.shown, h.modified⟩

/-- The file is modified in the first call, and the connection is cut within the answer. -/
def cutInAnswer : List (RemoteEvent StdString) :=
  [.client [], .client [], .client [], .client [], .takes [], .session (.opens 3),
   .session (.adds 1), .modify [102], .session (.deliver 3 ⟨1, 2, 0, []⟩), .session (.reads 1),
   .session .look, .replies, .cut 0 5, .client [], .client []]

theorem calls_over_wire_cut :
    Along (step (dispatchProcessor binary) id) (fun s => ∃ v,
      Reachable Watch.step (Watch.start [102] [] [120] [] 0) v ∧
      v.args = s.args ∧ v.cells = s.cells ∧ v.pc = s.pc ∧ v.windows = s.windows ∧
      v.shown = s.shown ∧ v.modified = s.modified s.args.filename)
      (start [102] [] [120] [] fun _ => 0) cutInAnswer :=
  calls_over_wire (dispatchProcessor binary) id (by decide) [] [120] [] (fun _ => 0) cutInAnswer

/-- Every return of the handler is one alarm, shown or about to be shown, but for one at
most. While the connection holds, that one is under way and the next two steps of the
watcher show it. It is lost when the connection is cut, and then the user is told that
the server went down: once, after all alarms, and never while the connection holds. -/
theorem alarms_of_returns {P : Protocol} (D : TDispatchProcessor P) (file : StdString → F)
    {filename : StdString} (hfits : Fits filename) (ip friendlyname servername : StdString)
    (modified : F → Nat) (es : List (RemoteEvent F)) :
    Along (step D file) (fun s => ∃ lost warned,
      s.notices = told s.args s.shown.length warned ∧
      s.returns = s.shown.length + (if s.pc = .show then 1 else 0) + lost ∧ lost ≤ 1 ∧
      (warned = true → s.link.cut = true ∧ s.pc.inLoop = false) ∧
      (lost = 1 → s.waiting = true ∨
        s.link.cut = true ∧ (s.pc = .errShow ∨ warned = true)) ∧
      (lost = 1 → s.link.cut = false → ∀ model model', ∃ s₁ s₂,
        s.client P file model = some s₁ ∧ s₁.client P file model' = some s₂ ∧
          s₂.notices = s.notices ++ [.alarm s.args.friendlyname s.args.servername]))
      (start filename ip friendlyname servername modified) es := by
  refine ((simulates D).along (direct_start (P := P) hfits ip friendlyname servername modified) es).mono
    fun s h => ?_
  obtain ⟨v, -, call, lost, warned, h⟩ := h
  have hcount := h.sound.count
  rw [h.windows, h.shown, h.pc] at hcount
  refine ⟨lost, warned, h.notices, by rw [h.returns, hcount], h.wire.lost_le, ?_, ?_, ?_⟩
  · intro hwarned
    cases h.place with
    | loops _ _ hfalse | waits _ _ hfalse | closed _ _ hfalse =>
      rw [hwarned] at hfalse
      cases hfalse
    | thrown hpc _ hcut => exact ⟨hcut, hpc⟩
  · intro hlost
    cases h.place with
    | loops _ _ _ _ _ _ hzero | closed _ _ _ _ _ hzero => omega
    | waits _ hwaiting => exact Or.inl hwaiting
    | thrown _ _ hcut hwarned =>
      refine Or.inr ⟨hcut, ?_⟩
      rw [hwarned, decide_eq_true_eq]
      exact Decidable.em _
  · rintro rfl hcut
    exact h.delivers hcut

theorem alarms_of_returns_cut :
    Along (step (dispatchProcessor binary) id) (fun s => ∃ lost warned,
      s.notices = told s.args s.shown.length warned ∧
      s.returns = s.shown.length + (if s.pc = .show then 1 else 0) + lost ∧ lost ≤ 1 ∧
      (warned = true → s.link.cut = true ∧ s.pc.inLoop = false) ∧
      (lost = 1 → s.waiting = true ∨
        s.link.cut = true ∧ (s.pc = .errShow ∨ warned = true)) ∧
      (lost = 1 → s.link.cut = false → ∀ model model', ∃ s₁ s₂,
        s.client binary id model = some s₁ ∧ s₁.client binary id model' = some s₂ ∧
          s₂.notices = s.notices ++ [.alarm s.args.friendlyname s.args.servername]))
      (start [102] [] [120] [] fun _ => 0) cutInAnswer :=
  alarms_of_returns (dispatchProcessor binary) id (by decide) [] [120] [] (fun _ => 0) cutInAnswer

end Runs

end Remote

end Errifier.System
