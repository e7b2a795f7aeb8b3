import Errifier.Rpc.Binary
import Errifier.Server.Handler

/-!
# One message at a time

What each side makes of a message of the other. A call of any peer, with fields
in any order and fields of its own, is read to the end and answered once; a reply
of the server is read to the end and comes to what the handler returned or threw.
-/
namespace Errifier.Rpc

set_option autoImplicit false

open Errifier.Text Errifier.Machine
open TProtocol (Gives)
open Errifier.Server (literal)

namespace Method
variable {α β : Type} {m : Method α β} {P : Protocol}

/-- The protocol can carry the arguments. -/
def Carries (m : Method α β) (P : Protocol) (a : α) : Prop :=
  ∀ f ∈ m.args a, f.value.Carried P.toStructProtocol

/-- The protocol can carry what the handler returned or threw. -/
def Returns (m : Method α β) (P : Protocol) : Except StdString β → Prop
  | .ok v => (m.success v).Carried P.toStructProtocol
  | .error what => Fits what

theorem gives_args {a : α} (h : m.Carries P a) :
    Gives (m.readArgs P) (m.writeArgs P.toTProtocol a) a := by
  have hread := gives_readStruct m.cases m.init
    (literal "workerHandler_".toList ++ m.name ++ literal "_pargs".toList) h
  rw [m.args_stored] at hread
  exact hread

theorem gives_result {r : Option β} (h : ∀ v ∈ r, (m.success v).Carried P.toStructProtocol) :
    Gives (m.readResult P) (m.writeResult P.toTProtocol r) r := by
  have hf : ∀ f ∈ m.resultFields r, f.value.Carried P.toStructProtocol := by
    intro f hf
    obtain ⟨v, hv, rfl⟩ := List.mem_map.mp hf
    exact h v (Option.mem_toList.mp hv)
  have hread := gives_readStruct [⟨0, m.slot⟩] (none : Option β)
    (literal "workerHandler_".toList ++ m.name ++ literal "_result".toList) hf
  have hstored : (m.resultFields r).foldl (store [⟨0, m.slot⟩]) none = r := by
    cases r with
    | none => rfl
    | some v => exact m.success_stored v
  rw [hstored] at hread
  exact hread

theorem gives_recvResult {r : Option β} (h : ∀ v ∈ r, (m.success v).Carried P.toStructProtocol) :
    Gives (m.recvResult P) (m.writeResult P.toTProtocol r ++ P.writeMessageEnd) (m.outcome r) :=
  (gives_result h).bind (gives_map P.message_end)

theorem gives_kept {c : Bool} (hc : c = false) : Gives (discardIf P.toTProtocol c) [] () := by
  rw [hc]
  exact Reader.exact_pure ()

theorem gives_discardIf {c : Bool} {w : List UInt8} (hw : P.Skips T_STRUCT w) :
    Gives (discardIf P.toTProtocol c) (if c then w ++ P.writeMessageEnd else []) () := by
  cases c with
  | true => exact hw.bind P.message_end
  | false => exact gives_kept rfl

/-- A message that is not an exception, with any name, type and number: a struct
is passed over for a type that is not T_REPLY and another one for a name that is
not the method's, and then comes the result. -/
theorem gives_recv_any {fname : StdString} (hname : Fits fname) {mtype : TMessageType}
    (hne : mtype ≠ T_EXCEPTION) (seqid : Int32) {w w' : List UInt8} (hw : P.Skips T_STRUCT w)
    (hw' : P.Skips T_STRUCT w') {r : Option β} (hr : ∀ v ∈ r, (m.success v).Carried P.toStructProtocol) :
    Gives (m.recv P)
      (P.writeMessageBegin fname mtype seqid ++
        ((if mtype ≠ T_REPLY then w ++ P.writeMessageEnd else []) ++
          ((if fname ≠ m.name then w' ++ P.writeMessageEnd else []) ++
            (m.writeResult P.toTProtocol r ++ P.writeMessageEnd)))) (m.outcome r) := by
  refine (P.message_begin fname mtype seqid hname).bind ?_
  dsimp only
  rw [if_neg hne]
  have htype := gives_discardIf (c := decide (mtype ≠ T_REPLY)) hw
  have hfname := gives_discardIf (c := decide (fname ≠ m.name)) hw'
  simp only [decide_eq_true_eq] at htype hfname
  exact htype.bind (hfname.bind (gives_recvResult hr))

/-- The reply to another call, and a log behind it. -/
theorem gives_recv_any_foreign :
    Gives (getLog.recv binary)
      (binary.writeMessageBegin ping.name T_REPLY 3 ++
        ((if T_REPLY ≠ T_REPLY then [T_STOP] ++ binary.writeMessageEnd else []) ++
          ((if ping.name ≠ getLog.name then [T_STOP] ++ binary.writeMessageEnd else []) ++
            (getLog.writeResult binary.toTProtocol (some [65]) ++ binary.writeMessageEnd))))
      (getLog.outcome (some [65])) :=
  gives_recv_any (m := getLog) (P := binary) (r := some [65]) (by decide) (by decide) 3
    Binary.skips_noFields Binary.skips_noFields fun v hv => by
      rw [← Option.some.inj hv]
      exact (by decide : Fits [65])

/-- The stub gives back what the handler returned, and throws what it threw. -/
theorem gives_recv (hname : Fits m.name) {r : Except StdString β} (hr : m.Returns P r)
    (seqid : Int32) :
    Gives (m.recv P) (m.reply P.toTProtocol seqid r) (r.mapError (.application UNKNOWN)) := by
  cases r with
  | ok v =>
    have hreply : T_REPLY ≠ T_EXCEPTION := by decide
    have hresult : Gives (m.recvResult P) (m.writeResult P.toTProtocol (some v) ++ P.writeMessageEnd)
        (.ok v) := gives_recvResult fun w hw => Option.some.inj hw ▸ hr
    refine (P.message_begin m.name T_REPLY seqid hname).bind ?_
    dsimp only
    rw [if_neg hreply]
    have hsame : ∀ {α : Type} [DecidableEq α] (a : α), decide (a ≠ a) = false := fun a =>
      decide_eq_false (not_not_intro rfl)
    exact (gives_kept (hsame T_REPLY)).bind ((gives_kept (hsame m.name)).bind hresult)
  | error what =>
    refine (P.message_begin m.name T_EXCEPTION seqid hname).bind ?_
    exact (P.exception UNKNOWN what hr).bind (gives_map P.message_end)

end Method

/-- The keys of `processMap_`. -/
def methodNames : List StdString :=
  [ping.name, getLog.name, isFileExist.name, startNotifier.name]

/-- A call as any peer may write it: of a method that the service has or not, with
any fields in its struct. A struct that no method reads is passed over whole. -/
structure CallMessage (P : Protocol) where
  name : StdString
  type : TMessageType
  seqid : Int32
  struct : StdString
  fields : List WireField
  call : type = T_CALL ∨ type = T_ONEWAY
  fits : Fits name
  carried : ∀ f ∈ fields, f.value.Carried P.toStructProtocol
  skips : name ∉ methodNames → P.Skips T_STRUCT (writeStruct P.toTProtocol struct fields)

section Serve
variable {σ : Type} {P : Protocol}

/-- The struct of the call and the end of the message. -/
def CallMessage.body (c : CallMessage P) : List UInt8 :=
  writeStruct P.toTProtocol c.struct c.fields ++ P.writeMessageEnd

def CallMessage.bytes (c : CallMessage P) : List UInt8 :=
  P.writeMessageBegin c.name c.type c.seqid ++ c.body

/-- The arguments of the call: the fields that the method has are stored, the last one of
each counts. -/
def CallMessage.args {α β : Type} (c : CallMessage P) (m : Method α β) : α :=
  c.fields.foldl (store m.cases) m.init

/-- What the server does with a call, told from what it holds: one handler is called, once. -/
def CallMessage.answer (c : CallMessage P) (iface : WorkerHandlerIf σ) (s : σ) : Processed σ :=
  if c.name = ping.name then ping.answer P.toTProtocol iface.ping c.seqid (c.args ping) s
  else if c.name = getLog.name then
    getLog.answer P.toTProtocol iface.getLog c.seqid (c.args getLog) s
  else if c.name = isFileExist.name then
    isFileExist.answer P.toTProtocol iface.isFileExist c.seqid (c.args isFileExist) s
  else if c.name = startNotifier.name then
    startNotifier.answer P.toTProtocol iface.startNotifier c.seqid (c.args startNotifier) s
  else some (unknownReply P.toTProtocol c.name c.seqid, s)

theorem gives_process {α β : Type} (m : Method α β) (handle : Handles σ α β) (c : CallMessage P)
    (s : σ) :
    Gives (m.process P handle c.seqid s) c.body
      (m.answer P.toTProtocol handle c.seqid (c.args m) s) :=
  (gives_readStruct m.cases m.init c.struct c.carried).bind (gives_map P.message_end)

theorem gives_unknown (c : CallMessage P) (hname : c.name ∉ methodNames) (s : σ) :
    Gives (do
      P.skip T_STRUCT
      P.readMessageEnd
      pure (some (unknownReply P.toTProtocol c.name c.seqid, s))) c.body
      (some (unknownReply P.toTProtocol c.name c.seqid, s)) :=
  (c.skips hname).bind (gives_map P.message_end)

theorem lookup_processMap_of_not_mem {name : StdString} (h : name ∉ methodNames)
    (iface : WorkerHandlerIf σ) : (processMap P iface).lookup name = none := by
  simp only [methodNames, List.mem_cons, List.not_mem_nil, or_false, not_or] at h
  rw [List.lookup_eq_none_iff]
  simp [processMap, h]

theorem gives_dispatchCall (c : CallMessage P) (iface : WorkerHandlerIf σ) (s : σ) :
    Gives (dispatchCall P iface s c.name c.seqid) c.body (c.answer iface s) := by
  have known : ∀ {name pfn r}, c.name = name → (processMap P iface).lookup name = some pfn →
      Gives (pfn c.seqid s) c.body r → Gives (dispatchCall P iface s c.name c.seqid) c.body r := by
    intro name pfn r hname hpfn hr
    rw [dispatchCall, hname, hpfn]
    exact hr
  unfold CallMessage.answer
  split
  · rename_i hname
    exact known hname rfl (gives_process ping iface.ping c s)
  split
  · rename_i hname
    exact known hname rfl (gives_process getLog iface.getLog c s)
  split
  · rename_i hname
    exact known hname rfl (gives_process isFileExist iface.isFileExist c s)
  split
  · rename_i hname
    exact known hname rfl (gives_process startNotifier iface.startNotifier c s)
  rename_i hping hgetLog hisFileExist hstartNotifier
  have hname : c.name ∉ methodNames := by
    simp [methodNames, hping, hgetLog, hisFileExist, hstartNotifier]
  rw [dispatchCall, lookup_processMap_of_not_mem hname]
  exact gives_unknown c hname s

/-- The server reads the call to its end, and nothing behind it. -/
theorem gives_call (D : TDispatchProcessor P) (c : CallMessage P) (iface : WorkerHandlerIf σ)
    (s : σ) : Gives (process D iface s) c.bytes (some (c.answer iface s)) :=
  D.gives c.fits c.call (gives_dispatchCall c iface s)

/-- What is taken up to the handler is what `process` hands to it. -/
theorem process_of_takeNotifier (D : TDispatchProcessor P) (iface : WorkerHandlerIf σ) (s : σ)
    {input rest : List UInt8} {seqid : Int32} {filename : StdString}
    (h : (takeNotifier D).read input = .ok (some (some (seqid, filename)), rest)) :
    (process D iface s).read input =
      .ok (some (startNotifier.answer P.toTProtocol iface.startNotifier seqid filename s), rest) := by
  unfold takeNotifier at h
  unfold process
  cases hbegin : P.readMessageBegin.read input with
  | error x => rw [D.throws _ hbegin] at h; cases h
  | ok p =>
    obtain ⟨⟨fname, mtype, num⟩, body⟩ := p
    by_cases htype : mtype = T_CALL ∨ mtype = T_ONEWAY
    · rw [D.dispatches _ hbegin htype] at h ⊢
      by_cases hname : fname = startNotifier.name
      · rw [if_pos hname] at h
        cases hargs : (startNotifier.readArgs P).read body with
        | error x => rw [Reader.read_bind_error hargs] at h; cases h
        | ok p =>
          obtain ⟨args, tail⟩ := p
          rw [Reader.read_bind_ok hargs] at h
          cases hend : P.readMessageEnd.read tail with
          | error x => rw [Reader.read_bind_error hend] at h; cases h
          | ok p =>
            obtain ⟨ended, last⟩ := p
            rw [Reader.read_bind_ok hend] at h
            obtain ⟨hsome, rfl⟩ := Prod.mk.inj (Except.ok.inj h)
            obtain ⟨rfl, rfl⟩ := Prod.mk.inj (Option.some.inj (Option.some.inj hsome))
            have hprocess : (dispatchCall P iface s fname num).read body =
                .ok (startNotifier.answer P.toTProtocol iface.startNotifier num args s, last) := by
              rw [hname]
              change (startNotifier.process P iface.startNotifier num s).read body = _
              rw [Method.process, Reader.read_bind_ok hargs, Reader.read_bind_ok hend]
              rfl
            rw [hprocess]
            rfl
      · rw [if_neg hname] at h
        cases h
    · rw [D.refuses _ hbegin htype] at h
      cases h

theorem gives_takeNotifier (D : TDispatchProcessor P) {filename : StdString}
    (h : Fits filename) :
    Gives (takeNotifier D) (startNotifier.send P.toTProtocol filename)
      (some (some (0, filename))) := by
  have hcarries : startNotifier.Carries P filename := by
    intro f hf
    rw [List.mem_singleton.mp hf]
    exact h
  refine D.gives (by decide) (Or.inl rfl) ?_
  rw [if_pos rfl]
  exact (Method.gives_args hcarries).bind (gives_map P.message_end)

/-- A message has at least one byte: two different ones could not be told apart
otherwise. -/
theorem writeMessageBegin_ne_nil (P : Protocol) {name : StdString} (hname : Fits name)
    (type : TMessageType) (seqid : Int32) : P.writeMessageBegin name type seqid ≠ [] := by
  intro hnil
  obtain ⟨type', hne⟩ : ∃ type', type' ≠ type := by
    by_cases ht : type = T_CALL
    · exact ⟨T_REPLY, by rw [ht]; decide⟩
    · exact ⟨T_CALL, fun he => ht he.symm⟩
  have hthis := (P.message_begin name type seqid hname).read_ok (P.writeMessageBegin name type' seqid)
  have hother := (P.message_begin name type' seqid hname).read_ok []
  rw [hnil, List.nil_append] at hthis
  rw [List.append_nil, hthis] at hother
  exact hne (Prod.mk.inj (Prod.mk.inj (Prod.mk.inj (Except.ok.inj hother)).1).2).1.symm

/-- The answers to calls, one after the other, up to the first one whose handler does not
return. -/
def answers (iface : WorkerHandlerIf σ) (s : σ) : List (CallMessage P) → List UInt8 × Option σ
  | [] => ([], some s)
  | c :: cs =>
    match c.answer iface s with
    | some (written, s') => (written ++ (answers iface s' cs).1, (answers iface s' cs).2)
    | none => ([], none)

/-- Of whatever a peer sends before its connection ends, every call that came whole is
answered once, in order, for as long as the handlers return, and a call that is cut short
does nothing. Behind a call whose handler does not return nothing is answered. -/
theorem serve_calls (D : TDispatchProcessor P) (S : TServer) (iface : WorkerHandlerIf σ) (s : σ)
    (cs : List (CallMessage P)) (last : CallMessage P) {part : List UInt8}
    (hpart : part <+: last.bytes) (hne : part ≠ last.bytes) :
    S.serve (process D iface) s (cs.flatMap CallMessage.bytes ++ part) = answers iface s cs := by
  induction cs generalizing s with
  | nil =>
    rw [List.flatMap_nil, List.nil_append]
    exact S.catches _ ((gives_call D last iface s).cut part hpart hne)
  | cons c cs ih =>
    rw [List.flatMap_cons, List.append_assoc, answers]
    have hread := (gives_call D c iface s).read_ok (cs.flatMap CallMessage.bytes ++ part)
    have hshorter : (cs.flatMap CallMessage.bytes ++ part).length <
        (c.bytes ++ (cs.flatMap CallMessage.bytes ++ part)).length := by
      have hbytes : 0 < c.bytes.length :=
        List.length_pos_iff.mpr (List.append_ne_nil_of_left_ne_nil
          (writeMessageBegin_ne_nil P c.fits c.type c.seqid) c.body)
      simp only [List.length_append]
      omega
    cases hanswer : c.answer iface s with
    | none =>
      rw [hanswer] at hread
      exact S.waits _ hread hshorter
    | some r =>
      rw [hanswer] at hread
      rw [S.goes_on _ hread hshorter, ih r.2]

/-- `getLog` with its fields the other way round and a field of another program. -/
def otherGetLog : CallMessage binary where
  name := getLog.name
  type := T_CALL
  seqid := 7
  struct := []
  fields := [⟨[], 3, .string [51]⟩, ⟨[], 9, .i32 5⟩, ⟨[], 2, .i32 0⟩, ⟨[], 1, .string [102]⟩]
  call := Or.inl rfl
  fits := by decide
  carried f hf := by
    simp only [List.mem_cons, List.not_mem_nil, or_false] at hf
    rcases hf with rfl | rfl | rfl | rfl
    · exact (by decide : Fits [51])
    · trivial
    · trivial
    · exact (by decide : Fits [102])
  skips h := absurd (by decide : getLog.name ∈ methodNames) h

/-- A method that the service does not have. -/
def unknownCall : CallMessage binary where
  name := [120]
  type := T_CALL
  seqid := 8
  struct := []
  fields := []
  call := Or.inl rfl
  fits := by decide
  carried f hf := by cases hf
  skips _ := Binary.skips_noFields

/-- `startNotifier` without a file name. -/
def emptyNotifier : CallMessage binary where
  name := startNotifier.name
  type := T_CALL
  seqid := 9
  struct := []
  fields := []
  call := Or.inl rfl
  fits := by decide
  carried f hf := by cases hf
  skips h := absurd (by decide : startNotifier.name ∈ methodNames) h

/-- A server on which every command outputs one line, every path is found and no file is
ever modified. -/
def quietHost : Server.Host := ⟨fun _ => [65, 10], fun _ => true, fun _ => false⟩

/-- Two calls are answered; behind the third, whose handler does not return, the fourth and
the start of a fifth are not. -/
theorem serve_calls_other :
    threadPoolServer.serve
        (process (dispatchProcessor binary) (Server.workerHandlerHandler fun _ => quietHost)) 0
        ([otherGetLog, unknownCall, emptyNotifier, otherGetLog].flatMap CallMessage.bytes ++ [128]) =
      answers (Server.workerHandlerHandler fun _ => quietHost) 0
        [otherGetLog, unknownCall, emptyNotifier, otherGetLog] :=
  serve_calls (dispatchProcessor binary) threadPoolServer _ 0
    [otherGetLog, unknownCall, emptyNotifier, otherGetLog] otherGetLog (by decide) (by decide)

end Serve

end Errifier.Rpc
