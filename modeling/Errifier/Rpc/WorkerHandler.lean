import Errifier.Rpc.Protocol
import Errifier.Server.GetLog

/-!
# The generated code of the service

The stubs of `workerHandlerClient`, the functions of `workerHandlerProcessor` and
the structs they exchange differ between the four methods in names and field
lists only, so each is one definition over a `Method`. A `recv_` that throws once
it has read a whole message is modelled as one that returns the exception, so
that what is left of the input stays known.
-/
namespace Errifier.Rpc

set_option autoImplicit false

open Errifier.Text Errifier.Machine
open Errifier.Server (literal)

/-- A method with arguments `α` and result `β`. `args` are the fields that its
`pargs` writes, `cases` and `init` are its `args` struct, `success` and `slot` the
one field of its result. -/
structure Method (α β : Type) where
  name : StdString
  args : α → List WireField
  init : α
  cases : List (Case α)
  success : β → WireValue
  slot : Slot (Option β)
  args_stored : ∀ a, (args a).foldl (store cases) init = a
  success_stored : ∀ b, slot.store none (success b) = some b

/-- `i32` results, and the field they are stored in. -/
def i32Slot : Slot (Option Int32) := .i32 fun v _ => some v

def ping : Method Unit Int32 where
  name := literal "ping".toList
  args _ := []
  init := ()
  cases := []
  success := .i32
  slot := i32Slot
  args_stored _ := rfl
  success_stored _ := rfl

structure GetLogArgs where
  filename : StdString
  type : Int32
  lines : StdString
  deriving DecidableEq

def getLog : Method GetLogArgs StdString where
  name := literal "getLog".toList
  args a := [⟨literal "filename".toList, 1, .string a.filename⟩,
    ⟨literal "type".toList, 2, .i32 a.type⟩, ⟨literal "lines".toList, 3, .string a.lines⟩]
  init := ⟨[], 0, []⟩
  cases := [⟨1, .string fun v a => { a with filename := v }⟩,
    ⟨2, .i32 fun v a => { a with type := v }⟩, ⟨3, .string fun v a => { a with lines := v }⟩]
  success := .string
  slot := .string fun v _ => some v
  args_stored _ := rfl
  success_stored _ := rfl

/-- A method that takes a file name and returns an `i32`. -/
def onFile (name : StdString) : Method StdString Int32 where
  name := name
  args filename := [⟨literal "filename".toList, 1, .string filename⟩]
  init := []
  cases := [⟨1, .string fun v _ => v⟩]
  success := .i32
  slot := i32Slot
  args_stored _ := rfl
  success_stored _ := rfl

def isFileExist : Method StdString Int32 := onFile (literal "isFileExist".toList)

def startNotifier : Method StdString Int32 := onFile (literal "startNotifier".toList)

namespace Method
variable {α β σ : Type} (m : Method α β)

def writeArgs (P : TProtocol) (a : α) : List UInt8 :=
  writeStruct P (literal "workerHandler_".toList ++ m.name ++ literal "_pargs".toList) (m.args a)

def readArgs (P : Protocol) : Reads α := readStruct P.toStructProtocol m.cases m.init

/-- The fields of a result, without `success` when `__isset.success` is false. -/
def resultFields (r : Option β) : List WireField :=
  r.toList.map fun v => ⟨literal "success".toList, 0, m.success v⟩

def writeResult (P : TProtocol) (r : Option β) : List UInt8 :=
  writeStruct P (literal "workerHandler_".toList ++ m.name ++ literal "_result".toList)
    (m.resultFields r)

/-- `presult.read`, none when it leaves `__isset.success` false. -/
def readResult (P : Protocol) : Reads (Option β) := readStruct P.toStructProtocol [⟨0, m.slot⟩] none

/-- `send_...`: `cseqid` is 0 in every call. -/
def send (P : TProtocol) (a : α) : List UInt8 :=
  P.writeMessageBegin m.name T_CALL 0 ++ (m.writeArgs P a ++ P.writeMessageEnd)

end Method

/-- `skip(T_STRUCT)` and `readMessageEnd()`, after which the stub goes on. -/
def discardIf (P : TProtocol) (c : Bool) : Reads Unit :=
  if c then do
    P.skip T_STRUCT
    P.readMessageEnd
  else pure ()

namespace Method
variable {α β σ : Type} (m : Method α β)

def missingResult : Exn :=
  .application MISSING_RESULT (m.name ++ literal " failed: unknown result".toList)

/-- `if (result.__isset.success)` -/
def outcome (result : Option β) : Except Exn β := result.elim (.error m.missingResult) .ok

/-- The end of a `recv_...`: the struct with the result. -/
def recvResult (P : Protocol) : Reads (Except Exn β) := do
  let result ← m.readResult P
  P.readMessageEnd
  pure (m.outcome result)

/-- `recv_...`; `rseqid` is not looked at. -/
def recv (P : Protocol) : Reads (Except Exn β) := do
  let (fname, mtype, _) ← P.readMessageBegin
  if mtype = T_EXCEPTION then do
    let (type, message) ← P.readException
    P.readMessageEnd
    pure (.error (.application type message))
  else do
    discardIf P.toTProtocol (mtype ≠ T_REPLY)
    discardIf P.toTProtocol (fname ≠ m.name)
    m.recvResult P

/-- A message with the result, or with `e.what()` when the handler throws. -/
def reply (P : TProtocol) (seqid : Int32) : Except StdString β → List UInt8
  | .ok v =>
    P.writeMessageBegin m.name T_REPLY seqid ++ (m.writeResult P (some v) ++ P.writeMessageEnd)
  | .error what =>
    P.writeMessageBegin m.name T_EXCEPTION seqid ++
      (P.writeException UNKNOWN what ++ P.writeMessageEnd)

end Method

/-- A method of `workerHandlerIf`: it may change the server's state, and returns or throws.
None when it does neither. -/
abbrev Handles (σ α β : Type) := α → σ → Option (Except StdString β × σ)

/-- `workerHandlerIf` -/
structure WorkerHandlerIf (σ : Type) where
  ping : Handles σ Unit Int32
  getLog : Handles σ GetLogArgs StdString
  isFileExist : Handles σ StdString Int32
  startNotifier : Handles σ StdString Int32

namespace Method
variable {α β σ : Type} (m : Method α β)

/-- What a `process_...` does once the call is read. -/
def answer (P : TProtocol) (handle : Handles σ α β) (seqid : Int32) (args : α) (s : σ) :
    Processed σ :=
  (handle args s).map fun r => (m.reply P seqid r.1, r.2)

/-- `process_...` -/
def process (P : Protocol) (handle : Handles σ α β) (seqid : Int32) (s : σ) :
    Reads (Processed σ) := do
  let args ← m.readArgs P
  P.readMessageEnd
  pure (m.answer P.toTProtocol handle seqid args s)

end Method

section Processor
variable {σ : Type} {P : Protocol} (D : TDispatchProcessor P) (iface : WorkerHandlerIf σ)

variable (P) in
/-- `processMap_` -/
def processMap : List (StdString × (Int32 → σ → Reads (Processed σ))) :=
  [(ping.name, ping.process P iface.ping), (getLog.name, getLog.process P iface.getLog),
    (isFileExist.name, isFileExist.process P iface.isFileExist),
    (startNotifier.name, startNotifier.process P iface.startNotifier)]

/-- "Invalid method name: '" + fname + "'" -/
def invalidMethod (fname : StdString) : StdString :=
  literal "Invalid method name: '".toList ++ fname ++ literal "'".toList

def unknownReply (P : TProtocol) (fname : StdString) (seqid : Int32) : List UInt8 :=
  P.writeMessageBegin fname T_EXCEPTION seqid ++
    (P.writeException UNKNOWN_METHOD (invalidMethod fname) ++ P.writeMessageEnd)

variable (P) in
def dispatchCall (s : σ) (fname : StdString) (seqid : Int32) : Reads (Processed σ) :=
  match (processMap P iface).lookup fname with
  | some pfn => pfn seqid s
  | none => do
    P.skip T_STRUCT
    P.readMessageEnd
    pure (some (unknownReply P.toTProtocol fname seqid, s))

/-- A message of the peer at the processor. -/
def process (s : σ) : Reads (Option (Processed σ)) := D.process (dispatchCall P iface s)

/-- The processor up to the handler of `startNotifier`: the number of the call and the file
name; nothing of other calls. -/
def takeNotifier : Reads (Option (Option (Int32 × StdString))) :=
  D.process fun fname seqid =>
    if fname = startNotifier.name then do
      let filename ← startNotifier.readArgs P
      P.readMessageEnd
      pure (some (seqid, filename))
    else pure none

end Processor

end Errifier.Rpc
