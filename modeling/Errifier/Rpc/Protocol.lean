import Errifier.Machine.Reader
import Errifier.Text.QString
import Mathlib.Algebra.Group.Nat.Defs

/-!
# What the generated code relies on

The Thrift library is not part of the repository, so `TProtocol` is a parameter:
the calls that the generated code makes, and, in `Protocol`, what is documented
of them. Writing appends bytes to the transport, and reading is a `Reader` of
what the peer has sent until the connection ends. Every value is read back from
its bytes, and an input that ends within them is a TTransportException. So are
`TDispatchProcessor`, which reads the header of a message and leaves a call to the
generated processor, and the loop of `TServer` around it.
-/
namespace Errifier.Rpc

set_option autoImplicit false

open Errifier.Text Errifier.Machine

/-- A `TType` as it is cast from the wire. -/
abbrev TType := UInt8

def T_STOP : TType := 0
def T_I32 : TType := 8
def T_STRING : TType := 11
def T_STRUCT : TType := 12

abbrev TMessageType := UInt8

def T_CALL : TMessageType := 1
def T_REPLY : TMessageType := 2
def T_EXCEPTION : TMessageType := 3
def T_ONEWAY : TMessageType := 4

/-- What is thrown, as far as a handler of the repository tells exceptions apart: a
TSSLException, any other TTransportException, a TProtocolException and a
TApplicationException. All of these are `std::exception`s. -/
inductive Exn where
  | ssl
  | transport
  | protocol
  | application (type : Int32) (message : StdString)
  deriving DecidableEq

/-- `TApplicationException::TApplicationExceptionType` -/
def UNKNOWN : Int32 := 0
def UNKNOWN_METHOD : Int32 := 1
def MISSING_RESULT : Int32 := 5

abbrev Reads := Reader UInt8 Exn

/-- The calls. The names of structs and fields are not given back by a read, and
nothing looks at them. `writeException` and `readException` are those of
TApplicationException. -/
structure TProtocol where
  writeMessageBegin : StdString → TMessageType → Int32 → List UInt8
  writeMessageEnd : List UInt8
  writeStructBegin : StdString → List UInt8
  writeStructEnd : List UInt8
  writeFieldBegin : StdString → TType → Int16 → List UInt8
  writeFieldEnd : List UInt8
  writeFieldStop : List UInt8
  writeI32 : Int32 → List UInt8
  writeString : StdString → List UInt8
  writeException : Int32 → StdString → List UInt8
  readMessageBegin : Reads (StdString × TMessageType × Int32)
  readMessageEnd : Reads Unit
  readStructBegin : Reads Unit
  readStructEnd : Reads Unit
  readFieldBegin : Reads (TType × Int16)
  readFieldEnd : Reads Unit
  readI32 : Reads Int32
  readString : Reads StdString
  readException : Reads (Int32 × StdString)
  skip : TType → Reads Unit

namespace TProtocol
variable (P : TProtocol)

/-- The bytes are exactly this value's. -/
def Gives {α : Type} (r : Reads α) (w : List UInt8) (a : α) : Prop :=
  Reader.Exact .transport r w (.ok a)

/-- `skip` takes the bytes as one value of the type. -/
def Skips (type : TType) (w : List UInt8) : Prop := Gives (P.skip type) w ()

end TProtocol

open TProtocol (Gives)

/-- A string whose length is an `i32`. -/
def Fits (s : StdString) : Prop := s.length < 2 ^ 31

instance (s : StdString) : Decidable (Fits s) := inferInstanceAs (Decidable (_ < _))

/-- The parts of a struct are given back as they were written. -/
structure StructProtocol extends TProtocol where
  struct_begin : ∀ name, Gives readStructBegin (writeStructBegin name) ()
  struct_end : Gives readStructEnd writeStructEnd ()
  field_begin : ∀ name type id, type ≠ T_STOP →
    Gives readFieldBegin (writeFieldBegin name type id) (type, id)
  field_end : Gives readFieldEnd writeFieldEnd ()
  field_stop : ∃ id, Gives readFieldBegin writeFieldStop (T_STOP, id)
  field_consumes : readFieldBegin.Consumes
  i32 : ∀ v, Gives readI32 (writeI32 v) v
  string : ∀ s, Fits s → Gives readString (writeString s) s
  skip_i32 : ∀ v, toTProtocol.Skips T_I32 (writeI32 v)
  skip_string : ∀ s, Fits s → toTProtocol.Skips T_STRING (writeString s)

/-- And messages. -/
structure Protocol extends StructProtocol where
  message_begin : ∀ name type seqid, Fits name →
    Gives readMessageBegin (writeMessageBegin name type seqid) (name, type, seqid)
  message_end : Gives readMessageEnd writeMessageEnd ()
  exception : ∀ type message, Fits message →
    Gives readException (writeException type message) (type, message)

/-- What becomes of a call: what is written and the state that its handler leaves, and
none when the handler does not return. -/
abbrev Processed (σ : Type) := Option (List UInt8 × σ)

/-- `process` reads the header of a message and hands a call to the `dispatchCall` of the
generated processor. Of another message it makes nothing, and returns false. -/
structure TDispatchProcessor (P : Protocol) where
  process : {α : Type} → (StdString → Int32 → Reads α) → Reads (Option α)
  dispatches : ∀ {α : Type} (dispatchCall : StdString → Int32 → Reads α) {input body : List UInt8}
    {fname : StdString} {mtype : TMessageType} {seqid : Int32},
    P.readMessageBegin.read input = .ok ((fname, mtype, seqid), body) →
      mtype = T_CALL ∨ mtype = T_ONEWAY →
        (process dispatchCall).read input =
          ((dispatchCall fname seqid).read body).map fun r => (some r.1, r.2)
  refuses : ∀ {α : Type} (dispatchCall : StdString → Int32 → Reads α) {input body : List UInt8}
    {fname : StdString} {mtype : TMessageType} {seqid : Int32},
    P.readMessageBegin.read input = .ok ((fname, mtype, seqid), body) →
      ¬ (mtype = T_CALL ∨ mtype = T_ONEWAY) → (process dispatchCall).read input = .ok (none, body)
  throws : ∀ {α : Type} (dispatchCall : StdString → Int32 → Reads α) {input : List UInt8} {x : Exn},
    P.readMessageBegin.read input = .error x → (process dispatchCall).read input = .error x

/-- The loop over one connection: what a processor writes, and the state when the connection
ends. It ends with the first exception, and not while a handler does not return. Of a
processor that reads nothing of a call, or returns false, nothing is said. -/
structure TServer where
  serve : {σ : Type} → (σ → Reads (Option (Processed σ))) → σ → List UInt8 →
    List UInt8 × Option σ
  goes_on : ∀ {σ : Type} (process : σ → Reads (Option (Processed σ))) {s s' : σ}
    {input rest written : List UInt8},
    (process s).read input = .ok (some (some (written, s')), rest) → rest.length < input.length →
      serve process s input = (written ++ (serve process s' rest).1, (serve process s' rest).2)
  waits : ∀ {σ : Type} (process : σ → Reads (Option (Processed σ))) {s : σ}
    {input rest : List UInt8},
    (process s).read input = .ok (some none, rest) → rest.length < input.length →
      serve process s input = ([], none)
  catches : ∀ {σ : Type} (process : σ → Reads (Option (Processed σ))) {s : σ}
    {input : List UInt8} {x : Exn},
    (process s).read input = .error x → serve process s input = ([], some s)

section Dispatch
variable {α : Type} {P : Protocol} {dispatchCall : StdString → Int32 → Reads α} {name : StdString}

/-- A call is read whole by what reads it behind its header. -/
theorem TDispatchProcessor.gives (D : TDispatchProcessor P) (hname : Fits name)
    {type : TMessageType} (htype : type = T_CALL ∨ type = T_ONEWAY) {seqid : Int32}
    {w : List UInt8} {a : α} (h : Gives (dispatchCall name seqid) w a) :
    Gives (D.process dispatchCall) (P.writeMessageBegin name type seqid ++ w) (some a) := by
  have hbegin := P.message_begin name type seqid hname
  constructor
  · intro rest
    rw [List.append_assoc, D.dispatches dispatchCall (hbegin.read_ok (w ++ rest)) htype,
      h.read_ok]
    rfl
  · intro p hp hne
    by_cases hw : P.writeMessageBegin name type seqid <+: p
    · obtain ⟨q, rfl⟩ := hw
      have hcut := h.cut q ((List.prefix_append_right_inj _).mp hp) fun he => hne (he ▸ rfl)
      rw [D.dispatches dispatchCall (hbegin.read_ok q) htype, hcut]
      rfl
    · have hpw := (List.prefix_or_prefix_of_prefix hp (List.prefix_append _ w)).resolve_right hw
      exact D.throws dispatchCall (hbegin.cut p hpw fun he => hw (he ▸ List.prefix_rfl))

end Dispatch

/-- The value of a field on the wire. `other` is of a type that no struct of the
service has, with bytes that `skip` takes. -/
inductive WireValue where
  | i32 (v : Int32)
  | string (s : StdString)
  | other (type : TType) (bytes : List UInt8)

structure WireField where
  name : StdString
  id : Int16
  value : WireValue

namespace WireValue

def type : WireValue → TType
  | .i32 _ => T_I32
  | .string _ => T_STRING
  | .other type _ => type

def bytes (P : TProtocol) : WireValue → List UInt8
  | .i32 v => P.writeI32 v
  | .string s => P.writeString s
  | .other _ bytes => bytes

def Carried (P : StructProtocol) : WireValue → Prop
  | .i32 _ => True
  | .string s => Fits s
  | .other type bytes =>
    type ≠ T_STOP ∧ type ≠ T_I32 ∧ type ≠ T_STRING ∧ P.Skips type bytes

theorem Carried.type_ne {P : StructProtocol} {v : WireValue} (h : v.Carried P) : v.type ≠ T_STOP := by
  cases v with
  | i32 v => exact (by decide : T_I32 ≠ T_STOP)
  | string s => exact (by decide : T_STRING ≠ T_STOP)
  | other type bytes => exact h.1

theorem Carried.skips {P : StructProtocol} {v : WireValue} (h : v.Carried P) :
    P.Skips v.type (v.bytes P.toTProtocol) := by
  cases v with
  | i32 v => exact P.skip_i32 v
  | string s => exact P.skip_string s h
  | other type bytes => exact h.2.2.2

end WireValue

/-- `writeFieldBegin`, the value, `writeFieldEnd` -/
def writeField (P : TProtocol) (f : WireField) : List UInt8 :=
  P.writeFieldBegin f.name f.value.type f.id ++ (f.value.bytes P ++ P.writeFieldEnd)

/-- A generated `write`, or what another program writes for a struct. -/
def writeStruct (P : TProtocol) (name : StdString) (fields : List WireField) : List UInt8 :=
  P.writeStructBegin name ++
    (fields.flatMap (writeField P) ++ P.writeFieldStop ++ P.writeStructEnd)

/-- The type of a field and where its value is stored. -/
inductive Slot (σ : Type) where
  | i32 (set : Int32 → σ → σ)
  | string (set : StdString → σ → σ)

/-- `case id:` in the `switch (fid)` of a generated `read`. -/
structure Case (σ : Type) where
  id : Int16
  slot : Slot σ

section Read
variable {σ : Type}

def Slot.type : Slot σ → TType
  | .i32 _ => T_I32
  | .string _ => T_STRING

def Slot.read (P : TProtocol) (s : σ) : Slot σ → Reads σ
  | .i32 set => do
    let v ← P.readI32
    pure (set v s)
  | .string set => do
    let v ← P.readString
    pure (set v s)

/-- `skip(ftype)` -/
def skipField (P : TProtocol) (s : σ) (ftype : TType) : Reads σ := do
  P.skip ftype
  pure s

/-- The `switch (fid)`. -/
def readCase (P : TProtocol) (cases : List (Case σ)) (s : σ) (ftype : TType) (fid : Int16) :
    Reads σ :=
  match cases.find? (·.id = fid) with
  | some c => if ftype = c.slot.type then c.slot.read P s else skipField P s ftype
  | none => skipField P s ftype

/-- The body of the loop; none is `break`. -/
def readField (P : TProtocol) (cases : List (Case σ)) (s : σ) : TType × Int16 → Option (Reads σ)
  | (ftype, fid) =>
    if ftype = T_STOP then none
    else some do
      let s ← readCase P cases s ftype fid
      P.readFieldEnd
      pure s

/-- A generated `read` into `s`. -/
def readStruct (P : StructProtocol) (cases : List (Case σ)) (s : σ) : Reads σ := do
  P.readStructBegin
  let s ← Reader.iterate P.readFieldBegin P.field_consumes (readField P.toTProtocol cases) s
  P.readStructEnd
  pure s

/-- What storing a value of any type comes to. -/
def Slot.store (s : σ) : Slot σ → WireValue → σ
  | .i32 set, .i32 v => set v s
  | .string set, .string v => set v s
  | _, _ => s

/-- What a generated `read` makes of one field: a value of another type, or of a
field that the struct does not have, is passed over. -/
def store (cases : List (Case σ)) (s : σ) (f : WireField) : σ :=
  match cases.find? (·.id = f.id) with
  | none => s
  | some c => c.slot.store s f.value

variable {P : StructProtocol} {cases : List (Case σ)} {s : σ}

theorem gives_map {α β : Type} {r : Reads α} {f : α → β} {w : List UInt8} {a : α}
    (h : Gives r w a) : Gives (r >>= fun a => pure (f a)) w (f a) :=
  Reader.Exact.map h f

theorem gives_skipField {v : WireValue} (hv : v.Carried P) :
    Gives (skipField P.toTProtocol s v.type) (v.bytes P.toTProtocol) s :=
  gives_map hv.skips

theorem gives_slot {slot : Slot σ} {v : WireValue} (hv : v.Carried P) (ht : v.type = slot.type) :
    Gives (slot.read P.toTProtocol s) (v.bytes P.toTProtocol) (slot.store s v) := by
  cases slot with
  | i32 set =>
    cases v with
    | i32 v => exact gives_map (P.i32 v)
    | string v => exact absurd ht (by decide : T_STRING ≠ T_I32)
    | other type bytes => exact absurd ht hv.2.1
  | string set =>
    cases v with
    | i32 v => exact absurd ht (by decide : T_I32 ≠ T_STRING)
    | string v => exact gives_map (P.string v hv)
    | other type bytes => exact absurd ht hv.2.2.1

theorem Slot.store_of_ne {slot : Slot σ} {v : WireValue} (ht : v.type ≠ slot.type) :
    slot.store s v = s := by
  cases slot with
  | i32 set =>
    cases v with
    | i32 v => exact absurd rfl ht
    | _ => rfl
  | string set =>
    cases v with
    | string v => exact absurd rfl ht
    | _ => rfl

/-- One field, whatever it is. -/
theorem gives_readCase {f : WireField} (hf : f.value.Carried P) :
    Gives (readCase P.toTProtocol cases s f.value.type f.id) (f.value.bytes P.toTProtocol)
      (store cases s f) := by
  unfold readCase store
  cases hcase : cases.find? (·.id = f.id) with
  | none => exact gives_skipField hf
  | some c =>
    dsimp only
    split
    · rename_i ht
      exact gives_slot hf ht
    · rename_i ht
      rw [Slot.store_of_ne ht]
      exact gives_skipField hf

/-- All fields up to the stop. -/
theorem gives_fields {fields : List WireField} (hf : ∀ f ∈ fields, f.value.Carried P) :
    Gives (Reader.iterate P.readFieldBegin P.field_consumes (readField P.toTProtocol cases) s)
      (fields.flatMap (writeField P.toTProtocol) ++ P.writeFieldStop)
      (fields.foldl (store cases) s) := by
  induction fields generalizing s with
  | nil =>
    obtain ⟨id, hstop⟩ := P.field_stop
    exact Reader.exact_stop hstop (by rw [readField, if_pos rfl])
  | cons f fields ih =>
    have hcarried := hf f List.mem_cons_self
    have hrest := ih (s := store cases s f) fun g hg => hf g (List.mem_cons_of_mem f hg)
    have hbody : Gives (do
        let s ← readCase P.toTProtocol cases s f.value.type f.id
        P.readFieldEnd
        pure s) (f.value.bytes P.toTProtocol ++ P.writeFieldEnd) (store cases s f) :=
      (gives_readCase hcarried).bind (gives_map P.field_end)
    have hpass := Reader.exact_pass (P.field_begin f.name f.value.type f.id hcarried.type_ne)
      (if_neg hcarried.type_ne) hbody hrest
    rw [List.flatMap_cons, writeField, List.append_assoc, List.append_assoc]
    exact hpass

/-- What a generated `read` makes of any struct: fields in any order, more than
once, of other types, and fields it does not have. -/
theorem gives_readStruct (cases : List (Case σ)) (s : σ) (name : StdString) {fields : List WireField}
    (hf : ∀ f ∈ fields, f.value.Carried P) :
    Gives (readStruct P cases s) (writeStruct P.toTProtocol name fields)
      (fields.foldl (store cases) s) :=
  (P.struct_begin name).bind ((gives_fields hf).bind (gives_map P.struct_end))

end Read

end Errifier.Rpc
