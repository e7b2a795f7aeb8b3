import Errifier.Machine.BigEndian
import Errifier.Rpc.Protocol
import Errifier.Server.GetLog

/-!
# The binary protocol

What TBinaryProtocol is documented to write and read: numbers in big-endian
order, a string behind its length, a field behind its type and number, and a
version, a name and a number in front of a message. It is a `Protocol`. A header
that is read and a loop that ends are the other two things of the library.
-/
namespace Errifier.Rpc.Binary

set_option autoImplicit false

open Errifier.Text Errifier.Machine
open Errifier.Machine.Reader (readNat exact_readNat exact_take exact_pure)
open Errifier.Server (literal)
open TProtocol (Gives)

def writeByte (b : UInt8) : List UInt8 := bytesBe 1 b.toNat

def writeI16 (v : Int16) : List UInt8 := bytesBe 2 v.toBitVec.toNat

def writeI32 (v : Int32) : List UInt8 := bytesBe 4 v.toBitVec.toNat

def writeString (s : StdString) : List UInt8 := bytesBe 4 s.length ++ s

def writeFieldBegin (type : TType) (id : Int16) : List UInt8 := writeByte type ++ writeI16 id

/-- VERSION_1 -/
def version : Nat := 0x80010000

def writeMessageBegin (name : StdString) (type : TMessageType) (seqid : Int32) : List UInt8 :=
  bytesBe 4 (version + type.toNat) ++ (writeString name ++ writeI32 seqid)

def readByte : Reads UInt8 := do
  let n ← readNat .transport 1
  pure (UInt8.ofNat n)

def readI16 : Reads Int16 := do
  let n ← readNat .transport 2
  pure (Int16.ofNat n)

def readI32 : Reads Int32 := do
  let n ← readNat .transport 4
  pure (Int32.ofNat n)

def readString : Reads StdString := do
  let size ← readI32
  if size < 0 then Reader.throw .protocol
  else Reader.take .transport size.toNatClampNeg

/-- The number of the stop is not written. -/
def readFieldBegin : Reads (TType × Int16) := do
  let type ← readByte
  if type = T_STOP then pure (type, 0)
  else do
    let id ← readI16
    pure (type, id)

/-- A negative first number has the version and the type; another one is the
length of the name in a message without version. -/
def readMessageBegin : Reads (StdString × TMessageType × Int32) := do
  let sz ← readNat .transport 4
  if 0x80000000 ≤ sz then
    if sz / 0x10000 ≠ version / 0x10000 then Reader.throw .protocol
    else do
      let name ← readString
      let seqid ← readI32
      pure (name, UInt8.ofNat sz, seqid)
  else do
    let name ← Reader.take .transport sz
    let type ← readByte
    let seqid ← readI32
    pure (name, type, seqid)

theorem readByte_consumes : readByte.Consumes :=
  (Reader.readNat_consumes (by decide)).bind _

theorem readFieldBegin_consumes : readFieldBegin.Consumes := readByte_consumes.bind _

/-- A reader `n` times. -/
def times (r : Reads Unit) : Nat → Reads Unit
  | 0 => pure ()
  | n + 1 => do
    r
    times r n

def discard (n : Nat) : Reads Unit := do
  let _ ← Reader.take .transport n
  pure ()

/-- A value nested at most `n` deep: scalars by their size, then strings, structs,
maps, sets and lists. -/
def skipValue : Nat → TType → Reads Unit
  | 0, _ => Reader.throw .protocol
  | n + 1, type =>
    match type.toNat with
    | 2 | 3 => discard 1
    | 6 => discard 2
    | 8 => discard 4
    | 4 | 10 => discard 8
    | 11 => do
      let _ ← readString
      pure ()
    | 12 => Reader.iterate readFieldBegin readFieldBegin_consumes
      (fun _ field => if field.1 = T_STOP then none else some (skipValue n field.1)) ()
    | 13 => do
      let key ← readByte
      let value ← readByte
      let size ← readNat .transport 4
      times (do
        skipValue n key
        skipValue n value) size
    | 14 | 15 => do
      let element ← readByte
      let size ← readNat .transport 4
      times (skipValue n element) size
    | _ => pure ()

/-- A value is not nested deeper than it is long. -/
def skip (type : TType) : Reads Unit where
  read s := (skipValue (s.length + 1) type).read s
  leaves s := (skipValue (s.length + 1) type).leaves s

theorem gives_byte (b : UInt8) : Gives readByte (writeByte b) b := by
  have hread := (exact_readNat Exn.transport (k := 1) b.toNat_lt).map UInt8.ofNat
  rw [UInt8.ofNat_toNat] at hread
  exact hread

theorem ofNat_toNat_i16 (v : Int16) : Int16.ofNat v.toBitVec.toNat = v := by
  have hbits : BitVec.ofNat 16 v.toBitVec.toNat = v.toBitVec := by
    rw [BitVec.ofNat_toNat, BitVec.setWidth_eq]
  exact congrArg Int16.ofBitVec hbits

theorem ofNat_toNat_i32 (v : Int32) : Int32.ofNat v.toBitVec.toNat = v := by
  have hbits : BitVec.ofNat 32 v.toBitVec.toNat = v.toBitVec := by
    rw [BitVec.ofNat_toNat, BitVec.setWidth_eq]
  exact congrArg Int32.ofBitVec hbits

theorem gives_i16 (v : Int16) : Gives readI16 (writeI16 v) v := by
  have hread := (exact_readNat Exn.transport (k := 2) v.toBitVec.isLt).map Int16.ofNat
  rw [ofNat_toNat_i16] at hread
  exact hread

theorem gives_i32 (v : Int32) : Gives readI32 (writeI32 v) v := by
  have hread := (exact_readNat Exn.transport (k := 4) v.toBitVec.isLt).map Int32.ofNat
  rw [ofNat_toNat_i32] at hread
  exact hread

theorem gives_string (s : StdString) (h : Fits s) : Gives readString (writeString s) s := by
  have hlt : s.length < 256 ^ 4 := Nat.lt_trans h (by decide)
  refine ((exact_readNat Exn.transport hlt).map Int32.ofNat).bind ?_
  have hsize : ¬ Int32.ofNat s.length < 0 := by
    rw [Int32.lt_iff_toInt_lt, Int32.toInt_ofNat_of_lt h]
    simp
  rw [if_neg hsize, Int32.toNatClampNeg_ofNat_of_lt h]
  exact exact_take _ s

theorem gives_fieldBegin {type : TType} (h : type ≠ T_STOP) (id : Int16) :
    Gives readFieldBegin (writeFieldBegin type id) (type, id) := by
  refine (gives_byte type).bind ?_
  rw [if_neg h]
  exact gives_map (gives_i16 id)

theorem gives_fieldStop : Gives readFieldBegin (writeByte T_STOP) (T_STOP, 0) := by
  refine (gives_byte T_STOP).bind_pure ?_
  rw [if_pos rfl]
  exact exact_pure _

theorem gives_messageBegin (name : StdString) (type : TMessageType) (seqid : Int32)
    (h : Fits name) :
    Gives readMessageBegin (writeMessageBegin name type seqid) (name, type, seqid) := by
  have htype := type.toNat_lt
  have hlt : version + type.toNat < 256 ^ 4 := by
    simp only [version]
    omega
  refine (exact_readNat Exn.transport hlt).bind ?_
  have hsigned : 0x80000000 ≤ version + type.toNat := by
    simp only [version]
    omega
  have hversion : ¬ (version + type.toNat) / 0x10000 ≠ version / 0x10000 := by
    simp only [version]
    omega
  have hbyte : UInt8.ofNat (version + type.toNat) = type := by
    refine UInt8.toNat_inj.mp ?_
    rw [UInt8.toNat_ofNat', version]
    omega
  rw [if_pos hsigned, if_neg hversion, hbyte]
  exact (gives_string name h).bind (gives_map (gives_i32 seqid))

/-- A value that some reader takes whole is skipped when `skipValue` reads it the
same way at every depth. -/
theorem skips_of_gives {α : Type} {type : TType} {r : Reads α} {w : List UInt8} {a : α}
    (h : Gives r w a) (hskip : ∀ n, skipValue (n + 1) type = do
      let _ ← r
      pure ()) : Gives (skip type) w () := by
  have hread : ∀ s, (skip type).read s = (do
      let _ ← r
      pure () : Reads Unit).read s := fun s => congrArg (·.read s) (hskip s.length)
  exact (gives_map (f := fun _ => ()) h).congr hread

theorem skips_i32 (v : Int32) : Gives (skip T_I32) (writeI32 v) () := by
  have hlen : (writeI32 v).length = 4 := length_bytesBe 4 _
  have htake := exact_take Exn.transport (writeI32 v)
  rw [hlen] at htake
  exact skips_of_gives htake fun _ => rfl

theorem skips_string (s : StdString) (h : Fits s) : Gives (skip T_STRING) (writeString s) () :=
  skips_of_gives (gives_string s h) fun _ => rfl

theorem skips_noFields : Gives (skip T_STRUCT) (writeByte T_STOP) () := by
  have hread : ∀ n, Gives (skipValue (n + 1) T_STRUCT) (writeByte T_STOP) () := fun n =>
    Reader.exact_stop gives_fieldStop (if_pos rfl)
  exact ⟨fun rest => (hread _).whole rest, fun p hp hne => (hread _).cut p hp hne⟩

/-- Whatever the exceptions are. -/
def structs (writeException : Int32 → StdString → List UInt8)
    (readException : Reads (Int32 × StdString)) : StructProtocol where
  writeMessageBegin := writeMessageBegin
  writeMessageEnd := []
  writeStructBegin _ := []
  writeStructEnd := []
  writeFieldBegin _ := writeFieldBegin
  writeFieldEnd := []
  writeFieldStop := writeByte T_STOP
  writeI32 := writeI32
  writeString := writeString
  writeException := writeException
  readMessageBegin := readMessageBegin
  readMessageEnd := pure ()
  readStructBegin := pure ()
  readStructEnd := pure ()
  readFieldBegin := readFieldBegin
  readFieldEnd := pure ()
  readI32 := readI32
  readString := readString
  readException := readException
  skip := skip
  struct_begin _ := exact_pure ()
  struct_end := exact_pure ()
  field_begin _ _ id h := gives_fieldBegin h id
  field_end := exact_pure ()
  field_stop := ⟨0, gives_fieldStop⟩
  field_consumes := readFieldBegin_consumes
  i32 := gives_i32
  string := gives_string
  skip_i32 := skips_i32
  skip_string := skips_string

/-- To write and read the struct of an exception. -/
def plain : StructProtocol := structs (fun _ _ => []) (Reader.throw .protocol)

def writeException (type : Int32) (message : StdString) : List UInt8 :=
  writeStruct plain.toTProtocol (literal "TApplicationException".toList)
    [⟨literal "message".toList, 1, .string message⟩, ⟨literal "type".toList, 2, .i32 type⟩]

def readException : Reads (Int32 × StdString) :=
  readStruct plain [⟨1, .string fun v x => (x.1, v)⟩, ⟨2, .i32 fun v x => (v, x.2)⟩] (UNKNOWN, [])

theorem gives_exception (type : Int32) (message : StdString) (h : Fits message) :
    Gives readException (writeException type message) (type, message) := by
  refine gives_readStruct _ _ _ fun f hf => ?_
  simp only [List.mem_cons, List.not_mem_nil, or_false] at hf
  rcases hf with rfl | rfl
  · exact h
  · trivial

end Errifier.Rpc.Binary

namespace Errifier.Rpc

open Errifier.Text Errifier.Machine

/-- `TBinaryProtocol` -/
def binary : Protocol where
  toStructProtocol := Binary.structs Binary.writeException Binary.readException
  message_begin := Binary.gives_messageBegin
  message_end := Errifier.Machine.Reader.exact_pure ()
  exception := Binary.gives_exception

/-- The header of a message and what is made of it. -/
def dispatch (P : Protocol) {α : Type} (dispatchCall : StdString → Int32 → Reads α) :
    Reads (Option α) := do
  let (fname, mtype, seqid) ← P.readMessageBegin
  if mtype = T_CALL ∨ mtype = T_ONEWAY then do
    let a ← dispatchCall fname seqid
    pure (some a)
  else pure none

/-- `TDispatchProcessor` -/
def dispatchProcessor (P : Protocol) : TDispatchProcessor P where
  process := dispatch P
  dispatches := by
    intro α dispatchCall input body fname mtype seqid hbegin htype
    rw [dispatch, Reader.read_bind_ok hbegin]
    dsimp only
    rw [if_pos htype, Reader.read_map]
  refuses := by
    intro α dispatchCall input body fname mtype seqid hbegin htype
    rw [dispatch, Reader.read_bind_ok hbegin]
    dsimp only
    rw [if_neg htype]
    rfl
  throws := by
    intro α dispatchCall input x hbegin
    exact Reader.read_bind_error hbegin _

/-- The loop, over a processor that reads at least one byte of a call. -/
def serveLoop {σ : Type} (process : σ → Reads (Option (Processed σ))) (s : σ)
    (input : List UInt8) : List UInt8 × Option σ :=
  match (process s).read input with
  | .ok (some (some (written, s')), rest) =>
    if rest.length < input.length then
      (written ++ (serveLoop process s' rest).1, (serveLoop process s' rest).2)
    else ([], some s)
  | .ok (some none, _) => ([], none)
  | .ok (none, _) => ([], some s)
  | .error _ => ([], some s)
termination_by input.length

/-- `TThreadPoolServer` -/
def threadPoolServer : TServer where
  serve := serveLoop
  goes_on := by
    intro σ process s s' input rest written h hlt
    rw [serveLoop, h]
    exact if_pos hlt
  waits := by
    intro σ process s input rest h _
    rw [serveLoop, h]
  catches := by
    intro σ process s input x h
    rw [serveLoop, h]

end Errifier.Rpc
