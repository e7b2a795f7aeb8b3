import Errifier.Machine.Run
import Errifier.Rpc.Calls

/-!
# A connection

A stub and its server thread over two byte streams that may be cut anywhere. The
handler is executed for a first part of the calls, each once and in order, and
the stub gives back what the handler returned for as long as the connection
holds. After that every call throws a TTransportException, and at most one call
has been executed without an answer.
-/
namespace Errifier.Rpc

set_option autoImplicit false

open Errifier.Text Errifier.Machine
open TProtocol (Gives)

/-- A call of the stub. -/
inductive Request where
  | ping
  | getLog (args : GetLogArgs)
  | isFileExist (filename : StdString)
  | startNotifier (filename : StdString)
  deriving DecidableEq

inductive Value where
  | i32 (v : Int32)
  | string (s : StdString)
  deriving DecidableEq

/-- The lengths of its strings are `i32`s. -/
def Value.Carried : Value → Prop
  | .i32 _ => True
  | .string s => Fits s

/-- What a handler returns, or its `e.what()`. -/
def Returned : Except StdString Value → Prop
  | .ok v => v.Carried
  | .error what => Fits what

namespace Request

def Carried : Request → Prop
  | .ping => True
  | .getLog args => Fits args.filename ∧ Fits args.lines
  | .isFileExist filename => Fits filename
  | .startNotifier filename => Fits filename

instance : DecidablePred Carried
  | .ping => isTrue trivial
  | .getLog args => inferInstanceAs (Decidable (Fits args.filename ∧ Fits args.lines))
  | .isFileExist filename => inferInstanceAs (Decidable (Fits filename))
  | .startNotifier filename => inferInstanceAs (Decidable (Fits filename))

def send (P : TProtocol) : Request → List UInt8
  | .ping => Rpc.ping.send P ()
  | .getLog args => Rpc.getLog.send P args
  | .isFileExist filename => Rpc.isFileExist.send P filename
  | .startNotifier filename => Rpc.startNotifier.send P filename

/-- A stub's result as a `Value`. -/
def received {β : Type} (value : β → Value) (recv : Reads (Except Exn β)) :
    Reads (Except Exn Value) := do
  let r ← recv
  pure (r.map value)

def recv (P : Protocol) : Request → Reads (Except Exn Value)
  | .ping => received .i32 (Rpc.ping.recv P)
  | .getLog _ => received .string (Rpc.getLog.recv P)
  | .isFileExist _ => received .i32 (Rpc.isFileExist.recv P)
  | .startNotifier _ => received .i32 (Rpc.startNotifier.recv P)

section Handler
variable {σ : Type} (iface : WorkerHandlerIf σ)

/-- The handler called without a connection; none when it does not return. -/
def handle : Request → σ → Option (Except StdString Value × σ)
  | .ping, s => (iface.ping () s).map fun r => (r.1.map .i32, r.2)
  | .getLog args, s => (iface.getLog args s).map fun r => (r.1.map .string, r.2)
  | .isFileExist filename, s => (iface.isFileExist filename s).map fun r => (r.1.map .i32, r.2)
  | .startNotifier filename, s =>
    (iface.startNotifier filename s).map fun r => (r.1.map .i32, r.2)

/-- What the server makes of the call. -/
def answer (P : TProtocol) (req : Request) (s : σ) : Processed σ :=
  match req with
  | .ping => Rpc.ping.answer P iface.ping 0 () s
  | .getLog args => Rpc.getLog.answer P iface.getLog 0 args s
  | .isFileExist filename => Rpc.isFileExist.answer P iface.isFileExist 0 filename s
  | .startNotifier filename => Rpc.startNotifier.answer P iface.startNotifier 0 filename s

end Handler
end Request

/-- What a stub makes of what the handler did. -/
def answered (r : Except StdString Value) : Except Exn Value := r.mapError (.application UNKNOWN)

section Lemmas
variable {σ α β : Type} {P : Protocol} {iface : WorkerHandlerIf σ}

/-- The call of a stub is read as it was meant. -/
theorem gives_send (D : TDispatchProcessor P) {m : Method α β} {handle : Handles σ α β}
    (hname : Fits m.name)
    (hm : (processMap P iface).lookup m.name = some (m.process P handle)) {a : α}
    (ha : m.Carries P a) (s : σ) :
    Gives (process D iface s) (m.send P.toTProtocol a)
      (some (m.answer P.toTProtocol handle 0 a s)) := by
  refine D.gives hname (Or.inl rfl) ?_
  rw [dispatchCall, hm]
  exact (m.gives_args ha).bind (gives_map P.message_end)

theorem Request.gives_send (D : TDispatchProcessor P) (iface : WorkerHandlerIf σ) {req : Request}
    (h : req.Carried) (s : σ) :
    Gives (process D iface s) (req.send P.toTProtocol)
      (some (req.answer iface P.toTProtocol s)) := by
  cases req with
  | ping =>
    exact Rpc.gives_send D (m := Rpc.ping) (by decide) rfl (fun f hf => by cases hf) s
  | getLog args =>
    refine Rpc.gives_send D (m := Rpc.getLog) (by decide) rfl (fun f hf => ?_) s
    simp only [Rpc.getLog, List.mem_cons, List.not_mem_nil, or_false] at hf
    rcases hf with rfl | rfl | rfl
    · exact h.1
    · trivial
    · exact h.2
  | isFileExist filename =>
    refine Rpc.gives_send D (m := Rpc.isFileExist) (by decide) rfl (fun f hf => ?_) s
    rw [List.mem_singleton.mp hf]
    exact h
  | startNotifier filename =>
    refine Rpc.gives_send D (m := Rpc.startNotifier) (by decide) rfl (fun f hf => ?_) s
    rw [List.mem_singleton.mp hf]
    exact h

theorem Method.returns_of {m : Method α β} {g : β → Value}
    (hv : ∀ v, (g v).Carried → (m.success v).Carried P.toStructProtocol) {r : Except StdString β}
    (h : Returned (r.map g)) : m.Returns P r := by
  cases r with
  | ok v => exact hv v h
  | error what => exact h

theorem gives_received {m : Method α β} (hname : Fits m.name) {g : β → Value}
    (hv : ∀ v, (g v).Carried → (m.success v).Carried P.toStructProtocol) {r : Except StdString β}
    (h : Returned (r.map g)) :
    Gives (Request.received g (m.recv P)) (m.reply P.toTProtocol 0 r) (answered (r.map g)) := by
  have hmap : answered (r.map g) = (r.mapError (Exn.application UNKNOWN)).map g := by
    cases r <;> rfl
  rw [hmap]
  exact gives_map (m.gives_recv hname (m.returns_of hv h) 0)

theorem Request.send_ne_nil (P : Protocol) (req : Request) : req.send P.toTProtocol ≠ [] := by
  cases req with
  | _ => exact List.append_ne_nil_of_left_ne_nil (writeMessageBegin_ne_nil P (by decide) _ _) _

theorem Method.reply_ne_nil (m : Method α β) (P : Protocol) (hname : Fits m.name) (seqid : Int32)
    (r : Except StdString β) : m.reply P.toTProtocol seqid r ≠ [] := by
  cases r with
  | _ => exact List.append_ne_nil_of_left_ne_nil (writeMessageBegin_ne_nil P hname _ _) _

/-- Nothing comes of nothing. -/
theorem Method.recv_nil (m : Method α β) (P : Protocol) (hname : Fits m.name) {v : β}
    (hv : (m.success v).Carried P.toStructProtocol) : (m.recv P).read [] = .error .transport :=
  (m.gives_recv hname (r := .ok v) hv 0).cut [] List.nil_prefix
    (m.reply_ne_nil P hname 0 (.ok v)).symm

theorem Request.recv_nil (P : Protocol) (req : Request) :
    (req.recv P).read [] = .error .transport := by
  cases req with
  | getLog args =>
    exact Reader.read_bind_error (Rpc.getLog.recv_nil P (by decide) (v := []) (by decide : Fits [])) _
  | ping => exact Reader.read_bind_error (Rpc.ping.recv_nil P (by decide) (v := 0) trivial) _
  | isFileExist filename =>
    exact Reader.read_bind_error (Rpc.isFileExist.recv_nil P (by decide) (v := 0) trivial) _
  | startNotifier filename =>
    exact Reader.read_bind_error (Rpc.startNotifier.recv_nil P (by decide) (v := 0) trivial) _

/-- A call is answered when its handler returns, and the stub gives back what it did. -/
theorem recv_of_answer {m : Method α β} {handle : Handles σ α β} {req : Request} {g : β → Value}
    (hname : Fits m.name) (hrecv : req.recv P = Request.received g (m.recv P))
    (hv : ∀ v, (g v).Carried → (m.success v).Carried P.toStructProtocol) {a : α} {s : σ}
    {written : List UInt8} {s' : σ}
    (h : m.answer P.toTProtocol handle 0 a s = some (written, s')) :
    ∃ r, ((handle a s).map fun r => (r.1.map g, r.2)) = some (r, s') ∧
      (Returned r → Gives (req.recv P) written (answered r)) := by
  obtain ⟨⟨r, t⟩, hr, he⟩ := Option.map_eq_some_iff.mp h
  obtain ⟨rfl, rfl⟩ := Prod.mk.inj he
  refine ⟨r.map g, by rw [hr]; rfl, fun hret => ?_⟩
  rw [hrecv]
  exact gives_received hname hv hret

theorem Request.recv_of_answer {req : Request} {s s' : σ} {written : List UInt8}
    (h : req.answer iface P.toTProtocol s = some (written, s')) :
    ∃ r, req.handle iface s = some (r, s') ∧
      (Returned r → Gives (req.recv P) written (answered r)) := by
  cases req with
  | ping => exact Rpc.recv_of_answer (m := Rpc.ping) (g := .i32) (by decide) rfl (fun _ h => h) h
  | getLog args =>
    exact Rpc.recv_of_answer (m := Rpc.getLog) (g := .string) (by decide) rfl (fun _ h => h) h
  | isFileExist filename =>
    exact Rpc.recv_of_answer (m := Rpc.isFileExist) (g := .i32) (by decide) rfl (fun _ h => h) h
  | startNotifier filename =>
    exact Rpc.recv_of_answer (m := Rpc.startNotifier) (g := .i32) (by decide) rfl (fun _ h => h) h

theorem Request.answer_eq_none {req : Request} {s : σ} :
    req.answer iface P.toTProtocol s = none ↔ req.handle iface s = none := by
  cases req with
  | _ => exact Option.map_eq_none_iff.trans Option.map_eq_none_iff.symm

end Lemmas

/-- `up` and `down` are the bytes on their way to the server and to the stub; once
the connection is cut no more are added. `calls` and `results` are the history of
the stub. -/
structure Connection (σ : Type) where
  server : σ
  up : List UInt8
  down : List UInt8
  cut : Bool
  pending : Option Request
  calls : List Request
  results : List (Except Exn Value)

/-- `serve`: the server has read a call and executed it, and writes its answer. `receive`: the
stub reads an answer, or that none will come. `cut`: of the bytes on their way only the first
`n` and `k` arrive. -/
inductive ConnectionEvent where
  | call (req : Request)
  | serve
  | receive
  | cut (n k : Nat)

/-- The handler called with each request in turn: what it returns or throws, and
the state it leaves; none when it does not return to one of them. -/
def replay {σ : Type} (iface : WorkerHandlerIf σ) (s : σ) :
    List Request → Option (List (Except StdString Value) × σ)
  | [] => some ([], s)
  | req :: reqs =>
    (req.handle iface s).bind fun r => (replay iface r.2 reqs).map fun q => (r.1 :: q.1, q.2)

/-- What the handler returns to the requests, one after the other, fits a message. -/
def Fitting {σ : Type} (iface : WorkerHandlerIf σ) (s : σ) : List Request → Prop
  | [] => True
  | req :: reqs => ∀ r ∈ req.handle iface s, Returned r.1 ∧ Fitting iface r.2 reqs

/-- The calls of a run. -/
def requests (es : List ConnectionEvent) : List Request :=
  es.filterMap fun
    | .call req => some req
    | _ => none

section Replay
variable {σ : Type} {iface : WorkerHandlerIf σ} {s t : σ} {reqs : List Request}
  {rs : List (Except StdString Value)} {req : Request}

theorem replay_concat (h : replay iface s reqs = some (rs, t)) {r : Except StdString Value}
    {t' : σ} (hr : req.handle iface t = some (r, t')) :
    replay iface s (reqs ++ [req]) = some (rs ++ [r], t') := by
  induction reqs generalizing s rs with
  | nil =>
    obtain ⟨rfl, rfl⟩ := Prod.mk.inj (Option.some.inj h)
    rw [List.nil_append, replay, hr]
    rfl
  | cons q reqs ih =>
    obtain ⟨⟨r₁, s₁⟩, hq, h⟩ := Option.bind_eq_some_iff.mp h
    obtain ⟨⟨rs₁, t₁⟩, hrs, he⟩ := Option.map_eq_some_iff.mp h
    obtain ⟨rfl, rfl⟩ := Prod.mk.inj he
    rw [List.cons_append, replay, hq, Option.bind_some, ih hrs]
    rfl

theorem Fitting.of_append {more : List Request} (h : Fitting iface s (reqs ++ more)) :
    Fitting iface s reqs := by
  induction reqs generalizing s with
  | nil => trivial
  | cons q reqs ih => exact fun r hr => ⟨(h r hr).1, ih (h r hr).2⟩

/-- What the handler returns to request `n` fits a message. -/
theorem Fitting.returned {n : Nat} (h : Fitting iface s reqs)
    (hrs : replay iface s (reqs.take n) = some (rs, t)) (hreq : reqs[n]? = some req)
    {r : Except StdString Value} {t' : σ} (hr : req.handle iface t = some (r, t')) :
    Returned r := by
  induction reqs generalizing s n rs with
  | nil => cases hreq
  | cons q reqs ih =>
    cases n with
    | zero =>
      obtain ⟨-, rfl⟩ := Prod.mk.inj (Option.some.inj hrs)
      obtain rfl := Option.some.inj hreq
      exact (h _ hr).1
    | succ n =>
      obtain ⟨⟨r₁, s₁⟩, hq, hmap⟩ := Option.bind_eq_some_iff.mp hrs
      obtain ⟨⟨rs₁, t₁⟩, htail, he⟩ := Option.map_eq_some_iff.mp hmap
      obtain ⟨-, rfl⟩ := Prod.mk.inj he
      exact ih (h _ hq).2 htail hreq

end Replay

namespace Connection
variable {σ : Type}

def start (s : σ) : Connection σ where
  server := s
  up := []
  down := []
  cut := false
  pending := none
  calls := []
  results := []

section Step
variable {P : Protocol} (D : TDispatchProcessor P) (iface : WorkerHandlerIf σ)

/-- A server thread waits for a whole call, and ends when none comes any more. While the
handler does not return there is no such step. -/
def serve (c : Connection σ) : Option (Connection σ) :=
  match (process D iface c.server).read c.up with
  | .ok (some (some (written, server)), rest) =>
    some { c with server, up := rest, down := if c.cut then c.down else c.down ++ written }
  | _ => none

variable (P) in
/-- The stub waits for the answer to its call. -/
def receive (c : Connection σ) (req : Request) : Option (Connection σ) :=
  match (req.recv P).read c.down with
  | .ok (r, rest) => some { c with pending := none, down := rest, results := c.results ++ [r] }
  | .error x =>
    if c.cut then some { c with pending := none, down := [], results := c.results ++ [.error x] }
    else none

def step (c : Connection σ) : ConnectionEvent → Option (Connection σ)
  | .call req =>
    if c.pending = none ∧ req.Carried then
      some { c with
        pending := some req
        calls := c.calls ++ [req]
        up := if c.cut then c.up else c.up ++ req.send P.toTProtocol }
    else none
  | .serve => c.serve D iface
  | .receive => c.pending.bind (c.receive P)
  | .cut n k => some { c with up := c.up.take n, down := c.down.take k, cut := true }

end Step

section Invariant
variable (P : Protocol) (iface : WorkerHandlerIf σ) (s₀ : σ)

/-- What is on its way when the handler has returned `rs` and `k` calls were answered. -/
inductive Flight (c : Connection σ) : List (Except StdString Value) → Nat → Prop
  | quiet (rs : List (Except StdString Value)) (k : Nat) (hup : c.up = []) (hdown : c.down = [])
      (hcut : c.cut = false → c.pending = none ∧ rs.length = k) : Flight c rs k
  | sent (rs : List (Except StdString Value)) (req : Request)
      (hreq : c.calls[rs.length]? = some req) (hup : c.up <+: req.send P.toTProtocol)
      (hdown : c.down = []) (hcut : c.cut = false → c.up = req.send P.toTProtocol) :
      Flight c rs rs.length
  | executed (rs : List (Except StdString Value)) (req : Request) (r : Except StdString Value)
      (written : List UInt8) (hpending : c.pending = some req)
      (hk : c.results.length = rs.length) (hup : c.up = [])
      (hgives : Gives (req.recv P) written (answered r)) (hdown : c.down <+: written)
      (hcut : c.cut = false → c.down = written) : Flight c (rs ++ [r]) rs.length

/-- The handler has returned `rs`, and `k` calls were answered. -/
structure Progress (c : Connection σ) (rs : List (Except StdString Value)) (k : Nat) : Prop where
  carried : ∀ req ∈ c.calls, req.Carried
  fits : Fitting iface s₀ c.calls
  counted : c.calls.length = c.results.length + c.pending.toList.length
  last : ∀ req ∈ c.pending, c.calls[c.results.length]? = some req
  answered_le : k ≤ rs.length
  executed_le : rs.length ≤ k + 1
  called : rs.length ≤ c.calls.length
  received : k ≤ c.results.length
  executed : replay iface s₀ (c.calls.take rs.length) = some (rs, c.server)
  results : c.results =
    (rs.take k).map answered ++ List.replicate (c.results.length - k) (.error .transport)
  held : c.cut = false → c.results.length = k
  flight : Flight P c rs k

variable {P : Protocol} {D : TDispatchProcessor P} {iface : WorkerHandlerIf σ} {s₀ : σ}
  {c c' : Connection σ} {rs : List (Except StdString Value)} {k : Nat} {req : Request}

theorem progress_start (s : σ) : Progress P iface s (start s) [] 0 where
  carried _ h := by cases h
  fits := trivial
  counted := rfl
  last _ h := by cases h
  answered_le := Nat.le_refl _
  executed_le := Nat.le_succ _
  called := Nat.le_refl _
  received := Nat.le_refl _
  executed := rfl
  results := rfl
  held _ := rfl
  flight := .quiet [] 0 rfl rfl fun _ => ⟨rfl, rfl⟩

/-- Nothing is read where nothing has come. -/
theorem serve_nil (D : TDispatchProcessor P) (s : σ) :
    (process D iface s).read [] = .error .transport := by
  have hcarried : Request.Carried .ping := trivial
  exact (Request.gives_send D iface hcarried s).cut [] List.nil_prefix
    (Request.send_ne_nil P .ping).symm

theorem Progress.call (h : Progress P iface s₀ c rs k) (hp : c.pending = none)
    (hreq : req.Carried) (hfits : Fitting iface s₀ (c.calls ++ [req])) :
    Progress P iface s₀
      { c with
        pending := some req
        calls := c.calls ++ [req]
        up := if c.cut then c.up else c.up ++ req.send P.toTProtocol } rs k := by
  have hlen : c.calls.length = c.results.length := by
    rw [h.counted, hp]
    rfl
  have hlast : (c.calls ++ [req])[c.results.length]? = some req := by
    rw [← hlen, List.getElem?_concat_length]
  refine ⟨?_, hfits, ?_, ?_, h.answered_le, h.executed_le, ?_, h.received, ?_, h.results, h.held, ?_⟩
  · intro r hr
    rcases List.mem_append.mp hr with hr | hr
    · exact h.carried r hr
    · rw [List.mem_singleton.mp hr]
      exact hreq
  · rw [List.length_append, hlen]
    rfl
  · intro r hr
    rw [← Option.some.inj hr]
    exact hlast
  · rw [List.length_append]
    exact Nat.le_trans h.called (Nat.le_add_right ..)
  · rw [List.take_append_of_le_length h.called]
    exact h.executed
  · cases h.flight with
    | quiet rs k hup hdown hcut =>
      cases hc : c.cut with
      | true => exact .quiet rs k hup hdown fun hf => absurd hf (by simp)
      | false =>
        obtain ⟨-, rfl⟩ := hcut hc
        refine .sent rs req ?_ ?_ hdown fun _ => ?_
        · rw [← h.held hc]
          exact hlast
        · simp [hup]
        · simp [hup]
    | sent rs r hr hup hdown =>
      obtain ⟨hlt, -⟩ := List.getElem?_eq_some_iff.mp hr
      have hc : c.cut = true := by
        by_contra hne
        have hk := h.held (by simpa using hne)
        omega
      refine .sent rs r ?_ ?_ hdown fun hf => ?_
      · rw [List.getElem?_append_left hlt, hr]
      · rw [if_pos hc]
        exact hup
      · rw [hc] at hf
        cases hf
    | executed rs r _ _ hpending =>
      rw [hp] at hpending
      cases hpending

/-- The call that waits for its answer is the one that was sent. -/
theorem Progress.pending_eq (h : Progress P iface s₀ c rs rs.length) (hc : c.cut = false)
    (hreq : c.calls[rs.length]? = some req) : c.pending = some req := by
  obtain ⟨hlt, -⟩ := List.getElem?_eq_some_iff.mp hreq
  have hk := h.held hc
  have hcounted := h.counted
  cases hp : c.pending with
  | none =>
    rw [hp] at hcounted
    simp only [Option.toList_none, List.length_nil] at hcounted
    omega
  | some r =>
    have hlast := h.last r hp
    rw [hk, hreq] at hlast
    exact hlast.symm

/-- The server executes the call that has come whole. -/
theorem Progress.serve (h : Progress P iface s₀ c rs k) (hs : c.serve D iface = some c') :
    ∃ r, Progress P iface s₀ c' (rs ++ [r]) k := by
  unfold Connection.serve at hs
  cases h.flight with
  | quiet rs k hup => rw [hup, serve_nil] at hs; cases hs
  | executed rs req r written hpending hk hup => rw [hup, serve_nil] at hs; cases hs
  | sent rs req hreq hup hdown hcut =>
    have hmem := h.carried req (List.mem_of_getElem? hreq)
    rcases (Request.gives_send D iface hmem c.server).read_part hup with ⟨-, hread⟩ | ⟨-, hread⟩
    · rw [hread] at hs
      cases hanswer : req.answer iface P.toTProtocol c.server with
      | none => rw [hanswer] at hs; cases hs
      | some p =>
        obtain ⟨written, server⟩ := p
        rw [hanswer] at hs
        obtain rfl := Option.some.inj hs
        obtain ⟨r, hhandle, hgives⟩ := Request.recv_of_answer hanswer
        have hreturned := h.fits.returned h.executed hreq hhandle
        obtain ⟨hlt, -⟩ := List.getElem?_eq_some_iff.mp hreq
        have hlen : (rs ++ [r]).length = rs.length + 1 := List.length_append
        refine ⟨r, h.carried, h.fits, h.counted, h.last, by omega, by omega, by rw [hlen]; exact hlt,
          h.received, ?_, ?_, h.held, ?_⟩
        · rw [hlen, List.take_add_one, hreq]
          exact replay_concat h.executed hhandle
        · have hresults := h.results
          rw [List.take_length] at hresults
          rw [List.take_left]
          exact hresults
        · by_cases hc : c.cut = true
          · exact .quiet _ _ rfl (by simpa [hc] using hdown) fun hf =>
              absurd (hc.symm.trans hf) (by decide)
          · have hc : c.cut = false := by simpa using hc
            have hwritten : (if c.cut = true then c.down else c.down ++ written) = written := by
              rw [if_neg (by rw [hc]; decide), hdown, List.nil_append]
            exact .executed rs req r written (h.pending_eq hc hreq) (h.held hc) rfl
              (hgives hreturned) (by simp only [hwritten, List.prefix_rfl]) fun _ => hwritten
    · rw [hread] at hs
      cases hs

/-- The stub is told that nothing will come. -/
theorem Progress.broken (h : Progress P iface s₀ c rs k) (hc : c.cut = true)
    (hp : c.pending = some req) :
    Progress P iface s₀
      { c with pending := none, down := [], results := c.results ++ [.error .transport] } rs k := by
  have hsub : c.results.length + 1 - k = c.results.length - k + 1 := by
    have := h.received
    omega
  refine ⟨h.carried, h.fits, ?_, fun r hr => (by cases hr), h.answered_le, h.executed_le, h.called,
    ?_, h.executed, ?_, fun hf => (by rw [hc] at hf; cases hf), ?_⟩
  · have hcounted := h.counted
    rw [hp] at hcounted
    simpa using hcounted
  · rw [List.length_append]
    exact Nat.le_trans h.received (Nat.le_add_right ..)
  · dsimp only
    rw [List.length_append, List.length_singleton, hsub, List.replicate_succ', ← List.append_assoc,
      ← h.results]
  · have hno : c.cut ≠ false := by simp [hc]
    cases h.flight with
    | quiet rs k hup => exact .quiet rs k hup rfl fun hf => absurd hf hno
    | sent rs r hr hup => exact .sent rs r hr hup rfl fun hf => absurd hf hno
    | executed rs req r written hpending hk hup =>
      exact .quiet _ _ hup rfl fun hf => absurd hf hno

theorem Progress.receive (h : Progress P iface s₀ c rs k) (hp : c.pending = some req)
    (hs : c.receive P req = some c') : ∃ k', Progress P iface s₀ c' rs k' := by
  have short : (req.recv P).read c.down = .error .transport →
      Progress P iface s₀ c' rs k := by
    intro hread
    unfold Connection.receive at hs
    rw [hread] at hs
    dsimp only at hs
    split at hs
    · rename_i hc
      obtain rfl := Option.some.inj hs
      exact h.broken hc hp
    · cases hs
  cases h.flight with
  | quiet _ _ hup hdown => exact ⟨_, short (by rw [hdown, req.recv_nil P])⟩
  | sent _ r hr hup hdown => exact ⟨_, short (by rw [hdown, req.recv_nil P])⟩
  | executed rs req' r written hpending hk hup hgives hdown hcut =>
    obtain rfl := Option.some.inj (hp.symm.trans hpending)
    rcases hgives.read_part hdown with ⟨-, hread⟩ | ⟨-, hread⟩
    · unfold Connection.receive at hs
      rw [hread] at hs
      obtain rfl := Option.some.inj hs
      have hall : (rs ++ [r]).length = rs.length + 1 := List.length_append
      have hlen : (c.results ++ [answered r]).length = rs.length + 1 := by
        rw [List.length_append, hk]
        rfl
      refine ⟨rs.length + 1, h.carried, h.fits, ?_, fun r hr => (by cases hr), by omega, by omega,
        h.called, Nat.le_of_eq hlen.symm, h.executed, ?_, fun _ => hlen,
        .quiet _ _ hup rfl fun _ => ⟨rfl, hall⟩⟩
      · have hcounted := h.counted
        rw [hp] at hcounted
        simpa using hcounted
      · have hresults := h.results
        rw [hk, Nat.sub_self, List.replicate_zero, List.append_nil, List.take_left] at hresults
        dsimp only
        rw [hlen, Nat.sub_self, List.replicate_zero, List.append_nil, ← hall, List.take_length,
          List.map_append, ← hresults]
        rfl
    · exact ⟨rs.length, short hread⟩

theorem Progress.cuts (h : Progress P iface s₀ c rs k) (i j : Nat) :
    Progress P iface s₀ { c with up := c.up.take i, down := c.down.take j, cut := true } rs k := by
  refine ⟨h.carried, h.fits, h.counted, h.last, h.answered_le, h.executed_le, h.called, h.received,
    h.executed, h.results, fun hf => (by cases hf), ?_⟩
  cases h.flight with
  | quiet rs k hup hdown =>
    exact .quiet rs k (by simp [hup]) (by simp [hdown]) fun hf => by cases hf
  | sent rs r hr hup hdown =>
    exact .sent rs r hr ((List.take_prefix i c.up).trans hup) (by simp [hdown])
      fun hf => by cases hf
  | executed rs req r written hpending hk hup hgives hdown =>
    exact .executed rs req r written hpending hk (by simp [hup]) hgives
      ((List.take_prefix j c.down).trans hdown) fun hf => by cases hf

/-- The calls made and those still to come. -/
theorem calls_step {e : ConnectionEvent} (hs : c.step D iface e = some c')
    (es : List ConnectionEvent) : c'.calls ++ requests es = c.calls ++ requests (e :: es) := by
  cases e with
  | call req =>
    simp only [Connection.step] at hs
    split at hs
    · obtain rfl := Option.some.inj hs
      exact List.append_assoc ..
    · cases hs
  | serve =>
    simp only [Connection.step, Connection.serve] at hs
    split at hs
    · obtain rfl := Option.some.inj hs
      rfl
    · cases hs
  | receive =>
    obtain ⟨req, -, hs⟩ := Option.bind_eq_some_iff.mp hs
    unfold Connection.receive at hs
    split at hs
    · obtain rfl := Option.some.inj hs
      rfl
    · split at hs
      · obtain rfl := Option.some.inj hs
        rfl
      · cases hs
  | cut i j =>
    obtain rfl := Option.some.inj hs
    rfl

theorem Progress.step (h : Progress P iface s₀ c rs k) {e : ConnectionEvent}
    (hs : c.step D iface e = some c') (hfits : Fitting iface s₀ c'.calls) :
    ∃ rs' k', Progress P iface s₀ c' rs' k' := by
  cases e with
  | call req =>
    simp only [Connection.step] at hs
    split at hs
    · rename_i hg
      obtain rfl := Option.some.inj hs
      exact ⟨rs, k, h.call hg.1 hg.2 hfits⟩
    · cases hs
  | serve =>
    obtain ⟨r, h'⟩ := h.serve hs
    exact ⟨_, k, h'⟩
  | receive =>
    obtain ⟨req, hp, hs⟩ := Option.bind_eq_some_iff.mp hs
    obtain ⟨k', h'⟩ := h.receive hp hs
    exact ⟨rs, k', h'⟩
  | cut i j =>
    obtain rfl := Option.some.inj hs
    exact ⟨rs, k, h.cuts i j⟩

theorem progress_along (D : TDispatchProcessor P) {es : List ConnectionEvent}
    (h : Progress P iface s₀ c rs k) (hfits : Fitting iface s₀ (c.calls ++ requests es)) :
    Along (step D iface) (fun c => ∃ rs k, Progress P iface s₀ c rs k) c es := by
  induction es generalizing c rs k with
  | nil => exact ⟨rs, k, h⟩
  | cons e es ih =>
    refine ⟨⟨rs, k, h⟩, fun c' hs => ?_⟩
    rw [← calls_step hs es] at hfits
    obtain ⟨rs', k', h'⟩ := h.step hs hfits.of_append
    exact ih h' hfits

/-- Over every connection, wherever it is cut, the handler is executed for a first
part of the calls, each once and in their order. The stub gives back what the
handler did, then throws a TTransportException for every call, and at most one
call was executed without an answer. Every call but the one that the stub waits in has its
result, and without a cut this is what the handler did. -/
theorem calls_direct (D : TDispatchProcessor P) (iface : WorkerHandlerIf σ) (s : σ)
    (es : List ConnectionEvent) (hfits : Fitting iface s (requests es)) :
    Along (step D iface) (fun c => ∃ rs k, k ≤ rs.length ∧ rs.length ≤ k + 1 ∧
      rs.length ≤ c.calls.length ∧
      replay iface s (c.calls.take rs.length) = some (rs, c.server) ∧
      c.results =
        (rs.take k).map answered ++ List.replicate (c.results.length - k) (.error .transport) ∧
      c.calls.length = c.results.length + c.pending.toList.length ∧
      (c.cut = false → c.results.length = k)) (start s) es := by
  refine (progress_along D (progress_start s) hfits).mono fun c h => ?_
  obtain ⟨rs, k, h⟩ := h
  exact ⟨rs, k, h.answered_le, h.executed_le, h.called, h.executed, h.results, h.counted, h.held⟩

/-- A ping is answered, and the connection breaks within the answer to a request
for a log. -/
def breaksInLog : List ConnectionEvent :=
  [.call .ping, .serve, .receive, .call (.getLog ⟨[102], 1, [48]⟩), .serve, .cut 0 9, .receive]

/-- The handlers of `quietHost`. -/
def quiet : WorkerHandlerIf Nat := Server.workerHandlerHandler fun _ => quietHost

theorem fitting_breaksInLog : Fitting quiet 0 (requests breaksInLog) := by
  intro r hr
  obtain rfl := Option.some.inj hr
  refine ⟨trivial, fun r hr => ?_⟩
  obtain rfl := Option.some.inj hr
  exact ⟨(by decide : Fits _), trivial⟩

theorem calls_direct_breaks :
    Along (step (dispatchProcessor binary) quiet) (fun c => ∃ rs k, k ≤ rs.length ∧
      rs.length ≤ k + 1 ∧ rs.length ≤ c.calls.length ∧
      replay quiet 0 (c.calls.take rs.length) = some (rs, c.server) ∧
      c.results =
        (rs.take k).map answered ++ List.replicate (c.results.length - k) (.error .transport) ∧
      c.calls.length = c.results.length + c.pending.toList.length ∧
      (c.cut = false → c.results.length = k)) (start 0) breaksInLog :=
  calls_direct (dispatchProcessor binary) quiet 0 breaksInLog fitting_breaksInLog

theorem receive_cut (hc : c.cut = true) (req : Request) : (c.receive P req).isSome := by
  unfold receive
  split
  · rfl
  · rw [if_pos hc]
    rfl

/-- What has come whole is received. -/
theorem receive_whole {r : Except Exn Value} (h : Gives (req.recv P) c.down r) :
    (c.receive P req).isSome := by
  have hread := h.read_ok []
  rw [List.append_nil] at hread
  unfold receive
  rw [hread]
  rfl

/-- No call is left pending for ever whose handler returns: what it waits for is there, or the
server can execute it, and then it is. -/
theorem calls_end (D : TDispatchProcessor P) (iface : WorkerHandlerIf σ) (s : σ)
    (es : List ConnectionEvent) (hfits : Fitting iface s (requests es)) :
    Along (step D iface) (fun c => ∀ req ∈ c.pending, (c.step D iface .receive).isSome ∨
      c.cut = false ∧ (req.handle iface c.server = none ∨
        ∃ c', c.step D iface .serve = some c' ∧ (c'.step D iface .receive).isSome))
      (start s) es := by
  refine (progress_along D (progress_start s) hfits).mono fun c h req hp => ?_
  obtain ⟨rs, k, h⟩ := h
  have hreceive : ∀ c' : Connection σ, c'.pending = some req →
      c'.step D iface .receive = c'.receive P req := fun c' hp' => by
    rw [step, hp', Option.bind_some]
  rw [hreceive c hp]
  by_cases hc : c.cut = true
  · exact Or.inl (receive_cut hc req)
  have hc : c.cut = false := by simpa using hc
  cases h.flight with
  | quiet _ _ _ _ hcut => rw [(hcut hc).1] at hp; cases hp
  | executed rs req' r written hpending hk hup hgives hdown hcut =>
    obtain rfl := Option.some.inj (hp.symm.trans hpending)
    exact Or.inl (receive_whole (by rw [hcut hc]; exact hgives))
  | sent rs req' hreq hup hdown hcut =>
    obtain rfl := Option.some.inj (hp.symm.trans (h.pending_eq hc hreq))
    refine Or.inr ⟨hc, ?_⟩
    have hread := (Request.gives_send D iface (h.carried req (List.mem_of_getElem? hreq))
      c.server).read_ok []
    rw [List.append_nil, ← hcut hc] at hread
    cases hanswer : req.answer iface P.toTProtocol c.server with
    | none => exact Or.inl (Request.answer_eq_none.mp hanswer)
    | some p =>
      obtain ⟨written, server⟩ := p
      rw [hanswer] at hread
      obtain ⟨r, hhandle, hgives⟩ := Request.recv_of_answer hanswer
      refine Or.inr ⟨_, by rw [step, serve, hread], ?_⟩
      simp only [step, Option.mem_def.mp hp, Option.bind_some]
      refine receive_whole (r := answered r) ?_
      dsimp only
      rw [hc, if_neg (by decide), hdown, List.nil_append]
      exact hgives (h.fits.returned h.executed hreq hhandle)

/-- A ping is answered, and then the stub waits for a modification that never comes. -/
def waitsInNotifier : List ConnectionEvent :=
  [.call .ping, .serve, .receive, .call (.startNotifier [102])]

theorem calls_end_waits :
    Along (step (dispatchProcessor binary) quiet) (fun c => ∀ req ∈ c.pending,
      (c.step (dispatchProcessor binary) quiet .receive).isSome ∨
      c.cut = false ∧ (req.handle quiet c.server = none ∨
        ∃ c', c.step (dispatchProcessor binary) quiet .serve = some c' ∧
          (c'.step (dispatchProcessor binary) quiet .receive).isSome)) (start 0) waitsInNotifier :=
  calls_end (dispatchProcessor binary) quiet 0 waitsInNotifier fun r hr => by
    obtain rfl := Option.some.inj hr
    exact ⟨trivial, fun r hr => by cases hr⟩

end Invariant

end Connection

end Errifier.Rpc
