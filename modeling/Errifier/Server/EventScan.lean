import Errifier.Machine.Run
import Errifier.Server.StartNotifier

/-!
# The scan of what was read

A read fills the buffer with whole records. The index of the inner loop is then
always the size of the records before it, so each header it looks at is a true
one and lies inside the bytes read. What the buffer held before is never looked at.
-/
namespace Errifier.Server

set_option autoImplicit false

open Errifier.Machine

/-- The bytes of the records, one after the other. -/
def image (es : List InotifyEvent) : List UInt8 := es.flatMap InotifyEvent.bytes

def InotifyEvent.modifies (e : InotifyEvent) : Bool := e.mask.toNat &&& IN_MODIFY ≠ 0

/-- What `read` returns: -1, 0, or whole records that fit the buffer. -/
inductive ReadResult where
  | failed
  | empty
  | events (es : List InotifyEvent) (nonempty : es ≠ []) (fits : (image es).length ≤ BUF_LEN)

def ReadResult.sys : ReadResult → SysResult
  | .failed => .failed
  | .empty => .got []
  | .events es _ _ => .got (image es)

/-- The records read. -/
def ReadResult.records : ReadResult → List InotifyEvent
  | .events es _ _ => es
  | _ => []

def ReadResult.length : ReadResult → Int
  | .failed => -1
  | r => (image r.records).length

def ReadResult.modifies (r : ReadResult) : Bool := r.records.any InotifyEvent.modifies

theorem image_append (es fs : List InotifyEvent) : image (es ++ fs) = image es ++ image fs :=
  List.flatMap_append

theorem image_cons (e : InotifyEvent) (es : List InotifyEvent) :
    image (e :: es) = e.bytes ++ image es := List.flatMap_cons

theorem length_image_cons (e : InotifyEvent) (es : List InotifyEvent) :
    (image (e :: es)).length = EVENT_SIZE + e.name.length + (image es).length := by
  rw [image_cons, List.length_append, length_bytes]

theorem lenAt_bytes {e : InotifyEvent} (h : e.name.length < UInt32.size) (after : Buffer) :
    lenAt (e.bytes ++ after) 0 = e.name.length := by
  have hlen := le32_append_right
    (bytes32 e.wd.toNat ++ bytes32 e.mask.toNat ++ bytes32 e.cookie.toNat)
    (bytes32 e.name.length ++ (e.name ++ after)) 0
  simp only [List.length_append, length_bytes32] at hlen
  rw [le32_bytes32 h] at hlen
  rw [lenAt, InotifyEvent.bytes]
  simp only [List.append_assoc] at hlen ⊢
  exact hlen

theorem maskAt_append (before after : Buffer) :
    maskAt (before ++ after) before.length = maskAt after 0 :=
  le32_append_right before after (0 + 4)

theorem lenAt_append (before after : Buffer) :
    lenAt (before ++ after) before.length = lenAt after 0 :=
  le32_append_right before after (0 + 12)

theorem buf_len_eq : BUF_LEN = 32768 := rfl

theorem size_eq : UInt32.size = 4294967296 := rfl

/-- The index of the inner loop stands at the start of the records `rest`, and
those before it have been passed. -/
structure AtRecord (es : List InotifyEvent) (buffer : Buffer) (length i : Int)
    (before rest : List InotifyEvent) : Prop where
  split : es = before ++ rest
  length_eq : length = (image es).length
  index : i = (image before).length
  passed : ∀ e ∈ before, e.modifies = false
  filled : ∃ after, buffer = image es ++ after
  fits : (image es).length ≤ BUF_LEN

section AtRecord
variable {es before rest : List InotifyEvent} {e : InotifyEvent} {buffer : Buffer} {length i : Int}

theorem AtRecord.in_bounds (h : AtRecord es buffer length i before (e :: rest)) :
    0 ≤ i ∧ i + EVENT_SIZE + e.name.length + (image rest).length = length ∧ length ≤ BUF_LEN := by
  have hlen := congrArg List.length (congrArg image h.split)
  rw [image_append, List.length_append, length_image_cons] at hlen
  have h1 := h.index
  have h2 := h.length_eq
  have h3 := h.fits
  omega

theorem AtRecord.buffer_eq (h : AtRecord es buffer length i before (e :: rest)) :
    ∃ after, buffer = image before ++ (e.bytes ++ after) := by
  obtain ⟨after, hb⟩ := h.filled
  refine ⟨image rest ++ after, ?_⟩
  rw [hb, h.split, image_append, image_cons]
  simp only [List.append_assoc]

theorem AtRecord.mask (h : AtRecord es buffer length i before (e :: rest)) :
    maskAt buffer i.toNat = e.mask.toNat := by
  obtain ⟨after, hb⟩ := h.buffer_eq
  rw [hb, h.index, Int.toNat_natCast, maskAt_append, maskAt_bytes]

theorem AtRecord.name_length (h : AtRecord es buffer length i before (e :: rest)) :
    lenAt buffer i.toNat = e.name.length := by
  obtain ⟨after, hb⟩ := h.buffer_eq
  have hlt : e.name.length < UInt32.size := by
    have hin := h.in_bounds
    rw [buf_len_eq] at hin
    rw [size_eq]
    omega
  rw [hb, h.index, Int.toNat_natCast, lenAt_append, lenAt_bytes hlt]

/-- The sum is computed without overflow. -/
theorem AtRecord.nextEvent_eq (h : AtRecord es buffer length i before (e :: rest)) :
    nextEvent buffer i = i + EVENT_SIZE + e.name.length := by
  have hin := h.in_bounds
  rw [buf_len_eq] at hin
  rw [nextEvent, h.name_length, size_eq, Int.bmod_eq_of_le]
  · omega
  · omega
  · omega

theorem AtRecord.next (h : AtRecord es buffer length i before (e :: rest))
    (he : e.modifies = false) :
    AtRecord es buffer length (nextEvent buffer i) (before ++ [e]) rest where
  split := by rw [h.split, List.append_assoc, List.singleton_append]
  length_eq := h.length_eq
  index := by
    rw [h.nextEvent_eq, image_append, List.length_append, length_image_cons, h.index]
    simp only [image, List.flatMap_nil, List.length_nil]
    omega
  passed := by
    intro e' he'
    rcases List.mem_append.mp he' with he' | he'
    · exact h.passed e' he'
    · rw [List.mem_singleton.mp he']
      exact he
  filled := h.filled
  fits := h.fits

theorem AtRecord.hits_iff (h : AtRecord es buffer length i before (e :: rest)) :
    Hits buffer length i ↔ e.modifies = true := by
  have hin := h.in_bounds
  have hs : (0 : Int) < EVENT_SIZE := by decide
  rw [Hits, h.mask, InotifyEvent.modifies, decide_eq_true_eq]
  constructor
  · intro hh
    exact hh.2.2
  · intro hm
    exact ⟨by omega, by omega, hm⟩

/-- Past the last record the loop test fails. -/
theorem AtRecord.done (h : AtRecord es buffer length i before []) :
    i = length ∧ ∀ e ∈ es, e.modifies = false := by
  have hs := h.split
  rw [List.append_nil] at hs
  constructor
  · rw [h.index, h.length_eq, hs]
  · rw [hs]
    exact h.passed

theorem scan_nonpos (fd : Int) (h : length ≤ 0) : scan fd buffer length i = .read fd buffer :=
  if_neg fun hl => by omega

theorem scan_nil (fd : Int) (h : AtRecord es buffer length i before []) :
    scan fd buffer length i = .read fd buffer := by
  obtain ⟨hi, -⟩ := h.done
  exact if_neg fun hl => by omega

theorem scan_cons (fd : Int) (h : AtRecord es buffer length i before (e :: rest)) :
    scan fd buffer length i =
      if e.modifies then .returned 1 else .scan fd buffer length (nextEvent buffer i) := by
  have hin := h.in_bounds
  have hsize : EVENT_SIZE = 16 := rfl
  have hl : 0 < length ∧ i < length := by omega
  rw [scan, if_pos hl]
  by_cases hm : maskAt buffer i.toNat &&& IN_MODIFY ≠ 0
  · rw [if_pos hm, if_pos (h.hits_iff.mp ⟨hl.1, hl.2, hm⟩)]
  · rw [if_neg hm, if_neg fun he => hm (h.hits_iff.mpr he).2.2]

end AtRecord

/-- A call past its `inotify_add_watch`, with what its reads have returned. -/
structure Serving where
  phase : Phase
  reads : List ReadResult

/-- A read, or test and body of the inner loop. -/
inductive ScanEvent where
  | read (r : ReadResult)
  | look

def Serving.step (s : Serving) : ScanEvent → Option Serving
  | .read r => (startNotifier s.phase r.sys).map fun phase => ⟨phase, s.reads ++ [r]⟩
  | .look => (startNotifier s.phase .none).map fun phase => { s with phase }

/-- None of the records read has IN_MODIFY. -/
def Clean (reads : List ReadResult) : Prop := ∀ r ∈ reads, r.modifies = false

/-- The inner loop works on what `r` read. -/
def Scans (r : ReadResult) (buffer : Buffer) (length i : Int) : Prop :=
  length = r.length ∧
    (length ≤ 0 ∧ r.records = [] ∨ ∃ before rest, AtRecord r.records buffer length i before rest)

def Serving.Sound (s : Serving) : Prop :=
  match s.phase with
  | .read _ _ => Clean s.reads
  | .scan _ buffer length i =>
    ∃ earlier r, s.reads = earlier ++ [r] ∧ Clean earlier ∧ Scans r buffer length i
  | .returned v =>
    v = 1 ∧ ∃ earlier r, s.reads = earlier ++ [r] ∧ Clean earlier ∧ r.modifies = true
  | _ => False

theorem modifies_eq_false {r : ReadResult} (h : ∀ e ∈ r.records, e.modifies = false) :
    r.modifies = false := List.any_eq_false.mpr fun e he => by rw [h e he]; decide

theorem clean_append {earlier : List ReadResult} {r : ReadResult} (h : Clean earlier)
    (hr : r.modifies = false) : Clean (earlier ++ [r]) := by
  intro r' hr'
  rcases List.mem_append.mp hr' with hr' | hr'
  · exact h r' hr'
  · rw [List.mem_singleton.mp hr']
    exact hr

/-- The loop that follows a read starts at its first record. -/
theorem scans_of_read {fd : Int} {buffer : Buffer} {r : ReadResult} {p : Phase}
    (h : startNotifier (.read fd buffer) r.sys = some p) :
    ∃ buffer', p = .scan fd buffer' r.length 0 ∧ Scans r buffer' r.length 0 := by
  cases r with
  | failed =>
    obtain rfl := Option.some.inj h
    exact ⟨buffer, rfl, rfl, .inl ⟨by decide, rfl⟩⟩
  | empty =>
    obtain rfl := Option.some.inj h
    exact ⟨buffer, rfl, rfl, .inl ⟨by decide, rfl⟩⟩
  | events es nonempty fits =>
    have hs : startNotifier (.read fd buffer) (.got (image es)) = some p := h
    rw [startNotifier, if_pos fits] at hs
    obtain rfl := Option.some.inj hs
    exact ⟨_, rfl, rfl, .inr ⟨[], es, rfl, rfl, rfl, fun _ he => (by cases he), ⟨_, rfl⟩, fits⟩⟩

/-- Whatever is read fits the buffer. -/
theorem startNotifier_sys (fd : Int) (buffer : Buffer) (r : ReadResult) :
    (startNotifier (.read fd buffer) r.sys).isSome = true := by
  cases r with
  | failed | empty => rfl
  | events es nonempty fits =>
    change (startNotifier (.read fd buffer) (.got (image es))).isSome = true
    rw [startNotifier, if_pos fits]
    rfl

/-- One pass of the inner loop. -/
theorem scans_step {r : ReadResult} (fd : Int) {buffer : Buffer} {length i : Int}
    (h : Scans r buffer length i) :
    (scan fd buffer length i = .returned 1 ∧ r.modifies = true) ∨
      (scan fd buffer length i = .scan fd buffer length (nextEvent buffer i) ∧
        Scans r buffer length (nextEvent buffer i)) ∨
      (scan fd buffer length i = .read fd buffer ∧ r.modifies = false) := by
  obtain ⟨hlen, ⟨hle, hnil⟩ | ⟨before, rest, hat⟩⟩ := h
  · refine .inr (.inr ⟨scan_nonpos fd hle, modifies_eq_false fun e he => ?_⟩)
    rw [hnil] at he
    cases he
  cases rest with
  | nil => exact .inr (.inr ⟨scan_nil fd hat, modifies_eq_false hat.done.2⟩)
  | cons e rest =>
    rw [scan_cons fd hat]
    cases he : e.modifies with
    | true =>
      refine .inl ⟨rfl, List.any_eq_true.mpr ⟨e, ?_, he⟩⟩
      rw [hat.split]
      exact List.mem_append_right _ List.mem_cons_self
    | false => exact .inr (.inl ⟨rfl, hlen, .inr ⟨_, _, hat.next he⟩⟩)

theorem Serving.Sound.step {s s' : Serving} {e : ScanEvent} (h : s.Sound)
    (hs : s.step e = some s') : s'.Sound := by
  obtain ⟨phase, reads⟩ := s
  cases e with
  | read r =>
    obtain ⟨p, hp, rfl⟩ := Option.map_eq_some_iff.mp hs
    cases phase with
    | read fd buffer =>
      obtain ⟨buffer', rfl, hscans⟩ := scans_of_read hp
      exact ⟨reads, r, rfl, h, hscans⟩
    | scan fd buffer length i => cases r <;> cases hp
    | _ => cases h <;> cases hp
  | look =>
    obtain ⟨p, hp, rfl⟩ := Option.map_eq_some_iff.mp hs
    cases phase with
    | scan fd buffer length i =>
      obtain rfl := Option.some.inj hp
      obtain ⟨earlier, r, hreads, hclean, hscans⟩ := h
      obtain rfl : reads = earlier ++ [r] := hreads
      unfold Serving.Sound
      rcases scans_step fd hscans with ⟨he, hm⟩ | ⟨he, hscans'⟩ | ⟨he, hm⟩
      · rw [he]
        exact ⟨rfl, earlier, r, rfl, hclean, hm⟩
      · rw [he]
        exact ⟨earlier, r, rfl, hclean, hscans'⟩
      · rw [he]
        exact clean_append hclean hm
    | _ => cases hp

/-- The index stands at a record of `r` whose header lies inside the bytes read,
and goes on to the next one: no sum overflows. -/
def TrueRecord (r : ReadResult) (buffer : Buffer) (length i : Int) : Prop :=
  ∃ before e rest, r.records = before ++ e :: rest ∧
    i = (image before).length ∧ i + EVENT_SIZE ≤ length ∧
    maskAt buffer i.toNat = e.mask.toNat ∧ lenAt buffer i.toNat = e.name.length ∧
    i + EVENT_SIZE + lenAt buffer i.toNat ≤ BUF_LEN ∧
    nextEvent buffer i = (image (before ++ [e])).length

/-- The inner loop looks at true records of the last read only, and ends exactly
at their end when none of them has IN_MODIFY. -/
def Serving.LooksAtRecords (s : Serving) : Prop :=
  ∀ fd buffer length i, s.phase = .scan fd buffer length i →
    ∃ earlier r, s.reads = earlier ++ [r] ∧ length = r.length ∧
      (0 < length ∧ i < length → TrueRecord r buffer length i) ∧
      (0 < length ∧ ¬ i < length → i = length ∧ r.modifies = false)

/-- The call returns 1, at the first read with an IN_MODIFY record and not
before. -/
def Serving.ReturnsAtFirst (s : Serving) : Prop :=
  match s.phase with
  | .returned v =>
    v = 1 ∧ ∃ earlier r, s.reads = earlier ++ [r] ∧ Clean earlier ∧ r.modifies = true
  | .scan _ _ _ _ => ∃ earlier r, s.reads = earlier ++ [r] ∧ Clean earlier
  | _ => Clean s.reads

/-- A call that reads takes whatever the read returns, and scans it from the start. -/
def Serving.TakesReads (s : Serving) : Prop :=
  ∀ fd buffer, s.phase = .read fd buffer → ∀ r : ReadResult, ∃ buffer',
    s.step (.read r) = some ⟨.scan fd buffer' r.length 0, s.reads ++ [r]⟩

/-- The inner loop ends, and then the call has returned or reads again. -/
def Serving.Finishes (s : Serving) : Prop :=
  ∀ fd buffer length i, s.phase = .scan fd buffer length i →
    ∀ earlier r, s.reads = earlier ++ [r] →
      ∃ k, run Serving.step s (List.replicate k .look) =
        some ⟨if r.modifies then .returned 1 else .read fd buffer, s.reads⟩

theorem trueRecord_of_at {r : ReadResult} {buffer : Buffer} {length i : Int}
    {before rest : List InotifyEvent} {e : InotifyEvent}
    (h : AtRecord r.records buffer length i before (e :: rest)) : TrueRecord r buffer length i := by
  have hin := h.in_bounds
  refine ⟨before, e, rest, h.split, h.index, by omega, h.mask, h.name_length, ?_, ?_⟩
  · rw [h.name_length]
    omega
  · rw [h.nextEvent_eq, image_append, List.length_append, length_image_cons, h.index]
    simp only [image, List.flatMap_nil, List.length_nil]
    omega

theorem looksAtRecords_of_sound {s : Serving} (h : s.Sound) : s.LooksAtRecords := by
  intro fd buffer length i hphase
  rw [Serving.Sound, hphase] at h
  obtain ⟨earlier, r, hreads, -, hlen, ⟨hle, -⟩ | ⟨before, rest, hat⟩⟩ := h
  · exact ⟨earlier, r, hreads, hlen, fun hl => by omega, fun hl => by omega⟩
  refine ⟨earlier, r, hreads, hlen, fun hl => ?_, fun hl => ?_⟩
  · cases rest with
    | nil =>
      have hi := hat.done.1
      omega
    | cons e rest => exact trueRecord_of_at hat
  · cases rest with
    | nil => exact ⟨hat.done.1, modifies_eq_false hat.done.2⟩
    | cons e rest =>
      have hin := hat.in_bounds
      have hsize : EVENT_SIZE = 16 := rfl
      omega

theorem returnsAtFirst_of_sound {s : Serving} (h : s.Sound) : s.ReturnsAtFirst := by
  obtain ⟨phase, reads⟩ := s
  cases phase with
  | scan fd buffer length i =>
    obtain ⟨earlier, r, hreads, hclean, -⟩ := h
    exact ⟨earlier, r, hreads, hclean⟩
  | read | returned => exact h
  | init | addWatch => cases h

theorem run_look {s s' : Serving} {k : Nat} {t : Option Serving} (hs : s.step .look = some s')
    (h : run Serving.step s' (List.replicate k .look) = t) :
    run Serving.step s (List.replicate (k + 1) .look) = t := by
  rw [List.replicate_succ, run, hs]
  exact h

/-- The records that are left are passed one by one. -/
theorem run_looks {es before rest : List InotifyEvent} {fd : Int} {buffer : Buffer}
    {length i : Int} (h : AtRecord es buffer length i before rest) (reads : List ReadResult) :
    ∃ k, run Serving.step ⟨.scan fd buffer length i, reads⟩ (List.replicate k .look) =
      some ⟨if es.any InotifyEvent.modifies then .returned 1 else .read fd buffer, reads⟩ := by
  induction rest generalizing before i with
  | nil =>
    refine ⟨1, run_look (k := 0) (congrArg some (congrArg (Serving.mk · reads) (scan_nil fd h))) ?_⟩
    rw [List.any_eq_false.mpr fun e he => by rw [h.done.2 e he]; decide]
    rfl
  | cons e rest ih =>
    have hstep : Serving.step ⟨.scan fd buffer length i, reads⟩ .look = some ⟨_, reads⟩ :=
      congrArg some (congrArg (Serving.mk · reads) (scan_cons fd h))
    cases he : e.modifies with
    | true =>
      rw [he] at hstep
      have hany : es.any InotifyEvent.modifies = true := by
        rw [h.split, List.any_append, List.any_cons, he]
        simp
      refine ⟨1, run_look hstep ?_⟩
      rw [hany]
      rfl
    | false =>
      rw [he] at hstep
      obtain ⟨k, hk⟩ := ih (h.next he)
      exact ⟨k + 1, run_look hstep hk⟩

theorem finishes_of_sound {s : Serving} (h : s.Sound) : s.Finishes := by
  obtain ⟨phase, reads⟩ := s
  intro fd buffer length i hphase earlier r hreads
  obtain rfl : phase = .scan fd buffer length i := hphase
  obtain ⟨earlier', r', hreads', -, hlen, hscan⟩ := h
  obtain ⟨-, hr⟩ := List.append_inj' (hreads'.symm.trans hreads) rfl
  obtain rfl : r' = r := List.singleton_inj.mp hr
  rcases hscan with ⟨hle, hnil⟩ | ⟨before, rest, hat⟩
  · refine ⟨1, run_look (k := 0) (congrArg some (congrArg (Serving.mk · reads) (scan_nonpos fd hle))) ?_⟩
    rw [ReadResult.modifies, hnil]
    rfl
  · exact run_looks hat reads

theorem takesReads (s : Serving) : s.TakesReads := by
  obtain ⟨phase, reads⟩ := s
  intro fd buffer hphase r
  obtain rfl : phase = .read fd buffer := hphase
  obtain ⟨p, hp⟩ := Option.isSome_iff_exists.mp (startNotifier_sys fd buffer r)
  obtain ⟨buffer', rfl, -⟩ := scans_of_read hp
  exact ⟨buffer', congrArg (Option.map _) hp⟩

theorem Serving.Sound.reads_again {s : Serving} {fd : Int} {buffer : Buffer} (h : s.Sound)
    (hs : s.phase = .read fd buffer) (r : ReadResult) :
    ∃ es buffer', run Serving.step s es =
      some ⟨if r.modifies then .returned 1 else .read fd buffer', s.reads ++ [r]⟩ := by
  obtain ⟨buffer', hstep⟩ := takesReads s fd buffer hs r
  obtain ⟨k, hk⟩ := finishes_of_sound (h.step hstep) fd buffer' r.length 0 rfl s.reads r rfl
  exact ⟨.read r :: List.replicate k .look, buffer', by rw [run, hstep]; exact hk⟩

/-- The reads of a call that goes on to `r`: every buffer before it is passed whole, and the
call returns in `r` just when it has an IN_MODIFY record. -/
def Serving.ServesReads (s : Serving) (fd : Int) : Prop :=
  ∀ earlier r, Clean earlier → ∃ es buffer', run Serving.step s es =
    some ⟨if r.modifies then .returned 1 else .read fd buffer', s.reads ++ earlier ++ [r]⟩

theorem Serving.Sound.servesReads {s : Serving} {fd : Int} {buffer : Buffer} (h : s.Sound)
    (hs : s.phase = .read fd buffer) : s.ServesReads fd := by
  intro earlier
  induction earlier generalizing s buffer with
  | nil =>
    intro r _
    rw [List.append_nil]
    exact h.reads_again hs r
  | cons r' earlier ih =>
    intro r hclean
    obtain ⟨es, buffer', hes⟩ := h.reads_again hs r'
    rw [hclean r' List.mem_cons_self] at hes
    have hsound := (along (fun _ _ _ h hs => Serving.Sound.step h hs) h es).last hes
    obtain ⟨fs, buffer'', hfs⟩ :=
      ih hsound rfl r fun q hq => hclean q (List.mem_cons_of_mem _ hq)
    have hreads : s.reads ++ [r'] ++ earlier ++ [r] = s.reads ++ (r' :: earlier) ++ [r] := by
      simp only [List.append_assoc, List.cons_append, List.nil_append]
    exact ⟨es ++ fs, buffer'', (run_append hes hfs).trans (by rw [← hreads])⟩

/-- Over any reads of whole records the scan looks at true records only, and the
call returns 1 in the first buffer that has an IN_MODIFY record and not before. Every
sequence of reads up to that one is served. -/
theorem scan_true_records (fd : Int) (buffer : Buffer) :
    (∀ es, Along Serving.step
      (fun s => s.LooksAtRecords ∧ s.ReturnsAtFirst ∧ s.TakesReads ∧ s.Finishes)
      ⟨.read fd buffer, []⟩ es) ∧
    Serving.ServesReads ⟨.read fd buffer, []⟩ fd := by
  have hstart : Serving.Sound ⟨.read fd buffer, []⟩ := fun _ hr => by cases hr
  refine ⟨fun es => (along (fun _ _ _ h hs => h.step hs) hstart es).mono fun s h => ?_,
    hstart.servesReads rfl⟩
  exact ⟨looksAtRecords_of_sound h, returnsAtFirst_of_sound h, takesReads s, finishes_of_sound h⟩

end Errifier.Server
