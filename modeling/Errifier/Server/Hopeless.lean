import Errifier.Server.EventScan

/-!
# Waiting for nothing

`startNotifier` looks at none of its results but the events read, and leaves its
loop at an IN_MODIFY event only. A wait in which no such event can come any more
goes on for ever, whatever made it hopeless.
-/
namespace Errifier.Server

set_option autoImplicit false

def IN_IGNORED : Nat := 0x8000

def InotifyEvent.ignored (e : InotifyEvent) : Bool := e.mask.toNat &&& IN_IGNORED ≠ 0

/-- What `inotify_init`, `inotify_add_watch` and the reads of one call return. A read that
has no result blocks for ever. -/
structure Trace where
  fd : Int
  wd : Int
  reads : Nat → Option ReadResult

namespace Trace

/-- Something has failed for good, or the watch is gone, and no IN_MODIFY event
has been read. -/
structure Hopeless (t : Trace) : Prop where
  cause : t.fd < 0 ∨ t.wd < 0 ∨ (∃ n, ∀ m, n ≤ m → t.reads m = some .failed) ∨
    ∃ n r, t.reads n = some r ∧ ∃ e ∈ r.records, e.ignored = true
  unmodified : ∀ n r, t.reads n = some r → r.modifies = false

/-- One step of the call, which has read `n` times. -/
def advance (t : Trace) : Phase × Nat → Phase × Nat
  | (.init buffer, n) => ((startNotifier (.init buffer) (.fd t.fd)).getD (.init buffer), n)
  | (.addWatch fd buffer, n) =>
    ((startNotifier (.addWatch fd buffer) (.wd t.wd)).getD (.addWatch fd buffer), n)
  | (.read fd buffer, n) =>
    match t.reads n with
    | some r => ((startNotifier (.read fd buffer) r.sys).getD (.read fd buffer), n + 1)
    | none => (.read fd buffer, n)
  | (.scan fd buffer length i, n) => (scan fd buffer length i, n)
  | (.returned v, n) => (.returned v, n)

/-- The call after `k` steps; `buffer` is what the stack holds. -/
def after (t : Trace) (buffer : Buffer) : Nat → Phase × Nat
  | 0 => (.init buffer, 0)
  | k + 1 => t.advance (t.after buffer k)

/-- The call leaves its loop. -/
def Leaves (t : Trace) (buffer : Buffer) : Prop := ∃ k v, (t.after buffer k).1 = .returned v

/-- What holds of a call that has read no IN_MODIFY event. -/
def Waits : Phase → Prop
  | .scan _ buffer length i => ∃ r, r.modifies = false ∧ Scans r buffer length i
  | .returned _ => False
  | _ => True

theorem waits_advance {t : Trace} (h : ∀ n r, t.reads n = some r → r.modifies = false)
    {c : Phase × Nat} (hw : Waits c.1) : Waits (t.advance c).1 := by
  obtain ⟨phase, n⟩ := c
  cases phase with
  | init buffer => trivial
  | addWatch fd buffer => trivial
  | read fd buffer =>
    cases hr : t.reads n with
    | none =>
      simp only [advance, hr]
      trivial
    | some r =>
      cases hp : startNotifier (.read fd buffer) r.sys with
      | none =>
        simp only [advance, hr, hp, Option.getD_none]
        trivial
      | some p =>
        obtain ⟨buffer', rfl, hscans⟩ := scans_of_read hp
        simp only [advance, hr, hp, Option.getD_some]
        exact ⟨r, h n r hr, hscans⟩
  | scan fd buffer length i =>
    obtain ⟨r, hr, hscans⟩ := hw
    change Waits (scan fd buffer length i)
    rcases scans_step fd hscans with ⟨-, hm⟩ | ⟨he, hscans'⟩ | ⟨he, -⟩
    · rw [hr] at hm
      cases hm
    · rw [he]
      exact ⟨r, hr, hscans'⟩
    · rw [he]
      trivial
  | returned v => cases hw

theorem waits_after {t : Trace} (h : ∀ n r, t.reads n = some r → r.modifies = false)
    (buffer : Buffer) (k : Nat) : Waits (t.after buffer k).1 := by
  induction k with
  | zero => trivial
  | succ k ih => exact waits_advance h ih

theorem not_leaves_of_unmodified {t : Trace} (buffer : Buffer)
    (h : ∀ n r, t.reads n = some r → r.modifies = false) : ¬ t.Leaves buffer := by
  rintro ⟨k, v, hk⟩
  have hw := waits_after h buffer k
  rw [hk] at hw
  cases hw

/-- A call whose wait has become hopeless never leaves its loop. -/
theorem hopeless_waits_forever {t : Trace} (buffer : Buffer) (h : t.Hopeless) :
    ¬ t.Leaves buffer :=
  not_leaves_of_unmodified buffer h.unmodified

/-- `inotify_init` failed, and so does everything after it. -/
def noInstance : Trace := ⟨-1, -1, fun _ => some .failed⟩

theorem hopeless_noInstance : noInstance.Hopeless := by
  constructor
  · exact .inl (by decide)
  · intro n r hr
    obtain rfl := Option.some.inj hr
    rfl

theorem no_instance_waits_forever : ¬ noInstance.Leaves [] :=
  hopeless_waits_forever [] hopeless_noInstance

/-- The watched file is deleted: the kernel reports IN_IGNORED, and the next read
blocks. -/
def deleted : Trace where
  fd := 3
  wd := 1
  reads n := if n = 0 then some (.events [⟨1, 0x8000, 0, []⟩] (by decide) (by decide)) else none

theorem deleted_never_reported : deleted.Hopeless ∧ ¬ deleted.Leaves [] := by
  have hun : ∀ n r, deleted.reads n = some r → r.modifies = false := by
    intro n r hr
    unfold deleted at hr
    dsimp only at hr
    split at hr
    · obtain rfl := Option.some.inj hr
      decide
    · cases hr
  refine ⟨⟨.inr (.inr (.inr ⟨0, _, rfl, _, List.mem_singleton_self _, by decide⟩)), hun⟩, ?_⟩
  exact not_leaves_of_unmodified [] hun

end Trace

end Errifier.Server
