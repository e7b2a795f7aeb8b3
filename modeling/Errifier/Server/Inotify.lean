/-!
# inotify events in memory

A read from an inotify descriptor fills the buffer with `struct inotify_event`s
one after the other: `wd`, `mask`, `cookie` and `len`, four little-endian bytes
each, and then `len` bytes of name.
-/
namespace Errifier.Server

set_option autoImplicit false

/-- The bytes of `char buffer[BUF_LEN]`. -/
abbrev Buffer := List UInt8

/-- `sizeof (struct inotify_event)` -/
def EVENT_SIZE : Nat := 16

def BUF_LEN : Nat := 1024 * (EVENT_SIZE + 16)

def IN_MODIFY : Nat := 2

structure InotifyEvent where
  wd : UInt32
  mask : UInt32
  cookie : UInt32
  name : List UInt8

def bytes32 (n : Nat) : List UInt8 :=
  [UInt8.ofNat n, UInt8.ofNat (n / 256), UInt8.ofNat (n / 65536), UInt8.ofNat (n / 16777216)]

/-- The event as the kernel lays it out. -/
def InotifyEvent.bytes (e : InotifyEvent) : List UInt8 :=
  bytes32 e.wd.toNat ++ bytes32 e.mask.toNat ++ bytes32 e.cookie.toNat ++
    bytes32 e.name.length ++ e.name

/-- The number in the four bytes from `i` on. -/
def le32 (buffer : Buffer) (i : Nat) : Nat :=
  (buffer.getD i 0).toNat + 256 * (buffer.getD (i + 1) 0).toNat +
    65536 * (buffer.getD (i + 2) 0).toNat + 16777216 * (buffer.getD (i + 3) 0).toNat

/-- `event->mask` for the event at `&buffer[i]`. -/
def maskAt (buffer : Buffer) (i : Nat) : Nat := le32 buffer (i + 4)

/-- `event->len` -/
def lenAt (buffer : Buffer) (i : Nat) : Nat := le32 buffer (i + 12)

theorem length_bytes32 (n : Nat) : (bytes32 n).length = 4 := rfl

theorem le32_append_right (before after : Buffer) (i : Nat) :
    le32 (before ++ after) (before.length + i) = le32 after i := by
  have hget : ∀ j, (before ++ after).getD (before.length + j) 0 = after.getD j 0 := by
    intro j
    rw [List.getD_eq_getElem?_getD, List.getD_eq_getElem?_getD,
      List.getElem?_append_right (Nat.le_add_right _ _), Nat.add_sub_cancel_left]
  simp only [le32, Nat.add_assoc, hget]

theorem le32_bytes32 {n : Nat} (hn : n < UInt32.size) (after : Buffer) :
    le32 (bytes32 n ++ after) 0 = n := by
  rw [UInt32.size] at hn
  simp only [le32, bytes32, List.cons_append, List.getD_cons_zero, List.getD_cons_succ,
    UInt8.toNat_ofNat', Nat.zero_add]
  omega

/-- The mask of the first event in the buffer. -/
theorem maskAt_bytes (e : InotifyEvent) (after : Buffer) :
    maskAt (e.bytes ++ after) 0 = e.mask.toNat := by
  have h := le32_append_right (bytes32 e.wd.toNat)
    (bytes32 e.mask.toNat ++ (bytes32 e.cookie.toNat ++ (bytes32 e.name.length ++ (e.name ++ after)))) 0
  rw [length_bytes32, le32_bytes32 e.mask.toNat_lt_size] at h
  rw [maskAt, InotifyEvent.bytes]
  simp only [List.append_assoc]
  exact h

theorem length_bytes (e : InotifyEvent) : e.bytes.length = EVENT_SIZE + e.name.length := by
  simp only [InotifyEvent.bytes, List.length_append, length_bytes32, EVENT_SIZE]

end Errifier.Server
