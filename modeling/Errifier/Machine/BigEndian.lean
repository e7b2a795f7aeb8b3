import Errifier.Machine.Reader
import Mathlib.Algebra.Group.Nat.Defs

/-!
# Numbers in big-endian order

A number below `256 ^ k` in `k` bytes, the highest first, and its exact reader.
-/
namespace Errifier.Machine

set_option autoImplicit false

/-- The last `k` bytes of a number. -/
def bytesBe : Nat → Nat → List UInt8
  | 0, _ => []
  | k + 1, n => bytesBe k (n / 256) ++ [UInt8.ofNat n]

def natBe (w : List UInt8) : Nat := w.foldl (fun n b => 256 * n + b.toNat) 0

theorem length_bytesBe (k n : Nat) : (bytesBe k n).length = k := by
  induction k generalizing n with
  | zero => rfl
  | succ k ih => rw [bytesBe, List.length_append, ih]; rfl

theorem natBe_bytesBe (k n : Nat) : natBe (bytesBe k n) = n % 256 ^ k := by
  induction k generalizing n with
  | zero => rw [Nat.pow_zero, Nat.mod_one]; rfl
  | succ k ih =>
    have hlast : natBe (bytesBe k (n / 256) ++ [UInt8.ofNat n]) =
        256 * natBe (bytesBe k (n / 256)) + n % 256 := by
      rw [natBe, List.foldl_append]
      rfl
    rw [bytesBe, hlast, ih, Nat.pow_succ, Nat.mul_comm (256 ^ k), Nat.mod_mul]
    omega

namespace Reader
variable {ε : Type} {short : ε}

/-- A number of `k` bytes. -/
def readNat (short : ε) (k : Nat) : Reader UInt8 ε Nat := do
  let w ← take short k
  pure (natBe w)

theorem exact_readNat (short : ε) {k n : Nat} (h : n < 256 ^ k) :
    Exact short (readNat short k) (bytesBe k n) (.ok n) := by
  have hread := (exact_take short (bytesBe k n)).map natBe
  rw [length_bytesBe, natBe_bytesBe, Nat.mod_eq_of_lt h] at hread
  exact hread

theorem readNat_consumes {k : Nat} (hk : 0 < k) : (readNat short k).Consumes :=
  (take_consumes short hk).bind _

end Reader

end Errifier.Machine
