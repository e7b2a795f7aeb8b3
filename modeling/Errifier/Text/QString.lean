import Mathlib.Data.List.TakeWhile

/-!
# Qt strings and their byte conversions

A `QString` is its Unicode text, one `Char` for each code point. The two
conversions that the client mixes are `toUtf8` and Qt 4's `toStdString`, which
without a codec is Latin-1 with `?` for every UTF-16 unit outside it.
`strcmp` reads its arguments up to the first NUL. `converts_iff` says on exactly
which texts the two conversions look alike to `strcmp`.
-/
namespace Errifier.Text

set_option autoImplicit false

abbrev QString := List Char

/-- The bytes of a `std::string`. -/
abbrev StdString := List UInt8

def toUtf8 (s : QString) : StdString := s.flatMap String.utf8EncodeChar

/-- One code point under `QString::toAscii`. A code point above U+FFFF is two
UTF-16 units, so it becomes two question marks. -/
def latin1 (c : Char) : StdString :=
  if c.toNat < 0x100 then [UInt8.ofNat c.toNat]
  else if c.toNat < 0x10000 then [63]
  else [63, 63]

def toStdString (s : QString) : StdString := s.flatMap latin1

/-- What a C function sees of a buffer: the bytes before the first NUL. -/
def cString (b : StdString) : StdString := b.takeWhile (· != 0)

/-- `strcmp(a, b) == 0` -/
def strcmpEq (a b : StdString) : Bool := cString a == cString b

def isAscii (c : Char) : Bool := c.toNat < 0x80

/-- The two conversions of the text are the same C string. -/
def Converts (s : QString) : Prop := cString (toUtf8 s) = cString (toStdString s)

instance (s : QString) : Decidable (Converts s) :=
  inferInstanceAs (Decidable (cString (toUtf8 s) = cString (toStdString s)))

theorem cString_of_not_mem {b : StdString} (h : 0 ∉ b) : cString b = b := by
  refine List.takeWhile_eq_self_iff.mpr fun c hc => bne_iff_ne.mpr fun he => ?_
  rw [he] at hc
  exact h hc

theorem zero_not_mem_cString (b : StdString) : 0 ∉ cString b := by
  intro h
  have hne : ((0 : UInt8) != 0) = true := List.mem_takeWhile_imp (p := (· != 0)) h
  exact bne_iff_ne.mp hne rfl

theorem length_cString_le (b : StdString) : (cString b).length ≤ b.length :=
  (List.takeWhile_sublist _).length_le

theorem toUtf8_cons (c : Char) (s : QString) :
    toUtf8 (c :: s) = String.utf8EncodeChar c ++ toUtf8 s := List.flatMap_cons ..

theorem toStdString_cons (c : Char) (s : QString) :
    toStdString (c :: s) = latin1 c ++ toStdString s := List.flatMap_cons ..

theorem utf8_of_ascii {c : Char} (h : isAscii c = true) :
    String.utf8EncodeChar c = [UInt8.ofNat c.toNat] := by
  have hc : c.toNat ≤ 0x7f := by simp only [isAscii, decide_eq_true_eq] at h; omega
  exact if_pos hc

theorem latin1_of_ascii {c : Char} (h : isAscii c = true) : latin1 c = [UInt8.ofNat c.toNat] := by
  have hc : c.toNat < 0x100 := by simp only [isAscii, decide_eq_true_eq] at h; omega
  exact if_pos hc

/-- On ASCII text the two conversions are equal byte for byte. -/
theorem toUtf8_eq_of_ascii {s : QString} (h : s.all isAscii = true) :
    toUtf8 s = toStdString s := by
  induction s with
  | nil => rfl
  | cons c s ih =>
    simp only [List.all_cons, Bool.and_eq_true] at h
    rw [toUtf8_cons, toStdString_cons, utf8_of_ascii h.1, latin1_of_ascii h.1, ih h.2]

/-- Every code point outside ASCII is longer in UTF-8 than in Latin-1. -/
theorem latin1_length_lt {c : Char} (h : isAscii c = false) :
    (latin1 c).length < (String.utf8EncodeChar c).length := by
  have hc : ¬ c.toNat ≤ 0x7f := by simp only [isAscii, decide_eq_false_iff_not] at h; omega
  have hu : (String.utf8EncodeChar c).length =
      if c.toNat ≤ 0x7ff then 2 else if c.toNat ≤ 0xffff then 3 else 4 := by
    change (if c.toNat ≤ 0x7f then _ else if c.toNat ≤ 0x7ff then _ else
      if c.toNat ≤ 0xffff then _ else _ : List UInt8).length = _
    rw [if_neg hc]
    split
    · rfl
    · split <;> rfl
  rw [hu, latin1]
  split
  · split
    · simp
    · split <;> simp
  · split
    · split
      · simp
      · split <;> simp
    · rw [if_neg (by omega), if_neg (by omega)]
      simp

theorem latin1_length_le (c : Char) :
    (latin1 c).length ≤ (String.utf8EncodeChar c).length := by
  cases h : isAscii c with
  | true => exact Nat.le_of_eq (by rw [utf8_of_ascii h, latin1_of_ascii h])
  | false => exact Nat.le_of_lt (latin1_length_lt h)

theorem length_le (s : QString) : (toStdString s).length ≤ (toUtf8 s).length := by
  induction s with
  | nil => exact Nat.le_refl _
  | cons c s ih =>
    rw [toUtf8_cons, toStdString_cons, List.length_append, List.length_append]
    exact Nat.add_le_add (latin1_length_le c) ih

theorem ascii_of_length_eq {s : QString} (h : (toStdString s).length = (toUtf8 s).length) :
    s.all isAscii = true := by
  induction s with
  | nil => rfl
  | cons c s ih =>
    rw [toUtf8_cons, toStdString_cons, List.length_append, List.length_append] at h
    have hs := length_le s
    cases hc : isAscii c with
    | true =>
      have hl := latin1_length_le c
      simp only [List.all_cons, hc, Bool.true_and]
      exact ih (by omega)
    | false =>
      have hl := latin1_length_lt hc
      omega

private theorem ofNat_ne_zero {n : Nat} (h0 : 0 < n) (h : n < 256) : UInt8.ofNat n ≠ 0 := by
  intro he
  have hn := congrArg UInt8.toNat he
  rw [UInt8.toNat_ofNat_of_lt' h] at hn
  change n = 0 at hn
  omega

/-- Only NUL has a zero byte in its UTF-8 form. -/
theorem utf8_ne_zero {c : Char} (h : c.toNat ≠ 0) : ∀ b ∈ String.utf8EncodeChar c, b ≠ 0 := by
  have hv : c.toNat = c.val.toNat := rfl
  intro b hb
  change b ∈ (if c.val.toNat ≤ 0x7f then _ else _ : List UInt8) at hb
  split at hb
  · obtain rfl := List.mem_singleton.mp hb
    exact ofNat_ne_zero (by omega) (by omega)
  · split at hb
    · simp only [List.mem_cons, List.not_mem_nil, or_false] at hb
      rcases hb with rfl | rfl
      all_goals exact ofNat_ne_zero (by omega) (by omega)
    · split at hb
      · simp only [List.mem_cons, List.not_mem_nil, or_false] at hb
        rcases hb with rfl | rfl | rfl
        all_goals exact ofNat_ne_zero (by omega) (by omega)
      · simp only [List.mem_cons, List.not_mem_nil, or_false] at hb
        rcases hb with rfl | rfl | rfl | rfl
        all_goals exact ofNat_ne_zero (by omega) (by omega)

theorem latin1_ne_zero {c : Char} (h : c.toNat ≠ 0) : ∀ b ∈ latin1 c, b ≠ 0 := by
  intro b hb
  unfold latin1 at hb
  split at hb
  · obtain rfl := List.mem_singleton.mp hb
    exact ofNat_ne_zero (by omega) (by omega)
  · split at hb
    · obtain rfl := List.mem_singleton.mp hb
      decide
    · simp only [List.mem_cons, List.not_mem_nil, or_false, or_self] at hb
      subst hb
      decide

/-- The text before the first NUL character. -/
def beforeNul (s : QString) : QString := s.takeWhile (·.toNat != 0)

/-- A conversion that writes a zero byte for NUL only, and there first, is cut
by C where the text has its first NUL. -/
theorem cString_flatMap (f : Char → StdString) (h0 : ∀ c, c.toNat = 0 → f c = [0])
    (hf : ∀ c, c.toNat ≠ 0 → ∀ b ∈ f c, b ≠ 0) (s : QString) :
    cString (s.flatMap f) = (beforeNul s).flatMap f := by
  induction s with
  | nil => rfl
  | cons c s ih =>
    by_cases hc : c.toNat = 0
    · have hb : beforeNul (c :: s) = [] := by simp [beforeNul, hc]
      rw [List.flatMap_cons, h0 c hc, hb]
      rfl
    · have hb : beforeNul (c :: s) = c :: beforeNul s := by simp [beforeNul, hc]
      rw [List.flatMap_cons, hb, List.flatMap_cons, ← ih]
      exact List.takeWhile_append_of_pos fun b hm => by simpa using hf c hc b hm

theorem cString_toUtf8 (s : QString) : cString (toUtf8 s) = toUtf8 (beforeNul s) := by
  refine cString_flatMap _ (fun c h => ?_) (fun _ => utf8_ne_zero) s
  rw [utf8_of_ascii (by simp [isAscii, h]), h]
  rfl

theorem cString_toStdString (s : QString) :
    cString (toStdString s) = toStdString (beforeNul s) := by
  refine cString_flatMap _ (fun c h => ?_) (fun _ => latin1_ne_zero) s
  rw [latin1_of_ascii (by simp [isAscii, h]), h]
  rfl

/-- The two conversions agree for `strcmp` exactly on the texts that are ASCII
up to their first NUL. -/
theorem converts_iff (s : QString) : Converts s ↔ (beforeNul s).all isAscii = true := by
  unfold Converts
  rw [cString_toUtf8, cString_toStdString]
  constructor
  · intro h
    exact ascii_of_length_eq (congrArg List.length h.symm)
  · exact toUtf8_eq_of_ascii

end Errifier.Text
