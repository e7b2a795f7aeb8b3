import Mathlib.Data.List.Infix

/-!
# Readers of a stream

A reader takes a value from the front of its input or throws, and what it leaves
is an end of what it was given. `Exact` says of a reader and a text that the
reader takes this text whole, whatever follows it, and that a text cut short
makes it throw `short`. Exact readers compose, so a format written by appending
is read back by binding, and its truncations are all noticed.
-/
namespace Errifier.Machine

set_option autoImplicit false

structure Reader (β ε α : Type) where
  read : List β → Except ε (α × List β)
  leaves : ∀ s a rest, read s = .ok (a, rest) → rest <:+ s

namespace Reader
variable {β ε α γ : Type}

protected def pure (a : α) : Reader β ε α where
  read s := .ok (a, s)
  leaves s b rest h := by
    obtain ⟨-, rfl⟩ := Prod.mk.inj (Except.ok.inj h)
    exact List.suffix_rfl

protected def throw (x : ε) : Reader β ε α where
  read _ := .error x
  leaves _ _ _ h := by cases h

protected def bind (r : Reader β ε α) (f : α → Reader β ε γ) : Reader β ε γ where
  read s :=
    match r.read s with
    | .error x => .error x
    | .ok (a, rest) => (f a).read rest
  leaves s c rest h := by
    split at h
    · cases h
    · rename_i a mid hr
      exact ((f a).leaves mid c rest h).trans (r.leaves s a mid hr)

instance : Monad (Reader β ε) where
  pure := Reader.pure
  bind := Reader.bind

/-- The first `n` tokens, or `short` when there are fewer. -/
def take (short : ε) (n : Nat) : Reader β ε (List β) where
  read s := if n ≤ s.length then .ok (s.take n, s.drop n) else .error short
  leaves s a rest h := by
    split at h
    · obtain ⟨-, rfl⟩ := Prod.mk.inj (Except.ok.inj h)
      exact List.drop_suffix n s
    · cases h

theorem read_bind_ok {r : Reader β ε α} {s rest : List β} {a : α}
    (h : r.read s = .ok (a, rest)) (f : α → Reader β ε γ) :
    (r >>= f).read s = (f a).read rest := by
  change (match r.read s with
    | .error x => .error x
    | .ok (a, rest) => (f a).read rest : Except ε (γ × List β)) = _
  rw [h]

theorem read_bind_error {r : Reader β ε α} {s : List β} {x : ε} (h : r.read s = .error x)
    (f : α → Reader β ε γ) : (r >>= f).read s = .error x := by
  change (match r.read s with
    | .error x => .error x
    | .ok (a, rest) => (f a).read rest : Except ε (γ × List β)) = _
  rw [h]

theorem read_map (r : Reader β ε α) (f : α → γ) (s : List β) :
    (r >>= fun a => pure (f a)).read s = (r.read s).map fun p => (f p.1, p.2) := by
  cases h : r.read s with
  | error x => rw [read_bind_error h]; rfl
  | ok p => rw [read_bind_ok h]; rfl

/-- A success takes at least one token. -/
def Consumes (r : Reader β ε α) : Prop :=
  ∀ s a rest, r.read s = .ok (a, rest) → rest.length < s.length

theorem take_consumes (short : ε) {n : Nat} (hn : 0 < n) :
    (take short n : Reader β ε (List β)).Consumes := by
  intro s a rest h
  simp only [take] at h
  split at h
  · rename_i hle
    obtain ⟨-, rfl⟩ := Prod.mk.inj (Except.ok.inj h)
    rw [List.length_drop]
    omega
  · cases h

theorem Consumes.bind {r : Reader β ε α} (hr : r.Consumes) (f : α → Reader β ε γ) :
    (r >>= f).Consumes := by
  intro s c rest h
  cases hread : r.read s with
  | error x => rw [read_bind_error hread] at h; cases h
  | ok p =>
    obtain ⟨a, mid⟩ := p
    rw [read_bind_ok hread] at h
    exact Nat.lt_of_le_of_lt ((f a).leaves mid c rest h).length_le (hr s a mid hread)

/-- `head` is read again and again; `body` says which reader follows what it
read, and none that this was the last. -/
def loop {η σ : Type} (head : Reader β ε η) (hc : head.Consumes)
    (body : σ → η → Option (Reader β ε σ)) (st : σ) (s : List β) : Except ε (σ × List β) :=
  match _hh : head.read s with
  | .error x => .error x
  | .ok (h, mid) =>
    match body st h with
    | none => .ok (st, mid)
    | some r =>
      match _hr : r.read mid with
      | .error x => .error x
      | .ok (st', rest) => loop head hc body st' rest
termination_by s.length
decreasing_by
  have hmid := hc s h mid _hh
  have hrest := (r.leaves mid st' rest _hr).length_le
  omega

section Loop
variable {η σ : Type} {head : Reader β ε η} {hc : head.Consumes}
  {body : σ → η → Option (Reader β ε σ)} {st st' : σ} {h : η} {s mid rest : List β}

theorem loop_error {x : ε} (hh : head.read s = .error x) :
    loop head hc body st s = .error x := by
  rw [loop]
  split
  · rename_i y hy
    rw [hh] at hy
    exact congrArg _ (Except.error.inj hy).symm
  · rename_i hok
    rw [hh] at hok
    cases hok

/-- One pass. -/
theorem loop_ok (hh : head.read s = .ok (h, mid)) :
    loop head hc body st s =
      match body st h with
      | none => .ok (st, mid)
      | some r =>
        match r.read mid with
        | .error x => .error x
        | .ok (st', rest) => loop head hc body st' rest := by
  rw [loop]
  split
  · rename_i hy
    rw [hh] at hy
    cases hy
  · rename_i h' mid' hok
    rw [hh] at hok
    obtain ⟨rfl, rfl⟩ := Prod.mk.inj (Except.ok.inj hok)
    cases body st h with
    | none => rfl
    | some r =>
      dsimp only
      split
      · rename_i hr
        rw [hr]
      · rename_i hr
        rw [hr]

theorem loop_leaves (hs : loop head hc body st s = .ok (st', rest)) : rest <:+ s := by
  induction hn : s.length using Nat.strongRecOn generalizing s st with
  | ind n ih =>
    cases hh : head.read s with
    | error x =>
      rw [loop_error hh] at hs
      cases hs
    | ok p =>
      obtain ⟨h, mid⟩ := p
      have hmid := head.leaves s h mid hh
      rw [loop_ok hh] at hs
      cases hb : body st h with
      | none =>
        rw [hb] at hs
        obtain ⟨-, rfl⟩ := Prod.mk.inj (Except.ok.inj hs)
        exact hmid
      | some r =>
        rw [hb] at hs
        dsimp only at hs
        split at hs
        · cases hs
        · rename_i st₁ rest₁ hr
          have hrest := r.leaves mid st₁ rest₁ hr
          have hlt := hc s h mid hh
          exact ((ih rest₁.length (by have := hrest.length_le; omega) hs rfl).trans hrest).trans hmid

end Loop

def iterate {η σ : Type} (head : Reader β ε η) (hc : head.Consumes)
    (body : σ → η → Option (Reader β ε σ)) (st : σ) : Reader β ε σ where
  read := loop head hc body st
  leaves _ _ _ := loop_leaves

/-- The reader takes the text `w` and comes to `o`; when the input ends within
`w` it throws `short`. -/
structure Exact (short : ε) (r : Reader β ε α) (w : List β) (o : Except ε α) : Prop where
  whole : ∀ rest, r.read (w ++ rest) = o.map fun a => (a, rest)
  cut : ∀ p, p <+: w → p ≠ w → r.read p = .error short

section Exact
variable {short : ε} {r : Reader β ε α} {w w' : List β} {a : α} {f : α → Reader β ε γ}

theorem exact_pure (a : α) : Exact short (pure a : Reader β ε α) [] (.ok a) where
  whole _ := rfl
  cut _ hp hne := absurd (List.prefix_nil.mp hp) hne

theorem exact_take (short : ε) (w : List β) : Exact short (take short w.length) w (.ok w) where
  whole rest := by
    simp only [take]
    rw [if_pos (by rw [List.length_append]; exact Nat.le_add_right ..), List.take_left, List.drop_left]
    rfl
  cut p hp hne := by
    have hlt : p.length < w.length :=
      Nat.lt_of_le_of_ne hp.length_le fun he => hne (hp.eq_of_length he)
    simp only [take]
    rw [if_neg (Nat.not_le_of_lt hlt)]

theorem Exact.read_ok (h : Exact short r w (.ok a)) (rest : List β) :
    r.read (w ++ rest) = .ok (a, rest) := h.whole rest

/-- One text after the other. -/
theorem Exact.bind (h : Exact short r w (.ok a)) {o : Except ε γ}
    (h' : Exact short (f a) w' o) : Exact short (r >>= f) (w ++ w') o where
  whole rest := by
    rw [List.append_assoc, read_bind_ok (h.read_ok (w' ++ rest))]
    exact h'.whole rest
  cut p hp hne := by
    -- the input ends in the first text, or it holds it and ends in the second
    by_cases hw : w <+: p
    · obtain ⟨q, rfl⟩ := hw
      rw [read_bind_ok (h.read_ok q)]
      exact h'.cut q ((List.prefix_append_right_inj w).mp hp) fun he => hne (he ▸ rfl)
    · have hpw : p <+: w :=
        (List.prefix_or_prefix_of_prefix hp (List.prefix_append w w')).resolve_right hw
      exact read_bind_error (h.cut p hpw fun he => hw (he ▸ List.prefix_rfl)) f

/-- A text that the last reader leaves alone. -/
theorem Exact.bind_pure (h : Exact short r w (.ok a)) {o : Except ε γ}
    (h' : Exact short (f a) [] o) : Exact short (r >>= f) w o := by
  have hb := h.bind h'
  rw [List.append_nil] at hb
  exact hb

theorem Exact.map (h : Exact short r w (.ok a)) (g : α → γ) :
    Exact short (r >>= fun a => pure (g a)) w (.ok (g a)) :=
  h.bind_pure (exact_pure (g a))

/-- What is read of a part of the text. -/
theorem Exact.read_part (h : Exact short r w (.ok a)) {p : List β} (hp : p <+: w) :
    (p = w ∧ r.read p = .ok (a, [])) ∨ (p ≠ w ∧ r.read p = .error short) := by
  by_cases hw : p = w
  · have hread := h.read_ok []
    rw [List.append_nil] at hread
    exact Or.inl ⟨hw, by rw [hw, hread]⟩
  · exact Or.inr ⟨hw, h.cut p hp hw⟩

theorem Exact.congr {r' : Reader β ε α} {o : Except ε α} (h : Exact short r' w o)
    (hr : ∀ s, r.read s = r'.read s) : Exact short r w o :=
  ⟨fun rest => (hr _).trans (h.whole rest), fun p hp hne => (hr p).trans (h.cut p hp hne)⟩

section Iterate
variable {η σ : Type} {head : Reader β ε η} {hc : head.Consumes}
  {body : σ → η → Option (Reader β ε σ)} {st st' : σ} {h : η} {v : List β}

/-- A loop is its first pass and the loop again. -/
theorem read_iterate (st : σ) (s : List β) :
    (iterate head hc body st).read s =
      (head >>= fun h => match body st h with
        | none => pure st
        | some r => r >>= iterate head hc body).read s := by
  change loop head hc body st s = _
  cases hh : head.read s with
  | error x => rw [loop_error hh, read_bind_error hh]
  | ok p =>
    obtain ⟨h, mid⟩ := p
    rw [loop_ok hh, read_bind_ok hh]
    cases body st h with
    | none => rfl
    | some r => rfl

theorem exact_stop (hh : Exact short head w (.ok h)) (hb : body st h = none) :
    Exact short (iterate head hc body st) w (.ok st) := by
  refine (hh.bind_pure ?_).congr (read_iterate st)
  rw [hb]
  exact exact_pure st

/-- One more pass in front. -/
theorem exact_pass {r : Reader β ε σ} (hh : Exact short head w (.ok h))
    (hb : body st h = some r) (hr : Exact short r w' (.ok st')) {o : Except ε σ}
    (ho : Exact short (iterate head hc body st') v o) :
    Exact short (iterate head hc body st) (w ++ (w' ++ v)) o := by
  refine (hh.bind ?_).congr (read_iterate st)
  rw [hb]
  exact hr.bind ho

end Iterate
end Exact

end Reader

end Errifier.Machine
