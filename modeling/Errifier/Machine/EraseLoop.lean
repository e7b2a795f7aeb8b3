/-!
# Erasing from a list while walking it

The loop `while (i < size) { if (p(a[i])) { hit(a[i]); erase(i); } else i++; }`.
`eraseStep` is one iteration, on a list and a store `σ` that `hit` may write, and
`none` is the failed loop test. What the loop leaves is `filter`, what it does to
the store is a fold over the erased elements in order, and the list without its
`p` elements is unchanged at every iteration.
-/
namespace Errifier.Machine

set_option autoImplicit false

section EraseLoop
variable {α σ : Type} (p : α → Bool) (hit : α → σ → σ)

/-- What survives the loop. -/
def survivors (l : List α) : List α := l.filter fun a => !p a

def eraseStep (l : List α) (st : σ) (i : Nat) : Option (List α × σ × Nat) :=
  match l[i]? with
  | none => none
  | some a => if p a then some (l.eraseIdx i, hit a st, i) else some (l, st, i + 1)

/-- At most `n` iterations. -/
def eraseLoop : Nat → List α → σ → Nat → List α × σ
  | 0, l, st, _ => (l, st)
  | n + 1, l, st, i =>
    match eraseStep p hit l st i with
    | none => (l, st)
    | some (l', st', i') => eraseLoop n l' st' i'

variable {p hit}

theorem drop_eraseIdx (l : List α) (i : Nat) : (l.eraseIdx i).drop i = l.drop (i + 1) := by
  rw [List.eraseIdx_eq_take_drop_succ]
  by_cases h : i ≤ l.length
  · exact List.drop_left' (List.length_take_of_le h)
  · rw [List.drop_eq_nil_of_le (by simp; omega), List.drop_eq_nil_of_le (by omega)]

theorem take_eraseIdx (l : List α) (i : Nat) : (l.eraseIdx i).take i = l.take i := by
  rw [List.eraseIdx_eq_take_drop_succ]
  by_cases h : i ≤ l.length
  · exact List.take_left' (List.length_take_of_le h)
  · rw [List.drop_eq_nil_of_le (by omega), List.append_nil, List.take_take, Nat.min_self]

/-- An iteration erases an element with `p` or steps over one without. -/
theorem eraseStep_cases {l l' : List α} {st st' : σ} {i i' : Nat}
    (h : eraseStep p hit l st i = some (l', st', i')) :
    ∃ a, l[i]? = some a ∧
      ((p a = true ∧ l' = l.eraseIdx i ∧ st' = hit a st ∧ i' = i) ∨
       (p a = false ∧ l' = l ∧ st' = st ∧ i' = i + 1)) := by
  unfold eraseStep at h
  cases ha : l[i]? with
  | none => simp [ha] at h
  | some a =>
    refine ⟨a, rfl, ?_⟩
    simp only [ha] at h
    cases hp : p a with
    | true =>
      simp only [hp, if_true, Option.some.injEq, Prod.mk.injEq] at h
      exact Or.inl ⟨rfl, h.1.symm, h.2.1.symm, h.2.2.symm⟩
    | false =>
      simp only [hp, Bool.false_eq_true, if_false, Option.some.injEq, Prod.mk.injEq] at h
      exact Or.inr ⟨rfl, h.1.symm, h.2.1.symm, h.2.2.symm⟩

/-- An iteration shortens the list or advances the index. -/
theorem eraseStep_progress {l l' : List α} {st st' : σ} {i i' : Nat}
    (h : eraseStep p hit l st i = some (l', st', i')) : l'.length + i < l.length + i' := by
  obtain ⟨a, ha, hc⟩ := eraseStep_cases h
  obtain ⟨hlt, -⟩ := List.getElem?_eq_some_iff.mp ha
  rcases hc with ⟨-, rfl, -, rfl⟩ | ⟨-, rfl, -, rfl⟩
  · have hl := List.length_eraseIdx_of_lt hlt
    omega
  · omega

theorem survivors_eraseIdx {l : List α} {i : Nat} {a : α} (ha : l[i]? = some a)
    (hp : p a = true) : survivors p (l.eraseIdx i) = survivors p l := by
  obtain ⟨hi, rfl⟩ := List.getElem?_eq_some_iff.mp ha
  have hl : l.take i ++ l[i] :: l.drop (i + 1) = l := by
    rw [← List.drop_eq_getElem_cons hi, List.take_append_drop]
  calc survivors p (l.eraseIdx i)
      = survivors p (l.take i ++ l[i] :: l.drop (i + 1)) := by
        rw [List.eraseIdx_eq_take_drop_succ]
        simp only [survivors, List.filter_append, List.filter_cons, hp, Bool.not_true,
          Bool.false_eq_true, if_false]
    _ = survivors p l := by rw [hl]

/-- The walked part of the list has no element with `p`: kept over an
erasure at its end and over a step past an element without `p`. -/
theorem clean_take_succ {l : List α} {i : Nat} {a : α} (h : ∀ b ∈ l.take i, p b = false)
    (ha : l[i]? = some a) (hp : p a = false) : ∀ b ∈ l.take (i + 1), p b = false := by
  intro b hb
  rw [List.take_add_one, ha] at hb
  rcases List.mem_append.mp hb with hb | hb
  · exact h b hb
  · obtain rfl := List.mem_singleton.mp hb
    exact hp

/-- Once the walk is past the end nothing is left to erase. -/
theorem survivors_of_done {l : List α} {i : Nat} (h : ∀ b ∈ l.take i, p b = false)
    (hi : l[i]? = none) : survivors p l = l := by
  rw [List.take_of_length_le (List.getElem?_eq_none_iff.mp hi)] at h
  exact List.filter_eq_self.mpr fun b hb => by simp [h b hb]

/-- The loop run to its end, from any position with fuel for the rest. -/
theorem eraseLoop_eq (n : Nat) (l : List α) (st : σ) (i : Nat) (hn : l.length ≤ i + n) :
    eraseLoop p hit n l st i =
      (l.take i ++ survivors p (l.drop i),
        ((l.drop i).filter p).foldl (fun st a => hit a st) st) := by
  induction n generalizing l st i with
  | zero =>
    have hl : l.length ≤ i := hn
    simp [eraseLoop, List.drop_eq_nil_of_le hl, List.take_of_length_le hl, survivors]
  | succ n ih =>
    unfold eraseLoop
    cases hs : eraseStep p hit l st i with
    | none =>
      have hl : l.length ≤ i := by
        unfold eraseStep at hs
        cases ha : l[i]? with
        | none => exact List.getElem?_eq_none_iff.mp ha
        | some a => simp only [ha] at hs; split at hs <;> cases hs
      simp [List.drop_eq_nil_of_le hl, List.take_of_length_le hl, survivors]
    | some r =>
      obtain ⟨l', st', i'⟩ := r
      obtain ⟨a, ha, hc⟩ := eraseStep_cases hs
      obtain ⟨hi, rfl⟩ := List.getElem?_eq_some_iff.mp ha
      have hd : l.drop i = l[i] :: l.drop (i + 1) := List.drop_eq_getElem_cons hi
      rcases hc with ⟨hp, rfl, rfl, rfl⟩ | ⟨hp, rfl, rfl, rfl⟩
      · have hlen := List.length_eraseIdx_of_lt hi
        refine (ih _ _ _ (by omega)).trans ?_
        rw [drop_eraseIdx, take_eraseIdx, hd]
        simp only [survivors, List.filter_cons, hp, Bool.not_true, Bool.false_eq_true,
          if_true, if_false, List.foldl_cons]
      · refine (ih _ _ _ (by omega)).trans ?_
        rw [hd, List.take_succ_eq_append_getElem hi]
        simp only [survivors, List.filter_cons, hp, Bool.not_false, Bool.false_eq_true,
          if_true, if_false, List.append_assoc, List.singleton_append]

/-- From the start of the list the loop leaves exactly the survivors. -/
theorem eraseLoop_all (l : List α) (st : σ) :
    eraseLoop p hit l.length l st 0 =
      (survivors p l, (l.filter p).foldl (fun st a => hit a st) st) := by
  rw [eraseLoop_eq _ _ _ _ (by omega)]
  simp

end EraseLoop

end Errifier.Machine
