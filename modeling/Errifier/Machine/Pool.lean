import Mathlib.Data.List.Defs

/-!
# Pools in which one part moves

The parts of a concurrent machine stand in a list; a step replaces part `t`. The
other parts are `l.eraseIdx t`. What holds between any two parts is kept when it
holds between the new part and each of the others.
-/
namespace Errifier.Machine

set_option autoImplicit false

section Pool
variable {α : Type}

theorem mem_set_iff {l : List α} {t : Nat} {a b x : α} (ha : l[t]? = some a) :
    x ∈ l.set t b ↔ x = b ∨ x ∈ l.eraseIdx t := by
  obtain ⟨ht, -⟩ := List.getElem?_eq_some_iff.mp ha
  rw [List.set_eq_take_append_cons_drop, if_pos ht, List.eraseIdx_eq_take_drop_succ]
  simp only [List.mem_append, List.mem_cons]
  exact or_left_comm

theorem mem_iff_eraseIdx {l : List α} {t : Nat} {a x : α} (ha : l[t]? = some a) :
    x ∈ l ↔ x = a ∨ x ∈ l.eraseIdx t := by
  obtain ⟨ht, ha'⟩ := List.getElem?_eq_some_iff.mp ha
  have hset : l.set t a = l := by rw [← ha', List.set_getElem_self]
  rw [← mem_set_iff ha, hset]

variable {R : α → α → Prop} (symm : ∀ x y, R x y → R y x)
include symm

/-- Part `t` is related to every other part. -/
theorem pairwise_other {l : List α} {t : Nat} {a x : α} (h : l.Pairwise R) (ha : l[t]? = some a)
    (hx : x ∈ l.eraseIdx t) : R x a := by
  obtain ⟨u, hut, hu⟩ := List.mem_eraseIdx_iff_getElem?.mp hx
  obtain ⟨ht, rfl⟩ := List.getElem?_eq_some_iff.mp ha
  obtain ⟨hu', rfl⟩ := List.getElem?_eq_some_iff.mp hu
  have hp := List.pairwise_iff_getElem.mp h
  rcases Nat.lt_or_gt_of_ne hut with hlt | hgt
  · exact hp u t hu' ht hlt
  · exact symm _ _ (hp t u ht hu' hgt)

/-- The part that moves stays related to the others. -/
theorem pairwise_set {l : List α} {t : Nat} {a b : α} (h : l.Pairwise R) (ha : l[t]? = some a)
    (hb : ∀ x ∈ l.eraseIdx t, R x b) : (l.set t b).Pairwise R := by
  induction l generalizing t with
  | nil => exact h
  | cons c l ih =>
    obtain ⟨hc, hl⟩ := List.pairwise_cons.mp h
    cases t with
    | zero =>
      rw [List.set_cons_zero]
      exact List.pairwise_cons.mpr ⟨fun x hx => symm _ _ (hb x hx), hl⟩
    | succ t =>
      rw [List.set_cons_succ]
      refine List.pairwise_cons.mpr ⟨fun x hx => ?_, ih hl ha fun x hx => ?_⟩
      · rcases List.mem_or_eq_of_mem_set hx with hx | rfl
        · exact hc x hx
        · exact hb c (List.mem_cons_self ..)
      · exact hb x (List.mem_cons_of_mem _ hx)

omit symm in
theorem pairwise_append_one {l : List α} {b : α} (h : l.Pairwise R) (hb : ∀ x ∈ l, R x b) :
    (l ++ [b]).Pairwise R := by
  refine List.pairwise_append.mpr ⟨h, List.pairwise_singleton _ _, fun x hx y hy => ?_⟩
  rw [List.mem_singleton.mp hy]
  exact hb x hx

end Pool

end Errifier.Machine
