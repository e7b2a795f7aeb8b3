import Mathlib.Data.List.Basic

/-!
# Cutting a list at its last separator

A list that holds a separator can be cut so that none is left behind the cut, and
in one way only. The cut stays where it is when something is put in front of the
list, or something without a separator behind it.
-/
namespace Errifier.Text

set_option autoImplicit false

variable {α : Type} {sep : α} {text l r l' r' : List α}

/-- `text` is `l`, its last `sep`, and `r`. -/
structure LastCut (sep : α) (text l r : List α) : Prop where
  text_eq : text = l ++ sep :: r
  last : sep ∉ r

namespace LastCut

theorem cons (a : α) (h : LastCut sep text l r) : LastCut sep (a :: text) (a :: l) r :=
  ⟨by rw [h.text_eq, List.cons_append], h.last⟩

/-- What stands before a list that has a separator does not move its last cut. -/
theorem append_left (s : List α) (h : LastCut sep text l r) :
    LastCut sep (s ++ text) (s ++ l) r :=
  ⟨by rw [h.text_eq, List.append_assoc], h.last⟩

theorem append_right {s : List α} (h : LastCut sep text l r) (hs : sep ∉ s) :
    LastCut sep (text ++ s) l (r ++ s) where
  text_eq := by rw [h.text_eq, List.append_assoc, List.cons_append]
  last hm := by
    rcases List.mem_append.mp hm with hr | hs'
    · exact h.last hr
    · exact hs hs'

/-- The last cut is found from the end: of two cuts neither separator can stand
behind the other. -/
theorem unique (h : LastCut sep text l r) (h' : LastCut sep text l' r') : l = l' ∧ r = r' := by
  induction l generalizing text l' with
  | nil =>
    cases l' with
    | nil =>
      have ht : sep :: r = sep :: r' := h.text_eq.symm.trans h'.text_eq
      exact ⟨rfl, (List.cons.inj ht).2⟩
    | cons b l' =>
      have ht : sep :: r = b :: (l' ++ sep :: r') := h.text_eq.symm.trans h'.text_eq
      refine absurd ?_ h.last
      rw [(List.cons.inj ht).2]
      exact List.mem_append_right l' List.mem_cons_self
  | cons b l ih =>
    cases l' with
    | nil =>
      have ht : b :: (l ++ sep :: r) = sep :: r' := h.text_eq.symm.trans h'.text_eq
      refine absurd ?_ h'.last
      rw [← (List.cons.inj ht).2]
      exact List.mem_append_right l List.mem_cons_self
    | cons b' l' =>
      have ht : b :: (l ++ sep :: r) = b' :: (l' ++ sep :: r') :=
        h.text_eq.symm.trans h'.text_eq
      obtain ⟨rfl, htail⟩ := List.cons.inj ht
      obtain ⟨rfl, hr⟩ := ih ⟨rfl, h.last⟩ ⟨htail, h'.last⟩
      exact ⟨rfl, hr⟩

end LastCut

/-- A list that holds the separator has a last one. -/
theorem lastCut_of_mem (h : sep ∈ text) : ∃ l r, LastCut sep text l r := by
  classical
  induction text with
  | nil => cases h
  | cons a text ih =>
    by_cases ht : sep ∈ text
    · obtain ⟨l, r, hc⟩ := ih ht
      exact ⟨a :: l, r, hc.cons a⟩
    · rcases List.mem_cons.mp h with rfl | h
      · exact ⟨[], text, rfl, ht⟩
      · exact absurd h ht

end Errifier.Text
