import Errifier.Text.Shell
import Errifier.Server.GetLog

/-!
# The command of `getLog` as the shell reads it

`filename` and `lines` come from the network and are put into the command as
they are. The command has the words that are meant only when both arguments are
words that the shell takes as they stand.
-/
namespace Errifier.Server

set_option autoImplicit false

open Errifier.Text
open Errifier.Text.Shell

/-- The words of the command that `getLog` means to run. -/
def intended (filename : StdString) (type : Int) (lines : StdString) : List Word :=
  if type = 0 then [literal ['t', 'a', 'i', 'l'], literal ['-', 'n'], lines, filename]
  else [literal ['c', 'a', 't'], filename]

theorem zero_not_mem_of_plain {w : Word} (h : isPlain w = true) : 0 ∉ w := by
  have h := (plain_iff.mp h).1
  cases w with
  | nil => exact List.not_mem_nil
  | cons c w =>
    simp only [isBare, Bool.and_eq_true] at h
    obtain ⟨⟨⟨hc, -⟩, -⟩, hall⟩ := h
    have hzero : isOrdinary 0 = false := by decide
    intro hmem
    rcases List.mem_cons.mp hmem with rfl | hmem
    · rw [hzero] at hc
      cases hc
    · have ho := List.all_eq_true.mp hall 0 hmem
      rw [hzero] at ho
      cases ho

/-- Every word is followed by one byte, or by the end of the text. -/
theorem size_intended (filename : StdString) (type : Int) (lines : StdString) :
    size (intended filename type lines) = (command filename type lines).length + 1 := by
  by_cases ht : type = 0
  · rw [intended, command, if_pos ht, if_pos ht]
    simp only [literal, size, List.map_cons, List.map_nil, List.length_append, List.length_cons,
      List.length_nil]
    omega
  · rw [intended, command, if_neg ht, if_neg ht]
    simp only [literal, size, List.map_cons, List.map_nil, List.length_append, List.length_cons,
      List.length_nil]
    omega

theorem tokens_tail {filename lines : StdString} (hf : isPlain filename = true)
    (hl : isPlain lines = true) :
    tokens (.plain none) (command filename 0 lines) =
      some ((intended filename 0 lines).map fun w => .word (bare w)) := by
  have htail : isPlain (literal ['t', 'a', 'i', 'l']) = true := by decide
  have hn : isPlain (literal ['-', 'n']) = true := by decide
  have hsplit : command filename 0 lines = literal ['t', 'a', 'i', 'l'] ++ 32 ::
      (literal ['-', 'n'] ++ 32 :: (lines ++ 32 :: filename)) := by
    rw [command, if_pos rfl]
    simp only [List.append_assoc]
    rfl
  rw [hsplit, tokens_word htail, tokens_word hn, tokens_word hl, tokens_last hf]
  rfl

theorem tokens_cat {filename : StdString} (hf : isPlain filename = true) {type : Int}
    (ht : type ≠ 0) (lines : StdString) :
    tokens (.plain none) (command filename type lines) =
      some ((intended filename type lines).map fun w => .word (bare w)) := by
  have hcat : isPlain (literal ['c', 'a', 't']) = true := by decide
  have hsplit : command filename type lines = literal ['c', 'a', 't'] ++ 32 :: filename := by
    rw [command, if_neg ht]
    rfl
  rw [hsplit, tokens_word hcat, tokens_last hf, intended, if_neg ht]
  rfl

/-- The command has no NUL of its own, so `popen` gets all of it. -/
theorem cString_command {filename lines : StdString} {type : Int} (hf : 0 ∉ filename)
    (hl : type = 0 → 0 ∉ lines) :
    cString (command filename type lines) = command filename type lines := by
  refine cString_of_not_mem ?_
  by_cases ht : type = 0
  · have htail : (0 : UInt8) ∉ literal ['t', 'a', 'i', 'l', ' ', '-', 'n', ' '] := by decide
    have hblank : (0 : UInt8) ∉ literal [' '] := by decide
    rw [command, if_pos ht]
    simp only [List.mem_append, not_or]
    exact ⟨⟨⟨htail, hl ht⟩, hblank⟩, hf⟩
  · have hcat : (0 : UInt8) ∉ literal ['c', 'a', 't', ' '] := by decide
    rw [command, if_neg ht]
    simp only [List.mem_append, not_or]
    exact ⟨hcat, hf⟩

/-- The words come out right only when they hold as many bytes as the command,
so nothing in it may be special. -/
theorem plain_of_intended {filename lines : StdString} {type : Int}
    (h : simpleCommand (cString (command filename type lines)) =
      some (intended filename type lines)) :
    ∀ w ∈ intended filename type lines, isPlain w = true := by
  obtain ⟨hle, hplain⟩ := simpleCommand_plain h
  have hs := size_intended filename type lines
  have hc := length_cString_le (command filename type lines)
  exact hplain (by omega)

theorem dropWhile_words (ws : List Word) :
    (ws.map fun w => Token.word (bare w)).dropWhile (· == .newline) =
      ws.map fun w => Token.word (bare w) := by
  cases ws with
  | nil => rfl
  | cons w ws => rfl

theorem commandWords_words (ws : List Word) :
    commandWords (ws.map fun w => Token.word (bare w)) = some (ws.map bare) := by
  induction ws with
  | nil => rfl
  | cons w ws ih => rw [List.map_cons, commandWords, ih]; rfl

theorem intended_plain {filename lines : StdString} {type : Int} (hf : isPlain filename = true)
    (hl : type = 0 → isPlain lines = true) : ∀ w ∈ intended filename type lines, isPlain w = true := by
  have htail : isPlain (literal ['t', 'a', 'i', 'l']) = true := by decide
  have hn : isPlain (literal ['-', 'n']) = true := by decide
  have hcat : isPlain (literal ['c', 'a', 't']) = true := by decide
  unfold intended
  split
  · rename_i ht
    simp only [List.forall_mem_cons]
    exact ⟨htail, hn, hl ht, hf, fun _ hw => by cases hw⟩
  · simp only [List.forall_mem_cons]
    exact ⟨hcat, hf, fun _ hw => by cases hw⟩

end Errifier.Server
