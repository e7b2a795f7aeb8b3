import Errifier.Text.Fgets
import Errifier.Text.QString
import Mathlib.Data.List.Basic
import Mathlib.Data.List.TakeWhile

/-!
# `getLog`

The output of the command is read piece by piece into a buffer of 2048 bytes,
and a separator follows every piece. A piece is a line only when the line fits
the buffer, and a piece goes through a C string, which ends at a NUL. Without
NULs nothing is lost all the same: the byte after the first newline tells
whether the newline is the log's or the separator's.
-/
namespace Errifier.Server

set_option autoImplicit false

open Errifier.Text

/-- The bytes of a string literal. -/
def literal (s : List Char) : StdString := s.map fun c => UInt8.ofNat c.toNat

/-- The command of `getLog`: `tail -n lines filename` for type 0, else
`cat filename`. -/
def command (filename : StdString) (type : Int) (lines : StdString) : StdString :=
  if type = 0 then literal ['t', 'a', 'i', 'l', ' ', '-', 'n', ' '] ++ lines ++ literal [' '] ++ filename
  else literal ['c', 'a', 't', ' '] ++ filename

/-- "\n\r\n\r" -/
def separator : StdString := [10, 13, 10, 13]

/-- At most `k` passes of the loop: `totalBuf` and what is left of the file. -/
def readLog : Nat → List UInt8 → StdString → StdString × List UInt8
  | 0, file, totalBuf => (totalBuf, file)
  | k + 1, file, totalBuf =>
    match fgets 2048 file with
    | none => (totalBuf, file)
    | some (buffer, file) => readLog k file (totalBuf ++ cString buffer ++ separator)

/-- `popen` is what the command outputs. The loop ends before it has made as many
passes as there are bytes. -/
def getLog (popen : StdString → List UInt8) (filename : StdString) (type : Int)
    (lines : StdString) : StdString :=
  let file := popen (cString (command filename type lines))
  (readLog file.length file []).1

/-- The string that is built from an output. -/
def logOf (output : List UInt8) : StdString := (readLog output.length output []).1

/-- Every line of the output followed by one separator. -/
def separated (output : List UInt8) : StdString := (linesOf output).flatMap (· ++ separator)

theorem readLog_eq (k : Nat) (file : List UInt8) (totalBuf : StdString) :
    (readLog k file totalBuf).1 =
      totalBuf ++ (pieces 2048 k file).flatMap fun piece => cString piece ++ separator := by
  induction k generalizing file totalBuf with
  | zero => rw [readLog, pieces, List.flatMap_nil, List.append_nil]
  | succ k ih =>
    rw [readLog, pieces]
    cases fgets 2048 file with
    | none => rw [List.flatMap_nil, List.append_nil]
    | some r =>
      dsimp only
      rw [ih, List.flatMap_cons]
      simp only [List.append_assoc]

/-- The loop reads the file to its end. -/
theorem readLog_ends {k : Nat} {file : List UInt8} (hk : file.length ≤ k) (totalBuf : StdString) :
    (readLog k file totalBuf).2 = [] := by
  induction k generalizing file totalBuf with
  | zero => exact List.length_eq_zero_iff.mp (Nat.le_zero.mp hk)
  | succ k ih =>
    rw [readLog]
    cases hf : fgets 2048 file with
    | none => exact fgets_eq_none hf
    | some r =>
      obtain ⟨piece, rest⟩ := r
      obtain ⟨rfl, hpiece⟩ := fgets_spec (n := 2047) (by decide) hf
      have hpos := List.length_pos_iff.mpr (hpiece.ne_nil (by decide))
      rw [List.length_append] at hk
      exact ih (by omega) _

theorem logOf_eq (output : List UInt8) :
    logOf output = (pieces 2048 output.length output).flatMap
      fun piece => cString piece ++ separator := by
  rw [logOf, readLog_eq, List.nil_append]

theorem mem_pieces {output piece : List UInt8} (h : piece ∈ pieces 2048 output.length output)
    {c : UInt8} (hc : c ∈ piece) : c ∈ output := by
  have hf := flatten_pieces (n := 2047) (by decide) (Nat.le_refl output.length)
  rw [← hf]
  exact List.mem_flatten.mpr ⟨piece, h, hc⟩

/-- Without NULs the pieces are copied whole. -/
theorem logOf_of_not_mem {output : List UInt8} (h : 0 ∉ output) :
    logOf output = (pieces 2048 output.length output).flatMap (· ++ separator) := by
  rw [logOf_eq]
  refine List.flatMap_congr fun piece hp => ?_
  rw [cString_of_not_mem fun hc => h (mem_pieces hp hc)]

theorem zero_not_mem_logOf (output : List UInt8) : 0 ∉ logOf output := by
  rw [logOf_eq]
  intro h
  obtain ⟨piece, -, hc⟩ := List.mem_flatMap.mp h
  rcases List.mem_append.mp hc with hc | hc
  · exact zero_not_mem_cString piece hc
  · revert hc
    decide

theorem length_separated (ps : List (List UInt8)) :
    (ps.flatMap (· ++ separator)).length = ps.flatten.length + 4 * ps.length := by
  induction ps with
  | nil => rfl
  | cons p ps ih =>
    rw [List.flatMap_cons, List.length_append, ih, List.length_append, List.flatten_cons,
      List.length_append, List.length_cons]
    have hs : separator.length = 4 := rfl
    omega

theorem logOf_eq_separated_iff (output : List UInt8) :
    logOf output = separated output ↔
      0 ∉ output ∧ ∀ line ∈ linesOf output, line.length ≤ 2047 := by
  constructor
  · intro h
    have hzero : 0 ∉ output := by
      intro hz
      refine zero_not_mem_logOf output ?_
      rw [h, separated]
      rw [← flatten_lines output] at hz
      obtain ⟨line, hl, hc⟩ := List.mem_flatten.mp hz
      exact List.mem_flatMap.mpr ⟨line, hl, List.mem_append_left _ hc⟩
    refine ⟨hzero, ?_⟩
    -- equal lengths mean as many pieces as lines
    have hlen := congrArg List.length h
    have hflat : (pieces 2048 output.length output).flatten = output :=
      flatten_pieces (n := 2047) (by decide) (Nat.le_refl _)
    rw [logOf_of_not_mem hzero, separated, length_separated, length_separated, flatten_lines,
      hflat] at hlen
    have hcount : (pieces 2048 output.length output).length = (linesOf output).length := by omega
    exact (pieces_lines (n := 2047) (by decide) (Nat.le_refl output.length)).2 hcount
  · rintro ⟨hzero, hshort⟩
    rw [logOf_of_not_mem hzero, separated,
      pieces_eq_lines (n := 2047) (by decide) (Nat.le_refl _) hshort]

/-- `getLog` returns the lines, each with one separator after it, exactly when
the output has no NUL and no line is longer than the buffer. -/
theorem getLog_lines_iff (popen : StdString → List UInt8) (filename : StdString) (type : Int)
    (lines : StdString) :
    getLog popen filename type lines = separated (popen (cString (command filename type lines))) ↔
      0 ∉ popen (cString (command filename type lines)) ∧
      ∀ line ∈ linesOf (popen (cString (command filename type lines))), line.length ≤ 2047 :=
  logOf_eq_separated_iff _

/-- One line of 2048 bytes is cut in two. -/
theorem long_line_cut : ¬ getLog (fun _ => List.replicate 2048 97) [102] 1 [] =
    separated (List.replicate 2048 97) := by
  intro h
  have hline : linesOf (List.replicate 2048 (97 : UInt8)) = [List.replicate 2048 97] :=
    lines_last (by rw [List.mem_replicate]; decide) (List.ne_nil_of_length_pos (by
      rw [List.length_replicate]
      decide))
  have hall := ((logOf_eq_separated_iff (List.replicate 2048 97)).mp h).2 (List.replicate 2048 97)
  rw [hline] at hall
  have hlong := hall (List.mem_singleton_self _)
  rw [List.length_replicate] at hlong
  omega

end Errifier.Server
