import Errifier.Server.GetLog

/-!
# Reading a log back

In what `getLog` builds, the first newline is the piece's own when another
newline follows it, and the separator's when a carriage return does. So each
piece can be taken off again, whatever the log contains besides NULs.
-/
namespace Errifier.Server

set_option autoImplicit false

open Errifier.Text

/-- Take at most `k` pieces off. -/
def decodePieces : Nat → StdString → List UInt8
  | 0, _ => []
  | k + 1, s =>
    match s.dropWhile (· != newline) with
    | [] => []
    | _ :: t =>
      if t.head? = some newline then
        s.takeWhile (· != newline) ++ newline :: decodePieces k (t.drop 4)
      else s.takeWhile (· != newline) ++ decodePieces k (t.drop 3)

def decodeLog (s : StdString) : List UInt8 := decodePieces s.length s

theorem span_newline {l : List UInt8} (hl : newline ∉ l) (t : List UInt8) :
    (l ++ newline :: t).takeWhile (· != newline) = l ∧
      (l ++ newline :: t).dropWhile (· != newline) = newline :: t := by
  have hall : ∀ c ∈ l, (c != newline) = true := fun c hc =>
    bne_iff_ne.mpr fun he => hl (he ▸ hc)
  have hnl : ¬ (newline != newline) = true := by decide
  constructor
  · rw [List.takeWhile_append_of_pos hall,
      List.takeWhile_cons_of_neg (p := (· != newline)) hnl, List.append_nil]
  · rw [List.dropWhile_append_of_pos hall, List.dropWhile_cons_of_neg (p := (· != newline)) hnl]

/-- A piece with its newline: the separator's first newline follows. -/
theorem decode_line {l : List UInt8} (hl : newline ∉ l) (k : Nat) (t : StdString) :
    decodePieces (k + 1) (l ++ [newline] ++ separator ++ t) =
      l ++ [newline] ++ decodePieces k t := by
  have hs : l ++ [newline] ++ separator ++ t = l ++ newline :: (separator ++ t) := by
    simp only [List.append_assoc, List.cons_append, List.nil_append]
  obtain ⟨htake, hdrop⟩ := span_newline hl (separator ++ t)
  rw [hs, decodePieces, hdrop, htake]
  change (if some newline = some newline then _ else _) = _
  rw [if_pos rfl, List.append_assoc]
  rfl

/-- A piece without one: the first newline is followed by a carriage return. -/
theorem decode_part {l : List UInt8} (hl : newline ∉ l) (k : Nat) (t : StdString) :
    decodePieces (k + 1) (l ++ separator ++ t) = l ++ decodePieces k t := by
  have hs : l ++ separator ++ t = l ++ newline :: ([13, 10, 13] ++ t) := by
    rw [List.append_assoc]
    rfl
  obtain ⟨htake, hdrop⟩ := span_newline hl ([13, 10, 13] ++ t)
  rw [hs, decodePieces, hdrop, htake]
  change (if some (13 : UInt8) = some newline then _ else _) = _
  rw [if_neg (by decide)]
  rfl

theorem decode_nil (k : Nat) : decodePieces k [] = [] := by cases k <;> rfl

theorem decode_pieces {n : Nat} (hn : 0 < n) {j : Nat} {s : List UInt8} (hj : s.length ≤ j) :
    ∀ k, (pieces (n + 1) j s).length ≤ k →
      decodePieces k ((pieces (n + 1) j s).flatMap (· ++ separator)) = s := by
  refine pieces_induction
    (P := fun s ps => ∀ k, ps.length ≤ k → decodePieces k (ps.flatMap (· ++ separator)) = s) hn
    (fun k _ => decode_nil k) ?_ hj
  intro piece rest ps hpiece ih k hk
  rw [List.length_cons] at hk
  obtain ⟨k, rfl⟩ : ∃ i, k = i + 1 := ⟨k - 1, by omega⟩
  rw [List.flatMap_cons]
  cases hpiece with
  | line l _ hl => rw [decode_line hl, ih k (by omega)]
  | full _ _ hl => rw [decode_part hl, ih k (by omega)]
  | last _ hl => rw [decode_part hl, ih k (by omega)]

theorem decodeLog_logOf {output : List UInt8} (h : 0 ∉ output) :
    decodeLog (logOf output) = output := by
  have hle : (pieces 2048 output.length output).length ≤ (logOf output).length := by
    rw [logOf_of_not_mem h, length_separated]
    omega
  rw [logOf_of_not_mem h] at hle ⊢
  exact decode_pieces (n := 2047) (by decide) (Nat.le_refl _) _ hle

/-- No text is lost: the output can be read back from what `getLog` returns, so
two outputs without NULs that give the same string are equal. -/
theorem getLog_loses_nothing (popen popen' : StdString → List UInt8)
    (filename filename' : StdString) (type type' : Int) (lines lines' : StdString)
    (h : 0 ∉ popen (cString (command filename type lines)))
    (h' : 0 ∉ popen' (cString (command filename' type' lines'))) :
    decodeLog (getLog popen filename type lines) = popen (cString (command filename type lines)) ∧
      (getLog popen filename type lines = getLog popen' filename' type' lines' →
        popen (cString (command filename type lines)) =
          popen' (cString (command filename' type' lines'))) := by
  have hd := decodeLog_logOf h
  refine ⟨hd, fun he => ?_⟩
  have he' : logOf (popen (cString (command filename type lines))) =
      logOf (popen' (cString (command filename' type' lines'))) := he
  rw [← hd, he', decodeLog_logOf h']

/-- A log that contains a copy of the separator. -/
theorem getLog_loses_nothing_separator :
    decodeLog (getLog (fun _ => [97, 10, 13, 10, 13, 98]) [102] 1 []) = [97, 10, 13, 10, 13, 98] :=
  (getLog_loses_nothing (fun _ => [97, 10, 13, 10, 13, 98]) (fun _ => []) [102] [102] 1 1 [] []
    (by decide) (by decide)).1

end Errifier.Server
