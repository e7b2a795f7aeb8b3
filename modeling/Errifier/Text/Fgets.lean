/-!
# `fgets` and lines

`fgets(buffer, size, file)` stores at most `size - 1` bytes, up to and with the
first newline, and returns NULL at the end of the file when nothing is stored.
Reading a whole stream with it cuts the stream into pieces; these are the lines
exactly when no line is longer than `size - 1`.
-/
namespace Errifier.Text

set_option autoImplicit false

def newline : UInt8 := 10

/-- At most `n` bytes, up to and with the first newline, and what is left. -/
def takeLine : Nat → List UInt8 → List UInt8 × List UInt8
  | 0, s => ([], s)
  | _ + 1, [] => ([], [])
  | n + 1, c :: s =>
    if c = newline then ([c], s)
    else (c :: (takeLine n s).1, (takeLine n s).2)

/-- The bytes stored and the rest of the stream; none is NULL. -/
def fgets (size : Nat) : List UInt8 → Option (List UInt8 × List UInt8)
  | [] => none
  | s => some (takeLine (size - 1) s)

/-- The pieces that `while (fgets(buffer, size, file))` reads in `k` passes. -/
def pieces (size : Nat) : Nat → List UInt8 → List (List UInt8)
  | 0, _ => []
  | k + 1, s =>
    match fgets size s with
    | none => []
    | some (piece, rest) => piece :: pieces size k rest

/-- The lines of a text, each with its newline; the last one may have none. -/
def linesOf : List UInt8 → List (List UInt8)
  | [] => []
  | c :: s =>
    if c = newline then [c] :: linesOf s
    else
      match linesOf s with
      | [] => [[c]]
      | l :: ls => (c :: l) :: ls

/-- A piece that ends in its newline, or has none: the shape of what `fgets`
stores. -/
inductive Piece (n : Nat) : List UInt8 → List UInt8 → Prop
  | line (l rest : List UInt8) (hl : newline ∉ l) (hlen : l.length < n) : Piece n (l ++ [newline]) rest
  | full (l rest : List UInt8) (hl : newline ∉ l) (hlen : l.length = n) (hrest : rest ≠ []) :
      Piece n l rest
  | last (l : List UInt8) (hl : newline ∉ l) (hlen : l.length ≤ n) (hne : l ≠ []) : Piece n l []

theorem takeLine_append (n : Nat) (s : List UInt8) : (takeLine n s).1 ++ (takeLine n s).2 = s := by
  induction n generalizing s with
  | zero => rfl
  | succ n ih =>
    cases s with
    | nil => rfl
    | cons c s =>
      rw [takeLine]
      split
      · rfl
      · rw [List.cons_append, ih s]

theorem piece_of_takeLine {n : Nat} {s : List UInt8} (hs : s ≠ []) (hn : 0 < n) :
    Piece n (takeLine n s).1 (takeLine n s).2 := by
  induction n generalizing s with
  | zero => omega
  | succ n ih =>
    cases s with
    | nil => exact absurd rfl hs
    | cons c s =>
      rw [takeLine]
      by_cases hc : c = newline
      · rw [if_pos hc, hc]
        exact .line [] s List.not_mem_nil (by simp)
      rw [if_neg hc]
      have hcons : ∀ l : List UInt8, newline ∉ l → newline ∉ c :: l := by
        intro l hl hm
        rcases List.mem_cons.mp hm with he | hm
        · exact hc he.symm
        · exact hl hm
      cases n with
      | zero =>
        cases s with
        | nil => exact .last [c] (hcons [] List.not_mem_nil) (by simp) (List.cons_ne_nil _ _)
        | cons d s =>
          exact .full [c] (d :: s) (hcons [] List.not_mem_nil) rfl (List.cons_ne_nil _ _)
      | succ n =>
        cases s with
        | nil => exact .last [c] (hcons [] List.not_mem_nil) (by simp) (List.cons_ne_nil _ _)
        | cons d s =>
          have hp := ih (s := d :: s) (List.cons_ne_nil _ _) (Nat.succ_pos n)
          generalize takeLine (n + 1) (d :: s) = p at hp
          obtain ⟨l, r⟩ := p
          dsimp only at hp ⊢
          cases hp with
          | line m _ hm hlen =>
            exact .line (c :: m) _ (hcons m hm) (by rw [List.length_cons]; omega)
          | full _ _ hl hlen hrest =>
            exact .full _ _ (hcons _ hl) (by rw [List.length_cons, hlen]) hrest
          | last _ hl hlen hne =>
            exact .last _ (hcons _ hl) (by rw [List.length_cons]; omega) (List.cons_ne_nil _ _)

theorem Piece.ne_nil {n : Nat} {l rest : List UInt8} (h : Piece n l rest) (hn : 0 < n) : l ≠ [] := by
  cases h with
  | line l => exact List.append_ne_nil_of_right_ne_nil _ (List.cons_ne_nil _ _)
  | full _ _ hl hlen =>
    intro he
    rw [he, List.length_nil] at hlen
    omega
  | last _ hl hlen hne => exact hne

theorem fgets_spec {n : Nat} {s piece rest : List UInt8} (hn : 0 < n)
    (h : fgets (n + 1) s = some (piece, rest)) : s = piece ++ rest ∧ Piece n piece rest := by
  cases s with
  | nil => cases h
  | cons c s =>
    have hp : takeLine n (c :: s) = (piece, rest) := Option.some.inj h
    have ha := takeLine_append n (c :: s)
    have hpiece := piece_of_takeLine (List.cons_ne_nil c s) hn
    rw [hp] at ha hpiece
    exact ⟨ha.symm, hpiece⟩

theorem fgets_eq_none {size : Nat} {s : List UInt8} (h : fgets size s = none) : s = [] := by
  cases s with
  | nil => rfl
  | cons => cases h

/-- Text without a newline belongs to the line that follows. -/
theorem lines_append {l : List UInt8} (hl : newline ∉ l) {s m : List UInt8}
    {ms : List (List UInt8)} (hs : linesOf s = m :: ms) : linesOf (l ++ s) = (l ++ m) :: ms := by
  induction l with
  | nil => exact hs
  | cons c l ih =>
    have hc : c ≠ newline := fun he => hl (he ▸ List.mem_cons_self)
    rw [List.cons_append, linesOf, if_neg hc, ih fun hm => hl (List.mem_cons_of_mem _ hm)]
    rfl

theorem lines_line {l : List UInt8} (hl : newline ∉ l) (rest : List UInt8) :
    linesOf (l ++ newline :: rest) = (l ++ [newline]) :: linesOf rest :=
  lines_append hl (by rw [linesOf, if_pos rfl])

theorem lines_last {l : List UInt8} (hl : newline ∉ l) (hne : l ≠ []) : linesOf l = [l] := by
  induction l with
  | nil => exact absurd rfl hne
  | cons c l ih =>
    have hc : c ≠ newline := fun he => hl (he ▸ List.mem_cons_self)
    rw [linesOf, if_neg hc]
    cases l with
    | nil => rfl
    | cons d l => rw [ih (fun hm => hl (List.mem_cons_of_mem _ hm)) (List.cons_ne_nil _ _)]

theorem lines_ne_nil {s : List UInt8} (hs : s ≠ []) : linesOf s ≠ [] := by
  cases s with
  | nil => exact absurd rfl hs
  | cons c s =>
    rw [linesOf]
    split
    · exact List.cons_ne_nil _ _
    · split
      · exact List.cons_ne_nil _ _
      · exact List.cons_ne_nil _ _

theorem line_ne_nil {s l : List UInt8} (hl : l ∈ linesOf s) : l ≠ [] := by
  induction s generalizing l with
  | nil => cases hl
  | cons c s ih =>
    rw [linesOf] at hl
    split at hl
    · rcases List.mem_cons.mp hl with rfl | hl
      · exact List.cons_ne_nil _ _
      · exact ih hl
    · split at hl
      · rw [List.mem_singleton.mp hl]
        exact List.cons_ne_nil _ _
      · rename_i m ms hms
        rcases List.mem_cons.mp hl with rfl | hl
        · exact List.cons_ne_nil _ _
        · exact ih (hms ▸ List.mem_cons_of_mem _ hl)

theorem flatten_lines (s : List UInt8) : (linesOf s).flatten = s := by
  induction s with
  | nil => rfl
  | cons c s ih =>
    rw [linesOf]
    split
    · rw [List.flatten_cons, ih]
      rfl
    · cases hs : linesOf s with
      | nil =>
        rw [hs] at ih
        rw [← ih]
        rfl
      | cons l ls =>
        rw [hs] at ih
        rw [List.flatten_cons, List.cons_append, ← List.flatten_cons, ih]

/-- The rule for a property of the pieces of a stream: what is left after a piece
is shorter. -/
theorem pieces_induction {n : Nat} (hn : 0 < n) {P : List UInt8 → List (List UInt8) → Prop}
    (nil : P [] []) (cons : ∀ piece rest ps, Piece n piece rest → P rest ps →
      P (piece ++ rest) (piece :: ps))
    {k : Nat} {s : List UInt8} (hk : s.length ≤ k) : P s (pieces (n + 1) k s) := by
  induction k generalizing s with
  | zero =>
    obtain rfl := List.length_eq_zero_iff.mp (Nat.le_zero.mp hk)
    exact nil
  | succ k ih =>
    rw [pieces]
    cases hf : fgets (n + 1) s with
    | none =>
      obtain rfl := fgets_eq_none hf
      exact nil
    | some r =>
      obtain ⟨piece, rest⟩ := r
      obtain ⟨rfl, hpiece⟩ := fgets_spec hn hf
      have hpos := List.length_pos_iff.mpr (hpiece.ne_nil hn)
      rw [List.length_append] at hk
      exact cons piece rest _ hpiece (ih (by omega))

/-- Every byte is read, once and in order. -/
theorem flatten_pieces {n : Nat} (hn : 0 < n) {k : Nat} {s : List UInt8} (hk : s.length ≤ k) :
    (pieces (n + 1) k s).flatten = s := by
  refine pieces_induction (P := fun s ps => ps.flatten = s) hn rfl ?_ hk
  intro piece rest ps _ ih
  rw [List.flatten_cons, ih]

/-- There are as many pieces as lines only when the pieces are the lines. -/
theorem pieces_lines {n : Nat} (hn : 0 < n) {k : Nat} {s : List UInt8} (hk : s.length ≤ k) :
    (linesOf s).length ≤ (pieces (n + 1) k s).length ∧
      ((pieces (n + 1) k s).length = (linesOf s).length → ∀ l ∈ linesOf s, l.length ≤ n) := by
  refine pieces_induction (P := fun s ps => (linesOf s).length ≤ ps.length ∧
    (ps.length = (linesOf s).length → ∀ l ∈ linesOf s, l.length ≤ n)) hn ?_ ?_ hk
  · exact ⟨Nat.le_refl _, fun _ l hl => by cases hl⟩
  · intro piece rest ps hpiece ⟨hle, heq⟩
    cases hpiece with
    | line l _ hl hlen =>
      rw [List.append_assoc, List.singleton_append, lines_line hl]
      simp only [List.length_cons]
      refine ⟨by omega, fun he m hm => ?_⟩
      rcases List.mem_cons.mp hm with rfl | hm
      · rw [List.length_append, List.length_singleton]
        omega
      · exact heq (by omega) m hm
    | full _ _ hl hlen hrest =>
      obtain ⟨m, ms, hms⟩ := List.exists_cons_of_ne_nil (lines_ne_nil hrest)
      rw [hms, List.length_cons] at hle
      rw [lines_append hl hms]
      simp only [List.length_cons]
      exact ⟨by omega, fun he => by omega⟩
    | last _ hl hlen hne =>
      rw [List.append_nil, lines_last hl hne]
      simp only [List.length_cons]
      refine ⟨by simp, fun _ m hm => ?_⟩
      rw [List.mem_singleton.mp hm]
      exact hlen

/-- When every line fits the buffer, each piece is a line. -/
theorem pieces_eq_lines {n : Nat} (hn : 0 < n) {k : Nat} {s : List UInt8} (hk : s.length ≤ k)
    (h : ∀ l ∈ linesOf s, l.length ≤ n) : pieces (n + 1) k s = linesOf s := by
  refine pieces_induction (P := fun s ps => (∀ l ∈ linesOf s, l.length ≤ n) → ps = linesOf s)
    hn (fun _ => rfl) ?_ hk h
  intro piece rest ps hpiece ih hall
  cases hpiece with
  | line l _ hl hlen =>
    rw [List.append_assoc, List.singleton_append, lines_line hl] at hall ⊢
    rw [ih fun m hm => hall m (List.mem_cons_of_mem _ hm)]
  | full _ _ hl hlen hrest =>
    obtain ⟨m, ms, hms⟩ := List.exists_cons_of_ne_nil (lines_ne_nil hrest)
    rw [lines_append hl hms] at hall
    have hlong := hall _ List.mem_cons_self
    rw [List.length_append] at hlong
    have hpos := List.length_pos_iff.mpr (line_ne_nil (hms ▸ List.mem_cons_self))
    omega
  | last _ hl hlen hne =>
    rw [List.append_nil, lines_last hl hne, ih fun m hm => by cases hm]
    rfl

end Errifier.Text
