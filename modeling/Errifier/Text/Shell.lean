/-!
# The shell's lexical rules

How `sh` splits a text into words: blanks, quoting, comments and newlines as
POSIX has them. A word keeps which of its bytes were quoted, since only the others can
make it a pattern. A text with an operator, an expansion or a pattern, or with quoting that
does not end, has no words here. The main result is about size: words hold as
many bytes as the text only when nothing in the text is special.
-/
namespace Errifier.Text.Shell

set_option autoImplicit false

abbrev Word := List UInt8

/-- A word before quote removal: each byte with whether it was quoted. -/
abbrev Marked := List (UInt8 × Bool)

def Marked.bytes (w : Marked) : Word := w.map Prod.fst

/-- A word in which nothing was quoted. -/
def bare (w : Word) : Marked := w.map fun c => (c, false)

def isBlank (c : UInt8) : Bool := c == 32 || c == 9

def quote : UInt8 := 39
def doubleQuote : UInt8 := 34
def backslash : UInt8 := 92
def dollar : UInt8 := 36
def backquote : UInt8 := 96
def hash : UInt8 := 35
def tilde : UInt8 := 126

def slash : UInt8 := 47

/-- Operators, expansions and NUL: `|&;<>()`, `$` and backquote. What a `$` does before a
character that starts no parameter is not specified. -/
def isActive (c : UInt8) : Bool :=
  [124, 38, 59, 60, 62, 40, 41, dollar, backquote, 0].contains c

/-- A byte that stands for itself in a word, unless it makes it a pattern. -/
def isOrdinary (c : UInt8) : Bool :=
  !(isBlank c || c == 10 || c == quote || c == doubleQuote || c == backslash || isActive c)

/-- A `]` that is not quoted ends the bracket expression before the next slash. -/
def closes : Marked → Bool
  | [] => false
  | (c, quoted) :: w => c != slash && (c == 93 && !quoted || closes w)

/-- The first byte of a bracket expression does not end it. -/
def closesLater : Marked → Bool
  | [] => false
  | (c, _) :: w => c != slash && closes w

/-- What follows a `[` makes it a bracket expression; `!` negates it, and so does `^`, which
POSIX leaves open. -/
def isBracket : Marked → Bool
  | [] => false
  | (c, quoted) :: w =>
    if (c = 33 ∨ c = 94) ∧ quoted = false then closesLater w else closesLater ((c, quoted) :: w)

/-- The word is a pattern: it has a `*`, a `?` or a bracket expression that is not quoted.
A `[` that opens none stands for itself. -/
def isPattern : Marked → Bool
  | [] => false
  | (c, quoted) :: w =>
    (!quoted && (c == 42 || c == 63 || c == 91 && isBracket w)) || isPattern w

inductive Token where
  | word (w : Marked)
  | newline
  deriving DecidableEq

/-- Where the lexer is; `w` is the word it has begun, if it has. -/
inductive Mode where
  | plain (w : Option Marked)
  | escaped (w : Option Marked)
  | single (w : Marked)
  | double (w : Marked)
  | doubleEscaped (w : Marked)
  | comment

/-- The word begun, with one more byte. -/
def push (w : Option Marked) (c : UInt8) (quoted : Bool) : Option Marked :=
  some (w.getD [] ++ [(c, quoted)])

/-- The word begun is ended. -/
def emit (w : Option Marked) : List Token := (w.map Token.word).toList

/-- One byte: the new mode and the tokens that end here; none for an operator or
an expansion. -/
def next : Mode → UInt8 → Option (Mode × List Token)
  | .plain w, c =>
    if isBlank c then some (.plain none, emit w)
    else if c = 10 then some (.plain none, emit w ++ [.newline])
    else if c = quote then some (.single (w.getD []), [])
    else if c = doubleQuote then some (.double (w.getD []), [])
    else if c = backslash then some (.escaped w, [])
    else if isActive c then none
    else if w = none ∧ c = hash then some (.comment, [])
    else if w = none ∧ c = tilde then none
    else some (.plain (push w c false), [])
  | .escaped w, c => if c = 10 then some (.plain w, []) else some (.plain (push w c true), [])
  | .single w, c =>
    if c = quote then some (.plain (some w), []) else some (.single (w ++ [(c, true)]), [])
  | .double w, c =>
    if c = doubleQuote then some (.plain (some w), [])
    else if c = dollar ∨ c = backquote then none
    else if c = backslash then some (.doubleEscaped w, [])
    else some (.double (w ++ [(c, true)]), [])
  | .doubleEscaped w, c =>
    if c = 10 then some (.double w, [])
    else if c = dollar ∨ c = backquote ∨ c = doubleQuote ∨ c = backslash then
      some (.double (w ++ [(c, true)]), [])
    else some (.double (w ++ [(backslash, true), (c, true)]), [])
  | .comment, c => if c = 10 then some (.plain none, [.newline]) else some (.comment, [])

/-- The end of the text; none inside a quotation. -/
def finish : Mode → Option (List Token)
  | .plain w => some (emit w)
  | .comment => some []
  | _ => none

def tokens : Mode → List UInt8 → Option (List Token)
  | m, [] => finish m
  | m, c :: s => (next m c).bind fun r => (tokens r.1 s).map (r.2 ++ ·)

/-- The words before the first newline, if nothing but newlines follows it. -/
def commandWords : List Token → Option (List Marked)
  | [] => some []
  | .word w :: ts => (commandWords ts).map (w :: ·)
  | .newline :: ts => if ts.all (· == .newline) then some [] else none

/-- The words as they are passed on, if none of them is expanded as a pattern. -/
def fields (ws : List Marked) : Option (List Word) :=
  if ws.any isPattern then none else some (ws.map Marked.bytes)

/-- The words of a text that is one simple command without expansions. Reserved
words and assignments are not recognised: they only matter before or as the
command's name. -/
def simpleCommand (s : List UInt8) : Option (List Word) :=
  (tokens (.plain none) s).bind fun ts =>
    (commandWords (ts.dropWhile (· == .newline))).bind fields

example : simpleCommand [97, 32, 39, 98, 32, 42, 39] = some [[97], [98, 32, 42]] := by decide

/-- A word of bytes that stand for themselves one by one. -/
def isBare : Word → Bool
  | [] => false
  | c :: w => isOrdinary c && c != hash && c != tilde && w.all isOrdinary

/-- A word that the shell takes as it stands. -/
def isPlain (w : Word) : Bool := isBare w && !isPattern (bare w)

example : isPlain [97, 91] = true ∧ isPlain [97, 91, 98, 93] = false := by decide

theorem tokens_cons {m m' : Mode} {c : UInt8} {out : List Token} (h : next m c = some (m', out))
    (s : List UInt8) : tokens m (c :: s) = (tokens m' s).map (out ++ ·) := by
  rw [tokens, h]
  rfl

theorem next_ordinary {c : UInt8} (hc : isOrdinary c = true) {w : Option Marked}
    (hw : w = none → c ≠ hash ∧ c ≠ tilde) :
    next (.plain w) c = some (.plain (push w c false), []) := by
  simp only [isOrdinary, Bool.not_eq_true', Bool.or_eq_false_iff, beq_eq_false_iff_ne] at hc
  obtain ⟨⟨⟨⟨⟨hb, hn⟩, hq⟩, hd⟩, he⟩, ha⟩ := hc
  rw [next, if_neg (by rw [hb]; decide), if_neg hn, if_neg hq, if_neg hd, if_neg he,
    if_neg (by rw [ha]; decide), if_neg fun h => (hw h.1).1 h.2, if_neg fun h => (hw h.1).2 h.2]

theorem tokens_append {u : Word} (hu : u.all isOrdinary = true) (w : Marked) (s : List UInt8) :
    tokens (.plain (some w)) (u ++ s) = tokens (.plain (some (w ++ bare u))) s := by
  induction u generalizing w with
  | nil => rw [List.nil_append, bare, List.map_nil, List.append_nil]
  | cons c u ih =>
    rw [List.all_cons, Bool.and_eq_true] at hu
    have hn := next_ordinary hu.1 (w := some w) fun h => by cases h
    rw [List.cons_append, tokens_cons hn]
    change (tokens (.plain (some (w ++ [(c, false)]))) (u ++ s)).map id = _
    rw [Option.map_id, id, ih hu.2, List.append_assoc, List.singleton_append]
    rfl

theorem tokens_bare {w : Word} (hw : isBare w = true) (s : List UInt8) :
    tokens (.plain none) (w ++ s) = tokens (.plain (some (bare w))) s := by
  cases w with
  | nil => cases hw
  | cons c w =>
    simp only [isBare, Bool.and_eq_true, bne_iff_ne] at hw
    obtain ⟨⟨⟨hc, hh⟩, ht⟩, hall⟩ := hw
    rw [List.cons_append, tokens_cons (next_ordinary hc fun _ => ⟨hh, ht⟩)]
    change (tokens (.plain (some [(c, false)])) (w ++ s)).map id = _
    rw [Option.map_id, id, tokens_append hall]
    rfl

theorem plain_iff {w : Word} :
    isPlain w = true ↔ isBare w = true ∧ isPattern (bare w) = false := by
  rw [isPlain, Bool.and_eq_true, Bool.not_eq_true']

/-- A plain word and a blank after it. -/
theorem tokens_word {w : Word} (hw : isPlain w = true) (s : List UInt8) :
    tokens (.plain none) (w ++ 32 :: s) = (tokens (.plain none) s).map (.word (bare w) :: ·) := by
  rw [tokens_bare (plain_iff.mp hw).1]
  rfl

theorem tokens_last {w : Word} (hw : isPlain w = true) :
    tokens (.plain none) w = some [.word (bare w)] := by
  have h := tokens_bare (plain_iff.mp hw).1 []
  rw [List.append_nil] at h
  rw [h]
  rfl

theorem bytes_bare (w : Word) : (bare w).bytes = w := by
  rw [Marked.bytes, bare, List.map_map]
  exact List.map_id w

/-- Plain words are passed on as they stand. -/
theorem fields_bare {ws : List Word} (h : ∀ w ∈ ws, isPlain w = true) :
    fields (ws.map bare) = some ws := by
  have hany : (ws.map bare).any isPattern = false := by
    refine List.any_eq_false.mpr fun w hw => ?_
    obtain ⟨u, hu, rfl⟩ := List.mem_map.mp hw
    rw [(plain_iff.mp (h u hu)).2]
    decide
  have hid : Marked.bytes ∘ bare = id := funext bytes_bare
  rw [fields, hany, List.map_map, hid, List.map_id]
  rfl

def Token.word? : Token → Option Marked
  | .word w => some w
  | .newline => none

def wordsOf (ts : List Token) : List Marked := ts.filterMap Token.word?

section Size
variable {α : Type}

/-- Every word with one byte after it. -/
def size : List (List α) → Nat
  | [] => 0
  | w :: ws => w.length + 1 + size ws

theorem size_append (ws vs : List (List α)) : size (ws ++ vs) = size ws + size vs := by
  induction ws with
  | nil => rw [List.nil_append, size, Nat.zero_add]
  | cons w ws ih =>
    rw [List.cons_append, size, size, ih]
    omega

end Size

theorem size_bytes (ws : List Marked) : size (ws.map Marked.bytes) = size ws := by
  induction ws with
  | nil => rfl
  | cons w ws ih => rw [List.map_cons, size, size, ih, Marked.bytes, List.length_map]

theorem wordsOf_append (ts us : List Token) : wordsOf (ts ++ us) = wordsOf ts ++ wordsOf us :=
  List.filterMap_append

/-- What the word begun will take. -/
def begun : Option Marked → Nat
  | none => 1
  | some w => w.length + 1

def Mode.bound : Mode → Nat
  | .plain w => begun w
  | .escaped w => begun w
  | .single w => w.length + 1
  | .double w => w.length + 1
  | .doubleEscaped w => w.length + 2
  | .comment => 1

theorem begun_push (w : Option Marked) (c : UInt8) (quoted : Bool) :
    begun (push w c quoted) = begun w + 1 := by
  cases w with
  | none => rfl
  | some w => rw [push, begun, Option.getD_some, List.length_append, List.length_singleton, begun]

theorem begun_getD (w : Option Marked) : (w.getD []).length + 1 = begun w := by
  cases w <;> rfl

theorem size_emit (w : Option Marked) : size (wordsOf (emit w)) = if w = none then 0 else begun w := by
  cases w with
  | none => rfl
  | some w => rfl

/-- What one byte does in a word that is not quoted. -/
inductive Plainly (w : Option Marked) (c : UInt8) : Mode → List Token → Prop
  | ends (out : List Token) (hout : wordsOf out = wordsOf (emit w)) : Plainly w c (.plain none) out
  | quotes (m : Mode) (hm : m.bound = begun w) : Plainly w c m []
  | grows (hc : isOrdinary c = true) (hw : w = none → c ≠ hash ∧ c ≠ tilde) :
      Plainly w c (.plain (push w c false)) []

theorem plainly_of_next {w : Option Marked} {c : UInt8} {m : Mode} {out : List Token}
    (h : next (.plain w) c = some (m, out)) : Plainly w c m out := by
  rw [next] at h
  split at h
  · cases h
    exact .ends _ rfl
  split at h
  · cases h
    exact .ends _ ((wordsOf_append _ _).trans (List.append_nil _))
  split at h
  · cases h
    exact .quotes _ (begun_getD w)
  split at h
  · cases h
    exact .quotes _ (begun_getD w)
  split at h
  · cases h
    exact .quotes _ rfl
  split at h
  · cases h
  split at h
  · rename_i hw
    cases h
    exact .quotes _ (by rw [hw.1]; rfl)
  split at h
  · cases h
  · rename_i hb hn hq hd he ha hh ht
    cases h
    refine .grows ?_ fun hw => ⟨fun hc => hh ⟨hw, hc⟩, fun hc => ht ⟨hw, hc⟩⟩
    simp [isOrdinary, hb, hn, hq, hd, he, ha]

/-- A byte adds at most itself. -/
theorem size_next {m m' : Mode} {c : UInt8} {out : List Token} (h : next m c = some (m', out)) :
    size (wordsOf out) + m'.bound ≤ m.bound + 1 := by
  have hnil : size (wordsOf []) = 0 := rfl
  cases m with
  | plain w =>
    cases plainly_of_next h with
    | ends _ hout =>
      rw [hout, size_emit]
      simp only [Mode.bound, begun]
      split <;> omega
    | quotes _ hm =>
      rw [hm, hnil]
      simp only [Mode.bound]
      omega
    | grows =>
      rw [hnil]
      simp only [Mode.bound, begun_push]
      omega
  | escaped w =>
    simp only [next] at h
    split at h <;> cases h <;> rw [hnil] <;> simp only [Mode.bound, begun_push] <;> omega
  | comment =>
    simp only [next] at h
    have hnl : size (wordsOf [.newline]) = 0 := rfl
    split at h <;> cases h <;> simp only [Mode.bound, begun, hnil, hnl] <;> omega
  | single w | double w | doubleEscaped w =>
    simp only [next] at h
    have hlen (u : Marked) : (w ++ u).length = w.length + u.length := List.length_append
    repeat' split at h
    all_goals
      cases h
      all_goals
        rw [hnil]
        simp only [Mode.bound, begun, hlen, List.length_cons, List.length_nil]
        omega

theorem size_finish {m : Mode} {out : List Token} (h : finish m = some out) :
    size (wordsOf out) ≤ m.bound := by
  cases m with
  | plain w =>
    obtain rfl := Option.some.inj h
    rw [size_emit]
    simp only [Mode.bound]
    split <;> omega
  | comment =>
    obtain rfl := Option.some.inj h
    exact Nat.zero_le _
  | _ => cases h

/-- The words of a text hold no more bytes than the text. -/
theorem size_tokens {s : List UInt8} {m : Mode} {ts : List Token} (h : tokens m s = some ts) :
    size (wordsOf ts) ≤ s.length + m.bound := by
  induction s generalizing m ts with
  | nil =>
    have hf := size_finish h
    rw [List.length_nil]
    omega
  | cons c s ih =>
    obtain ⟨⟨m', out⟩, hn, hs⟩ := Option.bind_eq_some_iff.mp h
    obtain ⟨ts', ht, rfl⟩ := Option.map_eq_some_iff.mp hs
    have h1 := size_next hn
    have h2 := ih ht
    dsimp only at h2 ⊢
    rw [wordsOf_append, size_append, List.length_cons]
    omega

/-- Nothing in the word was quoted, and its bytes stand for themselves. -/
def IsBare (v : Marked) : Prop := ∃ u, isBare u = true ∧ v = bare u

/-- The word begun is so far. -/
def BareSoFar (w : Option Marked) : Prop := ∀ v ∈ w, IsBare v

theorem bare_push {w : Option Marked} {c : UInt8} (h : BareSoFar w) (hc : isOrdinary c = true)
    (hw : w = none → c ≠ hash ∧ c ≠ tilde) : BareSoFar (push w c false) := by
  intro v hv
  obtain rfl := Option.some.inj hv
  cases w with
  | none =>
    obtain ⟨hh, ht⟩ := hw rfl
    exact ⟨[c], by simp [isBare, hc, hh, ht], rfl⟩
  | some w =>
    obtain ⟨u, hu, rfl⟩ := h w rfl
    cases u with
    | nil => cases hu
    | cons d u =>
      simp only [isBare, Bool.and_eq_true] at hu
      refine ⟨d :: u ++ [c], by simp [isBare, hu, hc], ?_⟩
      simp [bare]

/-- Words that hold as many bytes as the text are bare: nothing was quoted, no
blank was doubled, and there is no comment. -/
theorem bare_of_size {s : List UInt8} {w : Option Marked} {ts : List Token}
    (h : tokens (.plain w) s = some ts) (hw : BareSoFar w)
    (hsize : size (wordsOf ts) = s.length + begun w) : ∀ v ∈ wordsOf ts, IsBare v := by
  induction s generalizing w ts with
  | nil =>
    obtain rfl := Option.some.inj h
    cases w with
    | none => exact fun v hv => by cases hv
    | some w =>
      intro v hv
      rw [List.mem_singleton.mp hv]
      exact hw w rfl
  | cons c s ih =>
    obtain ⟨⟨m', out⟩, hn, hs⟩ := Option.bind_eq_some_iff.mp h
    obtain ⟨ts', ht, rfl⟩ := Option.map_eq_some_iff.mp hs
    dsimp only at ht hsize ⊢
    have hle := size_tokens ht
    rw [wordsOf_append, size_append, List.length_cons] at hsize
    have hnil : size (wordsOf []) = 0 := rfl
    cases plainly_of_next hn with
    | ends _ hout =>
      rw [wordsOf_append, hout]
      rw [hout, size_emit] at hsize
      simp only [Mode.bound] at hle
      have hone : begun none = 1 := rfl
      cases w with
      | none =>
        rw [if_pos rfl] at hsize
        omega
      | some w =>
        rw [if_neg (by simp)] at hsize
        intro v hv
        rcases List.mem_append.mp hv with hv | hv
        · rw [List.mem_singleton.mp hv]
          exact hw w rfl
        · exact ih ht (fun _ hnone => by cases hnone) (by omega) v hv
    | quotes _ hm => omega
    | grows hc hfirst =>
      have hb := begun_push w c false
      have hout : size (wordsOf ([] ++ ts')) = size (wordsOf ts') := rfl
      exact ih ht (bare_push hw hc hfirst) (by omega)

theorem commandWords_eq {ts : List Token} {ws : List Marked} (h : commandWords ts = some ws) :
    wordsOf ts = ws := by
  induction ts generalizing ws with
  | nil => exact Option.some.inj h
  | cons t ts ih =>
    cases t with
    | word w =>
      obtain ⟨ws', hws, rfl⟩ := Option.map_eq_some_iff.mp h
      exact congrArg (w :: ·) (ih hws)
    | newline =>
      rw [commandWords] at h
      split at h
      · rename_i hall
        obtain rfl := Option.some.inj h
        refine List.filterMap_eq_nil_iff.mpr fun t ht => ?_
        rcases List.mem_cons.mp ht with rfl | ht
        · rfl
        · have he := List.all_eq_true.mp hall t ht
          rw [beq_iff_eq.mp he]
          rfl
      · cases h

theorem wordsOf_dropWhile (ts : List Token) :
    wordsOf (ts.dropWhile (· == .newline)) = wordsOf ts := by
  induction ts with
  | nil => rfl
  | cons t ts ih =>
    cases t with
    | word w => rfl
    | newline => exact ih

theorem fields_cases {ws : List Marked} {us : List Word} (h : fields ws = some us) :
    (∀ w ∈ ws, isPattern w = false) ∧ us = ws.map Marked.bytes := by
  unfold fields at h
  split at h
  · cases h
  · rename_i hany
    obtain rfl := Option.some.inj h
    exact ⟨fun w hw => Bool.eq_false_iff.mpr fun hp => hany (List.any_eq_true.mpr ⟨w, hw, hp⟩), rfl⟩

/-- The words of a simple command are the plain words of its text when they hold
as many bytes. -/
theorem simpleCommand_plain {s : List UInt8} {us : List Word} (h : simpleCommand s = some us) :
    size us ≤ s.length + 1 ∧ (size us = s.length + 1 → ∀ u ∈ us, isPlain u = true) := by
  obtain ⟨ts, ht, hc⟩ := Option.bind_eq_some_iff.mp h
  obtain ⟨ws, hws, hf⟩ := Option.bind_eq_some_iff.mp hc
  obtain ⟨hpattern, rfl⟩ := fields_cases hf
  have hwords := commandWords_eq hws
  rw [wordsOf_dropWhile] at hwords
  rw [size_bytes, ← hwords]
  refine ⟨size_tokens ht, fun hsize u hmem => ?_⟩
  obtain ⟨w, hw, rfl⟩ := List.mem_map.mp hmem
  obtain ⟨u, hu, rfl⟩ := bare_of_size ht (fun _ hnone => by cases hnone) hsize w hw
  rw [bytes_bare]
  exact plain_iff.mpr ⟨hu, hpattern _ (hwords ▸ hw)⟩

end Errifier.Text.Shell
