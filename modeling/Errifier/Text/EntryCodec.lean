import Errifier.Text.LastCut
import Errifier.Text.ServerEntry

/-!
# Reading an entry back from its text

Neither part of `name(address)` is escaped, so an address with a parenthesis of
its own is read back short and its rest goes to the name. The loop is walked here
once as it stands, in `int`s and with every `at(i)` checked, and then described by
the last cut of the text. A parenthesis is one UTF-16 unit, so Qt, which counts
units, cuts at the same characters.
-/
namespace Errifier.Text

set_option autoImplicit false

/-- The item that `addServerHandler` adds for a name and an address. -/
def itemText (servername serverip : QString) : QString :=
  servername ++ '(' :: (serverip ++ [')'])

theorem ServerEntry.text_eq (e : ServerEntry) : e.text = itemText e.servername e.serverip := rfl

/-- `QString::at`, none outside the text. -/
def charAt (text : QString) (i : Int) : Option Char :=
  if 0 ≤ i then text[i.toNat]? else none

/-- The loop `for(i = ...; i < length - 1; i++)`, none when an access leaves the
text. -/
def splitLoop (text : QString) (length lastindex i : Int) (servername serverip : QString) :
    Option (QString × QString) :=
  if i < length - 1 then
    if i > lastindex then
      (charAt text i).bind fun c =>
        splitLoop text length lastindex (i + 1) servername (serverip ++ [c])
    else if i < lastindex then
      (charAt text i).bind fun c =>
        splitLoop text length lastindex (i + 1) (servername ++ [c]) serverip
    else splitLoop text length lastindex (i + 1) servername serverip
  else some (servername, serverip)
termination_by (length - 1 - i).toNat
decreasing_by all_goals omega

/-- The lines of the remove, ping and start handlers that take an item's text
apart. -/
def readEntry (text : QString) : Option (QString × QString) :=
  splitLoop text text.length (lastIndexOf '(' text) 0 [] []

theorem charAt_of_lt {text : QString} {i : Nat} (h : i < text.length) : charAt text i = some text[i] := by
  rw [charAt, if_pos (by omega), Int.toNat_natCast, List.getElem?_eq_getElem h]

/-- One pass is `splitStep`. -/
theorem splitLoop_step {text : QString} {lastindex : Int} {i : Nat} (h : i + 1 < text.length)
    (acc : QString × QString) :
    splitLoop text text.length lastindex i acc.1 acc.2 =
      splitLoop text text.length lastindex (i + 1 : Nat)
        (splitStep text lastindex acc i).1 (splitStep text lastindex acc i).2 := by
  have hi : i < text.length := by omega
  have hat : text[i]?.toList = [text[i]] := by rw [List.getElem?_eq_getElem hi]; rfl
  rw [splitLoop, if_pos (by omega), charAt_of_lt hi, splitStep, hat]
  split
  · rfl
  · split
    · rfl
    · rfl

theorem splitLoop_eq (text : QString) (lastindex : Int) (n i : Nat) (acc : QString × QString)
    (h : i + n = text.length - 1) :
    splitLoop text text.length lastindex i acc.1 acc.2 =
      some ((List.range' i n).foldl (splitStep text lastindex) acc) := by
  induction n generalizing i acc with
  | zero =>
    rw [splitLoop, if_neg (by omega)]
    rfl
  | succ n ih =>
    rw [splitLoop_step (by omega), ih (i + 1) _ (by omega), List.range'_succ, List.foldl_cons]

/-- No text makes the loop read outside it, the empty one included. -/
theorem readEntry_eq (text : QString) : readEntry text = some (splitEntry text) := by
  have h := splitLoop_eq text (lastIndexOf '(' text) (text.length - 1) 0 ([], []) (Nat.zero_add _)
  rw [← List.range_eq_range'] at h
  exact h

theorem lastIndexOf_of_not_mem {c : Char} {text : QString} (h : c ∉ text) :
    lastIndexOf c text = -1 := by
  induction text with
  | nil => rfl
  | cons d text ih =>
    have hd : d ≠ c := fun he => h (he ▸ List.mem_cons_self)
    have htext := ih fun hm => h (List.mem_cons_of_mem d hm)
    rw [lastIndexOf, htext, if_neg (by decide), if_neg hd]

theorem lastIndexOf_of_cut {c : Char} {text l r : QString} (h : LastCut c text l r) :
    lastIndexOf c text = l.length := by
  induction l generalizing text with
  | nil =>
    rw [h.text_eq, List.nil_append, lastIndexOf, lastIndexOf_of_not_mem h.last,
      if_neg (by decide), if_pos rfl]
    rfl
  | cons d l ih =>
    have hl : lastIndexOf c (l ++ c :: r) = l.length := ih ⟨rfl, h.last⟩
    rw [h.text_eq, List.cons_append, lastIndexOf, hl, if_pos (by omega), List.length_cons]
    rfl

/-- What the loop has read before index `n`. -/
def readBefore (text : QString) (lastindex : Int) (n : Nat) : QString × QString :=
  ((text.take n).take lastindex.toNat, (text.take n).drop (lastindex + 1).toNat)

theorem splitStep_readBefore {text : QString} {lastindex : Int} {i : Nat} (h : i < text.length)
    (hlast : -1 ≤ lastindex) :
    splitStep text lastindex (readBefore text lastindex i) i =
      readBefore text lastindex (i + 1) := by
  have hlen : (text.take i).length = i := List.length_take_of_le (by omega)
  have hat : text[i]?.toList = [text[i]] := by rw [List.getElem?_eq_getElem h]; rfl
  have hlen' : (text.take i ++ [text[i]]).length = i + 1 := by
    rw [List.length_append, hlen, List.length_singleton]
  unfold splitStep readBefore
  rw [hat, List.take_succ_eq_append_getElem h]
  -- behind the parenthesis, before it, or at it, where nothing is read
  split
  · rw [List.take_append_of_le_length (by omega), List.drop_append_of_le_length (by omega)]
  · rw [List.drop_eq_nil_of_le (by omega), List.drop_eq_nil_of_le (by omega)]
    split
    · have hall : (text.take i).take lastindex.toNat = text.take i :=
        List.take_of_length_le (by omega)
      have hall' : (text.take i ++ [text[i]]).take lastindex.toNat = text.take i ++ [text[i]] :=
        List.take_of_length_le (by omega)
      rw [hall, hall']
    · rw [List.take_append_of_le_length (by omega)]

theorem foldl_splitStep {text : QString} {lastindex : Int} (hlast : -1 ≤ lastindex) (n : Nat)
    (h : n ≤ text.length) :
    (List.range n).foldl (splitStep text lastindex) ([], []) = readBefore text lastindex n := by
  induction n with
  | zero => simp [readBefore]
  | succ n ih =>
    rw [List.range_succ, List.foldl_append, ih (by omega), List.foldl_cons, List.foldl_nil,
      splitStep_readBefore (by omega) hlast]

/-- The name is what stands before the last parenthesis, the address what stands
behind it, without the last character of the text. -/
theorem splitEntry_of_cut {text l r : QString} (h : LastCut '(' text l r) :
    splitEntry text = (l, r.dropLast) := by
  have hsplit : text = (l ++ ['(']) ++ r := by rw [h.text_eq, List.append_assoc]; rfl
  have hlen : text.length = (l ++ ['(']).length + r.length := by rw [hsplit, List.length_append]
  rw [List.length_append, List.length_singleton] at hlen
  have hname : text.take l.length = l := by
    rw [h.text_eq]
    exact List.take_left' rfl
  have hip : text.drop (l.length + 1) = r := by
    rw [hsplit]
    exact List.drop_left' (by rw [List.length_append, List.length_singleton])
  rw [splitEntry, lastIndexOf_of_cut h, foldl_splitStep (by omega) _ (by omega), readBefore,
    List.take_take, Nat.min_eq_left (by omega), List.drop_take, Int.toNat_natCast, hname,
    show ((l.length : Int) + 1).toNat = l.length + 1 from rfl, hip, List.dropLast_eq_take,
    show text.length - 1 - (l.length + 1) = r.length - 1 by omega]

/-- A text without a parenthesis has no name. -/
theorem splitEntry_of_not_mem {text : QString} (h : '(' ∉ text) :
    splitEntry text = ([], text.dropLast) := by
  rw [splitEntry, lastIndexOf_of_not_mem h, foldl_splitStep (by omega) _ (by omega), readBefore,
    List.dropLast_eq_take]
  rfl

/-- Whatever the text, no parenthesis is read into the address. -/
theorem not_mem_serverip (text : QString) : '(' ∉ (splitEntry text).2 := by
  by_cases h : '(' ∈ text
  · obtain ⟨l, r, hc⟩ := lastCut_of_mem h
    rw [splitEntry_of_cut hc]
    exact fun hm => hc.last (List.dropLast_subset _ hm)
  · rw [splitEntry_of_not_mem h]
    exact fun hm => h (List.dropLast_subset _ hm)

/-- The parenthesis the handlers cut at is the last of those behind the name. -/
theorem LastCut.item {serverip l r : QString} (servername : QString)
    (h : LastCut '(' ('(' :: serverip) l r) :
    LastCut '(' (itemText servername serverip) (servername ++ l) (r ++ [')']) :=
  (h.append_right (by decide)).append_left servername

theorem lastCut_itemText {serverip : QString} (servername : QString) (h : '(' ∉ serverip) :
    LastCut '(' (itemText servername serverip) servername (serverip ++ [')']) := by
  have hc : LastCut '(' ('(' :: serverip) [] serverip := ⟨rfl, h⟩
  have hitem := hc.item servername
  rw [List.append_nil] at hitem
  exact hitem

theorem splitEntry_itemText {servername serverip l r : QString}
    (h : LastCut '(' ('(' :: serverip) l r) :
    splitEntry (itemText servername serverip) = (servername ++ l, r) := by
  rw [splitEntry_of_cut (h.item servername), List.dropLast_concat]

example : splitEntry (itemText ['a'] ['b', '(', 'c']) = (['a', '(', 'b'], ['c']) := by decide

theorem splitEntry_itemText_iff (servername serverip : QString) :
    splitEntry (itemText servername serverip) = (servername, serverip) ↔ '(' ∉ serverip := by
  constructor
  · intro h
    have hip := not_mem_serverip (itemText servername serverip)
    rw [h] at hip
    exact hip
  · intro h
    rw [splitEntry_of_cut (lastCut_itemText servername h), List.dropLast_concat]

/-- Name and address may come back shifted, but they make the same text, and
nothing of the name is lost. -/
theorem itemText_splitEntry (servername serverip : QString) :
    ∃ l r, splitEntry (itemText servername serverip) = (servername ++ l, r) ∧
      itemText (servername ++ l) r = itemText servername serverip := by
  obtain ⟨l, r, hc⟩ := lastCut_of_mem (List.mem_cons_self : '(' ∈ '(' :: serverip)
  refine ⟨l, r, splitEntry_itemText hc, ?_⟩
  calc itemText (servername ++ l) r
      = servername ++ ((l ++ '(' :: r) ++ [')']) := by simp [itemText]
    _ = servername ++ (('(' :: serverip) ++ [')']) := by rw [← hc.text_eq]
    _ = itemText servername serverip := rfl

/-- Addresses without a parenthesis leave the text one reading. -/
theorem itemText_inj {servername servername' serverip serverip' : QString} (h : '(' ∉ serverip)
    (h' : '(' ∉ serverip')
    (ht : itemText servername serverip = itemText servername' serverip') :
    servername = servername' ∧ serverip = serverip' := by
  have hc := lastCut_itemText servername' h'
  rw [← ht] at hc
  obtain ⟨hname, hip⟩ := (lastCut_itemText servername h).unique hc
  exact ⟨hname, List.append_cancel_right hip⟩

/-- An entry is read back as it was typed exactly when its address has no opening
parenthesis; whatever is read makes the same text, under a name. -/
theorem entries_read_back (e : ServerEntry) :
    (readEntry e.text = some (e.servername, e.serverip) ↔ '(' ∉ e.serverip) ∧
    (∃ servername serverip, readEntry e.text = some (servername, serverip) ∧
      itemText servername serverip = e.text ∧ servername ≠ []) ∧
    (∀ e' : ServerEntry, '(' ∉ e.serverip → '(' ∉ e'.serverip → e.text = e'.text →
      e.servername = e'.servername ∧ e.serverip = e'.serverip) ∧
    readEntry [] = some ([], []) := by
  refine ⟨?_, ?_, fun e' h h' ht => ?_, readEntry_eq []⟩
  · rw [readEntry_eq, Option.some_inj, e.text_eq]
    exact splitEntry_itemText_iff e.servername e.serverip
  · obtain ⟨l, r, hsplit, htext⟩ := itemText_splitEntry e.servername e.serverip
    refine ⟨e.servername ++ l, r, ?_, htext, ?_⟩
    · rw [readEntry_eq, e.text_eq, hsplit]
    · exact List.append_ne_nil_of_left_ne_nil e.servername_ne l
  · exact itemText_inj h h' ht

end Errifier.Text
