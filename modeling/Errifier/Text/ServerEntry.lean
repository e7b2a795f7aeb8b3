import Errifier.Text.QString

/-!
# Entries of the server list

The list shows a server as `name(address)`, and the handlers take name and
address back out of that text. An entry is kept here as the pair that was typed;
every reader of the list sees `text` only.
-/
namespace Errifier.Text

set_option autoImplicit false

/-- An entry that `addServerHandler` admits: neither field is empty. -/
structure ServerEntry where
  servername : QString
  serverip : QString
  servername_ne : servername ≠ []
  serverip_ne : serverip ≠ []
  deriving DecidableEq

/-- `servername + "(" + serverip + ")"` -/
def ServerEntry.text (e : ServerEntry) : QString :=
  e.servername ++ '(' :: (e.serverip ++ [')'])

/-- The item the list starts with, `HOST(127.0.0.1)`. -/
def host : ServerEntry where
  servername := ['H', 'O', 'S', 'T']
  serverip := ['1', '2', '7', '.', '0', '.', '0', '.', '1']
  servername_ne := by decide
  serverip_ne := by decide

/-- `QString::lastIndexOf`, -1 when the character does not occur. -/
def lastIndexOf (c : Char) : QString → Int
  | [] => -1
  | d :: s => if 0 ≤ lastIndexOf c s then lastIndexOf c s + 1 else if d = c then 0 else -1

/-- One pass of the loop body: `at(i)` goes to the address when it is past the
last parenthesis, to the name when it is before it. -/
def splitStep (text : QString) (lastindex : Int) (acc : QString × QString) (i : Nat) :
    QString × QString :=
  if (i : Int) > lastindex then (acc.1, acc.2 ++ text[i]?.toList)
  else if (i : Int) < lastindex then (acc.1 ++ text[i]?.toList, acc.2)
  else acc

/-- `(servername, serverip)` as the remove, ping and start handlers read them,
for `i` from 0 while `i < length - 1`. -/
def splitEntry (text : QString) : QString × QString :=
  (List.range (text.length - 1)).foldl (splitStep text (lastIndexOf '(' text)) ([], [])

example : splitEntry host.text = (host.servername, host.serverip) := by decide

end Errifier.Text
