import Errifier.Text.ServerEntry

/-!
# The table of watches

A row is one line of the `QStandardItemModel`: the four texts the user sees. Two
further fields are history that no function reads: `watch` is the run-state cell
of the watch the row was added for, and `entry` the list entry that was selected
when it was started. An index is a row number that nothing keeps up to date.
-/
namespace Errifier.Client

set_option autoImplicit false

open Errifier.Text

def active : QString := ['A', 'c', 't', 'i', 'v', 'e']
def paused : QString := ['P', 'a', 'u', 's', 'e', 'd']

/-- "Connection Error" -/
def connectionError : QString :=
  ['C', 'o', 'n', 'n', 'e', 'c', 't', 'i', 'o', 'n', ' ', 'E', 'r', 'r', 'o', 'r']

structure Row where
  servername : QString
  fileloc : QString
  friendlyName : QString
  status : QString
  watch : Nat
  entry : Option ServerEntry
  deriving DecidableEq

/-- The cell says that the file is being watched or only paused. -/
def Row.Alive (row : Row) : Prop := row.status = active ∨ row.status = paused

instance (row : Row) : Decidable row.Alive :=
  inferInstanceAs (Decidable (row.status = active ∨ row.status = paused))

/-- A row that `setData` makes: no item in it, and no watch it was added for. -/
def Row.blank : Row := ⟨[], [], [], [], 0, none⟩

/-- `model->setData(index, v)` for an index taken as `model->index(i, 3)`. Where row
`i` has been erased since, the item is made anew and the table grows up to it. -/
def setStatus (model : List Row) (i : Nat) (v : QString) : List Row :=
  (model ++ List.replicate (i + 1 - model.length) Row.blank).modify i
    fun row => { row with status := v }

/-- `model->index(i, column).data().toString()`, empty for an index outside. -/
def dataAt (model : List Row) (i : Nat) (column : Row → QString) : QString :=
  model[i]?.elim [] column

theorem setStatus_of_lt {model : List Row} {i : Nat} (h : i < model.length) (v : QString) :
    setStatus model i v = model.modify i fun row => { row with status := v } := by
  rw [setStatus, Nat.sub_eq_zero_of_le h, List.replicate_zero, List.append_nil]

theorem length_setStatus (model : List Row) (i : Nat) (v : QString) :
    (setStatus model i v).length = max model.length (i + 1) := by
  rw [setStatus, List.length_modify, List.length_append, List.length_replicate]
  omega

theorem length_setStatus_of_lt {model : List Row} {i : Nat} (h : i < model.length) (v : QString) :
    (setStatus model i v).length = model.length := by
  rw [length_setStatus]
  omega

/-- A row that was there, after the write. -/
theorem getElem?_setStatus_of_lt {model : List Row} {j : Nat} (hj : j < model.length) (i : Nat)
    (v : QString) :
    (setStatus model i v)[j]? =
      if i = j then model[j]?.map (fun row => { row with status := v }) else model[j]? := by
  rw [setStatus, List.getElem?_modify, List.getElem?_append_left hj]
  split <;> simp

theorem getElem?_setStatus {model : List Row} {i : Nat} (h : i < model.length) (j : Nat)
    (v : QString) :
    (setStatus model i v)[j]? =
      if i = j then model[j]?.map (fun row => { row with status := v }) else model[j]? := by
  rw [setStatus_of_lt h, List.getElem?_modify]
  split <;> simp

/-- A write leaves what any other reader sees of the rows that were there. -/
theorem map_prefix_setStatus {β : Type} (f : Row → β)
    (hf : ∀ (row : Row) (v : QString), f { row with status := v } = f row)
    (model : List Row) (i : Nat) (v : QString) :
    model.map f <+: (setStatus model i v).map f := by
  have hle : model.length ≤ (setStatus model i v).length := by
    rw [length_setStatus]
    exact Nat.le_max_left _ _
  refine List.prefix_iff_getElem?.mpr fun j hj => ?_
  rw [List.length_map] at hj
  rw [List.getElem?_map, getElem?_setStatus_of_lt hj, List.getElem_map,
    List.getElem?_eq_getElem hj]
  split
  · exact congrArg some (hf _ v)
  · rfl

/-- A write to a row that is there adds none. -/
theorem map_setStatus {β : Type} (f : Row → β)
    (hf : ∀ (row : Row) (v : QString), f { row with status := v } = f row)
    {model : List Row} {i : Nat} (h : i < model.length) (v : QString) :
    (setStatus model i v).map f = model.map f := by
  refine ((map_prefix_setStatus f hf model i v).eq_of_length ?_).symm
  rw [List.length_map, List.length_map, length_setStatus_of_lt h]

theorem dataAt_of_getElem? {model : List Row} {i : Nat} {row : Row} (h : model[i]? = some row)
    (column : Row → QString) : dataAt model i column = column row := by
  simp [dataAt, h]

end Errifier.Client
