import Errifier.Client.Rows

/-!
# The entries of `threadList` in the client

The handlers erase entries one by one and write cells between steps of watchers. In
every reachable state the entries have cells of their own, and none of these is
stopped. So a stopped cell is the cell of no entry and is written no more. Nothing here
depends on the table.
-/
namespace Errifier.Client

set_option autoImplicit false

open Errifier.Text Errifier.Machine

theorem WorkerThread.Private.step {s s' : State} {e : Event} (h : s.serv.Private)
    (hm : Move s e s') : s'.serv.Private := by
  cases hm with
  | started => exact h.entered _
  | unstarted => exact h.allocated _
  | threadErased _ _ _ _ _ ht => exact h.erased ht
  | locked _ _ _ _ ht => exact h.written (List.mem_of_getElem? ht) (by decide)
  | unlocked _ _ _ _ ht => exact h.written (List.mem_of_getElem? ht) (by decide)
  | readied _ _ _ _ ht => exact h.written (List.mem_of_getElem? ht) (by decide)
  | _ => exact h

theorem private_of_reachable {s : State} (hs : Reachable step start s) : s.serv.Private :=
  hs.invariant (I := fun s => s.serv.Private) (fun _ _ _ h he => h.step (move_of_step he))
    WorkerThread.private_empty

/-- The cell of an entry is not stopped. -/
theorem cell_of_entry {s : State} (h : s.serv.Private) {thread : ThreadWrap}
    (ht : thread ∈ s.serv.threadList) : s.cell thread.runstate ≠ THREAD_STOP := by
  obtain ⟨v, hv, hne⟩ := h.live thread ht
  rw [State.cell, List.getD_eq_getElem?_getD, hv]
  exact hne

/-- No cell leaves THREAD_STOP again. -/
theorem cell_stopped {s s' : State} {e : Event} (hm : Move s e s') (hp : s.serv.Private) {c : Nat}
    (h : s.cell c = THREAD_STOP) : s'.cell c = THREAD_STOP := by
  have hlt : c < s.serv.cells.length := by
    by_contra hge
    rw [State.cell, List.getD_eq_default _ _ (Nat.le_of_not_lt hge)] at h
    cases h
  have hwritten : ∀ {thread : ThreadWrap} (v : Int), thread ∈ s.serv.threadList →
      (s.serv.setState thread v).cells.getD c 0 = THREAD_STOP := by
    intro thread v ht
    have hne : ¬ (thread.runstate = c ∧ c < s.serv.cells.length) :=
      fun hb => cell_of_entry hp ht (hb.1.symm ▸ h)
    rw [cell_setState, if_neg hne]
    exact h
  cases hm with
  | started => rw [cell_append rfl hlt, h]
  | unstarted => rw [cell_append rfl hlt, h]
  | threadErased ok n i thread hui ht hname =>
    have hset := cell_setState s thread THREAD_STOP c
    split at hset
    · exact hset
    · exact hset.trans h
  | locked ok rowid thread hui ht => exact hwritten _ (List.mem_of_getElem? ht)
  | unlocked ok rowid thread hui ht => exact hwritten _ (List.mem_of_getElem? ht)
  | readied rowid serverip thread hui ht => exact hwritten _ (List.mem_of_getElem? ht)
  | _ => exact h

end Errifier.Client
