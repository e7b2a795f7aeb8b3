import Errifier.Client.Table
import Errifier.Client.Watch
import Errifier.Machine.EraseLoop
import Mathlib.Data.List.Nodup

/-!
# `WorkerThread`: the list of threads and their run-state cells

A `ThreadWrap` holds a pointer to its run-state cell and is copied into the
list, so cells are addressed: `cells` is the heap of every `new int(THREAD_RUN)`
so far and a pointer is an index into it. Cells are never freed.
-/
namespace Errifier.Client

set_option autoImplicit false

open Errifier.Text Errifier.Machine

structure ThreadWrap where
  servername : StdString
  runstate : Nat
  deriving DecidableEq

structure WorkerThread where
  threadList : List ThreadWrap
  cells : List Int

namespace WorkerThread

/-- What opening the connection and creating the thread come to: `open()`
throws, `boost::thread()` throws, or the thread runs. -/
inductive ThreadOutcome where
  | refused
  | noThread
  | started
  deriving DecidableEq

/-- `ThreadWrap(servername)` -/
def newThreadWrap (w : WorkerThread) (servername : StdString) : WorkerThread × ThreadWrap :=
  ({ w with cells := w.cells ++ [THREAD_RUN] }, ⟨servername, w.cells.length⟩)

/-- `ThreadWrap::setState` -/
def setState (w : WorkerThread) (thread : ThreadWrap) (state : Int) : WorkerThread :=
  { w with cells := w.cells.set thread.runstate state }

/-- `startNewThread`: 1 with the new watcher, or -100. The cell is allocated
before the thread is created, and stays allocated when that throws. -/
def startNewThread (w : WorkerThread) (filename ip friendlyname servername : StdString) :
    ThreadOutcome → WorkerThread × List Watcher × Int
  | .refused => (w, [], -100)
  | .noThread => ((w.newThreadWrap servername).1, [], -100)
  | .started =>
    let (w, thread) := w.newThreadWrap servername
    ({ w with threadList := w.threadList ++ [thread] },
      [⟨⟨thread.runstate, filename, ip, friendlyname, servername⟩, .init⟩], 1)

/-- `threadList.at(i).setState(state)`, none when `at` throws `out_of_range`. -/
def setStateAt (w : WorkerThread) (i : Nat) (state : Int) : Option WorkerThread :=
  w.threadList[i]?.map fun thread => w.setState thread state

def setThreadLock (w : WorkerThread) (threadnumber : Nat) : Option WorkerThread :=
  w.setStateAt threadnumber THREAD_LOCK

def setThreadRun (w : WorkerThread) (threadnumber : Nat) : Option WorkerThread :=
  w.setStateAt threadnumber THREAD_RUN

/-- The thread that `startTimedoutThread` creates on an existing cell. -/
def respawn (w : WorkerThread) (filename ip friendlyname servername : StdString)
    (threadNum : Nat) : Option Watcher :=
  w.threadList[threadNum]?.map fun thread =>
    ⟨⟨thread.runstate, filename, ip, friendlyname, servername⟩, .init⟩

/-- One pass of the loop of `removeServer` at index `i`, with the next index;
none when the loop test fails. -/
def removeServerAt (w : WorkerThread) (servername : StdString) (i : Nat) :
    Option (WorkerThread × Nat) :=
  match w.threadList[i]? with
  | none => none
  | some thread =>
    if servername = thread.servername then
      let w := w.setState thread THREAD_STOP
      some ({ w with threadList := w.threadList.eraseIdx i }, i)
    else some (w, i + 1)

/-- The loop from index `i`, at most `n` passes. -/
def removeServerFrom (servername : StdString) : Nat → WorkerThread → Nat → WorkerThread
  | 0, w, _ => w
  | n + 1, w, i =>
    match w.removeServerAt servername i with
    | none => w
    | some (w, i) => removeServerFrom servername n w i

/-- Each pass erases an entry or steps over one, so as many passes as there
are entries end the loop. -/
def removeServer (w : WorkerThread) (servername : StdString) : WorkerThread :=
  removeServerFrom servername w.threadList.length w 0

/-- `servername.compare(_servername) == 0` -/
def named (servername : StdString) (thread : ThreadWrap) : Bool := servername == thread.servername

/-- `setState(THREAD_STOP)` on the heap of cells. -/
def stop (thread : ThreadWrap) (cells : List Int) : List Int :=
  cells.set thread.runstate THREAD_STOP

/-- The loop body is the erasing step whose side effect stops the thread. -/
theorem removeServerAt_eq (w : WorkerThread) (servername : StdString) (i : Nat) :
    w.removeServerAt servername i =
      (eraseStep (named servername) stop w.threadList w.cells i).map
        fun r => (⟨r.1, r.2.1⟩, r.2.2) := by
  unfold removeServerAt eraseStep
  cases w.threadList[i]? with
  | none => rfl
  | some thread =>
    by_cases h : servername = thread.servername
    · simp [h, named, setState, stop]
    · simp [h, named]

theorem removeServerFrom_eq (servername : StdString) (n : Nat) (w : WorkerThread) (i : Nat) :
    removeServerFrom servername n w i =
      ⟨(eraseLoop (named servername) stop n w.threadList w.cells i).1,
        (eraseLoop (named servername) stop n w.threadList w.cells i).2⟩ := by
  induction n generalizing w i with
  | zero => rfl
  | succ n ih =>
    unfold removeServerFrom eraseLoop
    rw [removeServerAt_eq]
    cases eraseStep (named servername) stop w.threadList w.cells i with
    | none => rfl
    | some r => exact ih _ _

/-- `removeServer` leaves the entries of other names in order and stops the
others one after the other. -/
theorem removeServer_eq (w : WorkerThread) (servername : StdString) :
    w.removeServer servername =
      ⟨survivors (named servername) w.threadList,
        (w.threadList.filter (named servername)).foldl (fun cells t => stop t cells) w.cells⟩ := by
  unfold removeServer
  rw [removeServerFrom_eq, eraseLoop_all]

/-- The entries have cells of their own, and none of these is stopped. -/
structure Private (w : WorkerThread) : Prop where
  nodup : (w.threadList.map (·.runstate)).Nodup
  live : ∀ thread ∈ w.threadList, ∃ v, w.cells[thread.runstate]? = some v ∧ v ≠ THREAD_STOP

theorem private_empty : Private ⟨[], []⟩ := by
  constructor
  · exact List.nodup_nil
  · intro thread ht; cases ht

section Private
variable {w : WorkerThread} (h : Private w)
include h

theorem Private.fresh {thread : ThreadWrap} (ht : thread ∈ w.threadList) :
    thread.runstate < w.cells.length := by
  obtain ⟨v, hv, -⟩ := h.live thread ht
  exact (List.getElem?_eq_some_iff.mp hv).1

/-- Entries with the same cell are the same entry. -/
theorem Private.unique {a b : ThreadWrap} (ha : a ∈ w.threadList) (hb : b ∈ w.threadList)
    (hc : a.runstate = b.runstate) : a = b :=
  List.inj_on_of_nodup_map h.nodup ha hb hc

theorem Private.allocated (extra : List Int) : Private ⟨w.threadList, w.cells ++ extra⟩ := by
  refine ⟨h.nodup, fun thread ht => ?_⟩
  rw [List.getElem?_append_left (h.fresh ht)]
  exact h.live thread ht

theorem Private.entered (servername : StdString) :
    Private ⟨w.threadList ++ [⟨servername, w.cells.length⟩], w.cells ++ [THREAD_RUN]⟩ := by
  constructor
  · rw [List.map_append]
    refine h.nodup.append (List.nodup_singleton _) (List.disjoint_singleton.mpr fun hmem => ?_)
    obtain ⟨thread, ht, hcell⟩ := List.mem_map.mp hmem
    have hlt := h.fresh ht
    change thread.runstate = w.cells.length at hcell
    omega
  · intro thread ht
    rcases List.mem_append.mp ht with ht | ht
    · exact (h.allocated [THREAD_RUN]).live thread ht
    · rw [List.mem_singleton.mp ht]
      exact ⟨THREAD_RUN, List.getElem?_concat_length, by decide⟩

theorem Private.written {thread : ThreadWrap} (ht : thread ∈ w.threadList) {v : Int}
    (hv : v ≠ THREAD_STOP) : Private (w.setState thread v) := by
  refine ⟨h.nodup, fun other ho => ?_⟩
  by_cases hsame : thread.runstate = other.runstate
  · rw [← hsame]
    exact ⟨v, List.getElem?_set_self (h.fresh ht), hv⟩
  · obtain ⟨v', hv', hne⟩ := h.live other ho
    exact ⟨v', (List.getElem?_set_ne hsame).trans hv', hne⟩

/-- The other entries have other cells than the one that is erased. -/
theorem Private.apart {i : Nat} {thread other : ThreadWrap} (ht : w.threadList[i]? = some thread)
    (ho : other ∈ w.threadList.eraseIdx i) : thread.runstate ≠ other.runstate := by
  obtain ⟨hlt, -⟩ := List.getElem?_eq_some_iff.mp ht
  obtain ⟨k, hki, hk⟩ := List.mem_eraseIdx_iff_getElem?.mp ho
  intro he
  refine hki.symm ((List.getElem?_inj (by rw [List.length_map]; exact hlt) h.nodup).mp ?_)
  rw [List.getElem?_map, List.getElem?_map, ht, hk]
  exact congrArg some he

theorem Private.erased {i : Nat} {thread : ThreadWrap} (ht : w.threadList[i]? = some thread) :
    Private ⟨w.threadList.eraseIdx i, w.cells.set thread.runstate THREAD_STOP⟩ := by
  constructor
  · exact h.nodup.sublist ((List.eraseIdx_sublist _ _).map _)
  · intro other ho
    obtain ⟨v, hv, hne⟩ := h.live other (List.mem_of_mem_eraseIdx ho)
    exact ⟨v, (List.getElem?_set_ne (h.apart ht ho)).trans hv, hne⟩

end Private

end WorkerThread

open WorkerThread (stop)

/-- A pass shortens the list or advances the index. -/
theorem removeServerAt_progress {servername : StdString} {w w' : WorkerThread} {i j : Nat}
    (h : w.removeServerAt servername i = some (w', j)) :
    w'.threadList.length + i < w.threadList.length + j := by
  rw [WorkerThread.removeServerAt_eq] at h
  obtain ⟨⟨l, cells, k⟩, hr, he⟩ := Option.map_eq_some_iff.mp h
  obtain ⟨rfl, rfl⟩ := Prod.mk.inj he
  exact eraseStep_progress hr

theorem getElem?_foldl_stop (l : List ThreadWrap) (cells : List Int) {c : Nat}
    (h : ∀ thread ∈ l, thread.runstate ≠ c) :
    (l.foldl (fun cells thread => stop thread cells) cells)[c]? = cells[c]? := by
  induction l generalizing cells with
  | nil => rfl
  | cons thread l ih =>
    rw [List.foldl_cons, ih _ fun t ht => h t (List.mem_cons_of_mem _ ht)]
    exact List.getElem?_set_ne (h thread (List.mem_cons_self ..))

end Errifier.Client
