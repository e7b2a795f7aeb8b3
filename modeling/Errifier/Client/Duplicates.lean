import Errifier.Client.Address

/-!
# What `fileAlreadyMonitored` keeps apart

The check compares `toUtf8` of the table with `toStdString` of what was typed,
so it recognises a repeated text only where the two conversions agree.
-/
namespace Errifier.Client

set_option autoImplicit false

open Errifier.Text Errifier.Machine

/-- Neither the same friendly name nor the same file on the same server. -/
def Row.Distinct (a b : Row) : Prop :=
  a.friendlyName ≠ b.friendlyName ∧ (a.servername, a.fileloc) ≠ (b.servername, b.fileloc)

instance (a b : Row) : Decidable (a.Distinct b) := inferInstanceAs (Decidable (_ ∧ _))

/-- The check recognises a repeated text exactly when it converts alike. -/
theorem strcmpEq_iff_converts (text : QString) :
    strcmpEq (toUtf8 text) (toStdString text) = true ↔ Converts text := beq_iff_eq

/-- Every text of a row that the watch repeats is ASCII up to its first NUL. -/
def RepeatsAscii (s : State) (e : Event) : Prop :=
  ∀ new ∈ s.starting e, ∀ row ∈ s.model,
    (row.friendlyName = new.friendlyName → (beforeNul new.friendlyName).all isAscii = true) ∧
    (row.servername = new.servername → row.fileloc = new.fileloc →
      (beforeNul new.servername).all isAscii = true ∧ (beforeNul new.fileloc).all isAscii = true)

instance (s : State) (e : Event) : Decidable (RepeatsAscii s e) :=
  inferInstanceAs (Decidable (∀ new ∈ s.starting e, ∀ row ∈ s.model, _ ∧ (_ → _ → _)))

/-- A row that passed the check against `row` is distinct from it exactly when
it repeats ASCII texts only. -/
theorem distinct_iff_ascii {row new : Row}
    (hfree : ((strcmpEq (toUtf8 row.fileloc) (toStdString new.fileloc) &&
        strcmpEq (toUtf8 row.servername) (toStdString new.servername)) ||
      strcmpEq (toUtf8 row.friendlyName) (toStdString new.friendlyName)) = false) :
    row.Distinct new ↔
      (row.friendlyName = new.friendlyName → (beforeNul new.friendlyName).all isAscii = true) ∧
      (row.servername = new.servername → row.fileloc = new.fileloc →
        (beforeNul new.servername).all isAscii = true ∧
        (beforeNul new.fileloc).all isAscii = true) := by
  rw [Bool.or_eq_false_iff] at hfree
  obtain ⟨hpair, hfriendly⟩ := hfree
  simp only [← converts_iff]
  constructor
  · rintro ⟨hne, hnp⟩
    exact ⟨fun he => absurd he hne, fun hs hf => absurd (by rw [hs, hf]) hnp⟩
  · rintro ⟨hname, hfile⟩
    constructor
    · intro he
      have hconv := hname he
      rw [he] at hfriendly
      exact Bool.eq_false_iff.mp hfriendly ((strcmpEq_iff_converts _).mpr hconv)
    · intro he
      obtain ⟨hs, hf⟩ := Prod.mk.inj he
      obtain ⟨hconv, hconv'⟩ := hfile hs hf
      rw [hs, hf, (strcmpEq_iff_converts _).mpr hconv, (strcmpEq_iff_converts _).mpr hconv'] at hpair
      cases hpair

theorem distinct_plain (l : List Row) :
    (l.map Row.plain).Pairwise Row.Distinct ↔ l.Pairwise Row.Distinct := by
  rw [List.pairwise_map]
  exact Iff.rfl

theorem distinct_step {s s' : State} {e : Event} (h : s.listed.Pairwise Row.Distinct)
    (hC : InTable s e) (hs : step s e = some s') :
    s'.listed.Pairwise Row.Distinct ↔ RepeatsAscii s e := by
  rcases starting_cases hC hs with
    ⟨hnone, hsub⟩ | ⟨cur, fileloc, friendlyName, parts, hui, hreq, hsome, rfl⟩
  · constructor
    · intro _ new hnew
      rw [hnone] at hnew
      cases hnew
    · intro _
      exact (distinct_plain _).mp (((distinct_plain _).mpr h).sublist hsub)
  · have hfree := (request_ok hreq).2.2.2
    have hrow : ∀ row ∈ s.model,
        row.Distinct (newRow s cur fileloc friendlyName parts.1) ↔ _ := fun row hr =>
      distinct_iff_ascii (Bool.eq_false_iff.mpr fun ht =>
        Bool.eq_false_iff.mp hfree (List.any_eq_true.mpr ⟨row, hr, ht⟩))
    have hl : s.listed = s.model := listed_of_pending (by rw [hui]; rfl)
    rw [hl] at h
    unfold RepeatsAscii
    rw [listed_started, List.pairwise_append, hsome]
    simp only [Option.mem_some_iff, forall_eq', List.mem_singleton, forall_eq]
    constructor
    · rintro ⟨-, -, hall⟩ row hr
      exact (hrow row hr).mp (hall row hr)
    · intro hall
      exact ⟨h, List.pairwise_singleton _ _, fun row hr => (hrow row hr).mpr (hall row hr)⟩

/-- All along a run without stale `setData` the listed rows are pairwise distinct exactly
when every watch that the run starts repeats ASCII texts only. -/
theorem rows_distinct_iff {es : List Event} (h : Steps step InTable start es) :
    Along step (fun s => s.listed.Pairwise Row.Distinct) start es ↔
      Steps step RepeatsAscii start es :=
  h.along_iff (I := fun _ => True) (fun _ _ _ _ _ _ => trivial)
    (fun _ _ _ _ hP hC hs => distinct_step hP hC hs) trivial List.Pairwise.nil

/-- Two watches on one server. -/
def twoFiles : List Event :=
  [.startWatch 0 ['f'] ['x'] (.found .started), .ui true,
   .startWatch 0 ['g'] ['é'] (.found .started), .ui true]

theorem two_files_distinct : ∃ s, run step start twoFiles = some s ∧ s.model.length = 2 ∧
    s.listed.Pairwise Row.Distinct := by
  refine ⟨_, rfl, rfl, ?_⟩
  exact ((rows_distinct_iff (by decide : Steps step InTable start twoFiles)).mpr
    (by decide)).last rfl

/-- The friendly name `é` is used twice. -/
def accented : List Event :=
  [.startWatch 0 ['f'] ['é'] (.found .started), .ui true,
   .startWatch 0 ['g'] ['é'] (.found .started), .ui true]

theorem accented_name_repeated : ∃ s, run step start accented = some s ∧
    ¬ s.model.Pairwise Row.Distinct := by
  refine ⟨_, rfl, ?_⟩
  decide

end Errifier.Client
