import Errifier.Server.GetLog

/-!
# The log setting and its dialog

`setting` says how much of a log is asked for; `setLogOption` shows it in a dialog
and reads it back. The two radio buttons exclude each other, and the field for the
number of lines is enabled while the second one is checked.
-/
namespace Errifier.Client

set_option autoImplicit false

open Errifier.Text
open Errifier.Server (literal command)

/-- `checkbox` is 1 for the entire log. -/
structure ReturnLogSetting where
  checkbox : Int32
  logLines : StdString
  deriving DecidableEq

/-- What the constructor of `errifierui` sets. -/
def defaultSetting : ReturnLogSetting := ⟨1, literal ['0']⟩

/-- `QString(const char *)`: without a codec Qt 4 takes every byte up to the NUL as
a Latin-1 character. -/
def ofCString (b : StdString) : QString := (cString b).map fun c => Char.ofNat c.toNat

/-- `enabled` is that of `lines_qty`. -/
structure LogDialog where
  entirelog : Bool
  lastsomeline : Bool
  lines_qty : QString
  enabled : Bool
  deriving DecidableEq

/-- What the user does before closing the dialog. -/
inductive LogInput where
  | entirelog
  | lastsomeline
  | lines_qty (text : QString)

namespace LogDialog

/-- `entirelog` is checked; `lastsomeline`, when it was, is toggled. -/
def checkEntirelog (d : LogDialog) : LogDialog :=
  { d with entirelog := true, lastsomeline := false, enabled := d.enabled && !d.lastsomeline }

def checkLastsomeline (d : LogDialog) : LogDialog :=
  if d.lastsomeline then d
  else { d with entirelog := false, lastsomeline := true, enabled := true }

/-- "Showing Pevious Log Setting" -/
def ofSetting (setting_in : ReturnLogSetting) : LogDialog :=
  if setting_in.checkbox = 1 then checkEntirelog ⟨false, false, [], false⟩
  else checkLastsomeline ⟨false, false, ofCString setting_in.logLines, true⟩

def act (d : LogDialog) : LogInput → LogDialog
  | .entirelog => d.checkEntirelog
  | .lastsomeline => d.checkLastsomeline
  | .lines_qty text => if d.enabled then { d with lines_qty := text } else d

/-- What is read when the dialog is closed. -/
def setting (d : LogDialog) : ReturnLogSetting :=
  if d.entirelog then ⟨1, literal ['0']⟩
  else ⟨0, if 0 < d.lines_qty.length then toStdString d.lines_qty else literal ['0']⟩

end LogDialog

def setLogOption (setting_in : ReturnLogSetting) (inputs : List LogInput) : ReturnLogSetting :=
  (inputs.foldl LogDialog.act (.ofSetting setting_in)).setting

/-- `logSettingHandler`, one dialog after the other. -/
def logSettings (dialogs : List (List LogInput)) : ReturnLogSetting :=
  dialogs.foldl setLogOption defaultSetting

/-- One button is checked, and the field is enabled for the second one only. -/
def LogDialog.Exclusive (d : LogDialog) : Prop :=
  d.lastsomeline = !d.entirelog ∧ d.enabled = d.lastsomeline

theorem LogDialog.exclusive_ofSetting (setting_in : ReturnLogSetting) :
    (LogDialog.ofSetting setting_in).Exclusive := by
  unfold LogDialog.ofSetting
  split
  · exact ⟨rfl, rfl⟩
  · exact ⟨rfl, rfl⟩

theorem LogDialog.Exclusive.act {d : LogDialog} (h : d.Exclusive) (i : LogInput) :
    (d.act i).Exclusive := by
  obtain ⟨hbuttons, henabled⟩ := h
  cases i with
  | entirelog => exact ⟨rfl, by simp [LogDialog.act, checkEntirelog, henabled]⟩
  | lastsomeline =>
    simp only [LogDialog.act, checkLastsomeline]
    split
    · exact ⟨hbuttons, henabled⟩
    · exact ⟨rfl, rfl⟩
  | lines_qty text =>
    simp only [LogDialog.act]
    split
    · exact ⟨hbuttons, henabled⟩
    · exact ⟨hbuttons, henabled⟩

theorem LogDialog.Exclusive.acts {d : LogDialog} (h : d.Exclusive) (inputs : List LogInput) :
    (inputs.foldl LogDialog.act d).Exclusive := by
  induction inputs generalizing d with
  | nil => exact h
  | cons i inputs ih => exact ih (h.act i)

/-- What can be set: the entire log, or a number of lines that is not empty. -/
def ReturnLogSetting.Sane (setting : ReturnLogSetting) : Prop :=
  (setting.checkbox = 1 ∧ setting.logLines = literal ['0']) ∨
    (setting.checkbox = 0 ∧ setting.logLines ≠ [])

theorem latin1_ofNat (c : UInt8) : latin1 (Char.ofNat c.toNat) = [c] := by
  have hlt := c.toNat_lt
  have hvalid : c.toNat.isValidChar := Or.inl (by omega)
  have hnat : (Char.ofNat c.toNat).toNat = c.toNat := by
    rw [Char.ofNat, dif_pos hvalid]
    exact UInt32.toNat_ofNatLT
  rw [latin1, hnat, if_pos (by omega), UInt8.ofNat_toNat]

/-- The bytes up to the NUL come back. -/
theorem toStdString_ofCString (b : StdString) : toStdString (ofCString b) = cString b := by
  unfold ofCString toStdString
  induction cString b with
  | nil => rfl
  | cons c w ih => rw [List.map_cons, List.flatMap_cons, ih, latin1_ofNat]; rfl

theorem toStdString_ne_nil {text : QString} (h : text ≠ []) : toStdString text ≠ [] := by
  cases text with
  | nil => exact absurd rfl h
  | cons c text =>
    rw [toStdString_cons]
    refine List.append_ne_nil_of_left_ne_nil ?_ _
    unfold latin1
    split
    · exact List.cons_ne_nil _ _
    · split <;> exact List.cons_ne_nil _ _

theorem LogDialog.setting_sane (d : LogDialog) : d.setting.Sane := by
  unfold LogDialog.setting
  split
  · exact Or.inl ⟨rfl, rfl⟩
  · refine Or.inr ⟨rfl, ?_⟩
    dsimp only
    split
    · rename_i hlen
      exact toStdString_ne_nil (List.ne_nil_of_length_pos hlen)
    · decide

theorem logSettings_sane (dialogs : List (List LogInput)) : (logSettings dialogs).Sane := by
  have hfold : ∀ s : ReturnLogSetting, s.Sane → (dialogs.foldl setLogOption s).Sane := by
    induction dialogs with
    | nil => exact fun s hs => hs
    | cons inputs dialogs ih => exact fun s _ => ih _ (LogDialog.setting_sane _)
  exact hfold _ (Or.inl ⟨rfl, rfl⟩)

/-- What is set when the dialog is closed as it was opened. -/
theorem setLogOption_nil (s : ReturnLogSetting) :
    setLogOption s [] =
      if s.checkbox = 1 then ⟨1, literal ['0']⟩
      else ⟨0, if cString s.logLines = [] then literal ['0'] else cString s.logLines⟩ := by
  unfold setLogOption LogDialog.ofSetting
  by_cases hc : s.checkbox = 1
  · rw [if_pos hc, if_pos hc]
    rfl
  · rw [if_neg hc, if_neg hc]
    change (⟨0, if 0 < (ofCString s.logLines).length then toStdString (ofCString s.logLines)
      else literal ['0']⟩ : ReturnLogSetting) = _
    rw [toStdString_ofCString, ofCString, List.length_map]
    by_cases hnil : cString s.logLines = []
    · rw [hnil, if_neg (by decide), if_pos rfl]
    · rw [if_pos (List.length_pos_iff.mpr hnil), if_neg hnil]

/-- `cat` for the entire log and else `tail` with some number of lines. -/
theorem ReturnLogSetting.Sane.command {setting : ReturnLogSetting} (h : setting.Sane)
    (filename : StdString) :
    (setting.checkbox = 1 ∧ command filename setting.checkbox.toInt setting.logLines =
        literal ['c', 'a', 't', ' '] ++ filename) ∨
      (setting.checkbox = 0 ∧ setting.logLines ≠ [] ∧
        Server.command filename setting.checkbox.toInt setting.logLines =
          literal ['t', 'a', 'i', 'l', ' ', '-', 'n', ' '] ++ setting.logLines ++ literal [' '] ++
            filename) := by
  rcases h with ⟨hc, -⟩ | ⟨hc, hl⟩
  · refine Or.inl ⟨hc, ?_⟩
    rw [hc]
    rfl
  · refine Or.inr ⟨hc, hl, ?_⟩
    rw [hc]
    rfl

/-- After any dialogs a request runs `cat`, or `tail` with a number of lines that
is not empty. In the next dialog just one button is checked at any time and the
field is enabled with the second; and a dialog that is closed as it was opened
changes nothing exactly when no NUL was typed. -/
theorem logSettings_shown (dialogs : List (List LogInput)) :
    (∀ filename : StdString,
      ((logSettings dialogs).checkbox = 1 ∧
        command filename (logSettings dialogs).checkbox.toInt (logSettings dialogs).logLines =
          literal ['c', 'a', 't', ' '] ++ filename) ∨
      ((logSettings dialogs).checkbox = 0 ∧ (logSettings dialogs).logLines ≠ [] ∧
        command filename (logSettings dialogs).checkbox.toInt (logSettings dialogs).logLines =
          literal ['t', 'a', 'i', 'l', ' ', '-', 'n', ' '] ++ (logSettings dialogs).logLines ++
            literal [' '] ++ filename)) ∧
      (∀ inputs : List LogInput,
        (inputs.foldl LogDialog.act (.ofSetting (logSettings dialogs))).Exclusive) ∧
      (setLogOption (logSettings dialogs) [] = logSettings dialogs ↔
        0 ∉ (logSettings dialogs).logLines) := by
  have hsane := logSettings_sane dialogs
  refine ⟨hsane.command, fun inputs => (LogDialog.exclusive_ofSetting _).acts inputs, ?_⟩
  generalize logSettings dialogs = s at hsane
  rw [setLogOption_nil]
  obtain ⟨checkbox, logLines⟩ := s
  rcases hsane with ⟨hc, hl⟩ | ⟨hc, hl⟩
  · dsimp only at hc hl ⊢
    rw [hc, if_pos rfl, hl]
    exact ⟨fun _ => by decide, fun _ => rfl⟩
  · dsimp only at hc hl ⊢
    rw [hc, if_neg (by decide)]
    constructor
    · intro he
      have hlines := congrArg ReturnLogSetting.logLines he
      dsimp only at hlines
      split at hlines
      · rw [← hlines]
        decide
      · rw [← hlines]
        exact zero_not_mem_cString logLines
    · intro hzero
      rw [cString_of_not_mem hzero, if_neg hl]

end Errifier.Client
