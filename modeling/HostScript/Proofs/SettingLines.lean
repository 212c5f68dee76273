import HostScript.Command.Settings
import HostScript.Proofs.Lines
/-!
# Lines of a settings file

Whether a line is understood does not depend on the settings so far, and one that is makes one setting at most. So a
settings file is read as the list of the settings that its accepted lines make: a line that is not understood counts for
nothing and can be deleted, lines that are added go on from where the file ended, and of two settings of one name the
later decides.
-/

set_option autoImplicit false

namespace HostScript

open HostScript.Text

/-! ## What a line says -/

/-- The names of the settings. -/
inductive SettingName where
  | maxLoopTime
  | trace
  | listing
  | scriptName
  | log
deriving DecidableEq

/-- A setting with its value. -/
inductive Setting where
  | maxLoopTime (limit : Option Micros)
  | trace (on : Bool)
  | listing (on : Bool)
  | scriptName (name : Option String)
  | log (wanted : String)

namespace Setting

def name : Setting → SettingName
  | maxLoopTime _ => .maxLoopTime
  | trace _ => .trace
  | listing _ => .listing
  | scriptName _ => .scriptName
  | log _ => .log

/-- Makes a setting. -/
def put (s : Settings) : Setting → Settings
  | maxLoopTime limit => { s with maxLoopTime := limit }
  | trace on => { s with trace := on }
  | listing on => { s with listing := on }
  | scriptName name => { s with scriptName := name }
  | log wanted => { s with log := wanted }

/-- The setting of a name and a value. -/
def parse (name value : String) : Except SettingError Setting :=
  match name with
  | "max_loop_time" => (Settings.timeLimit name value).map .maxLoopTime
  | "trace" => (Settings.number name value).map fun n => .trace (n ≠ 0)
  | "listing" => (Settings.number name value).map fun n => .listing (n ≠ 0)
  | "script_name" => .ok (.scriptName (some (Settings.unquote value)))
  | "log" => .ok (.log (Settings.unquote value))
  | _ => .error (.unknown name)

/-- What a line says: nothing, one setting, or nothing that is understood. -/
def ofLine (line : String) : Except SettingError (Option Setting) :=
  if Settings.isComment (trim line) then .ok none
  else
    match cut '=' (trim line) with
    | none => .error (.noValue (trim line))
    | some (name, value) => (parse (trim name) (trim value)).map some

end Setting

namespace Settings

/-- The setting of a name. -/
def get (s : Settings) : SettingName → Setting
  | .maxLoopTime => .maxLoopTime s.maxLoopTime
  | .trace => .trace s.trace
  | .listing => .listing s.listing
  | .scriptName => .scriptName s.scriptName
  | .log => .log s.log

theorem get_put (s : Settings) (setting : Setting) (name : SettingName) :
    (setting.put s).get name = if setting.name = name then setting else s.get name := by
  cases setting <;> cases name <;> rfl

theorem assign_eq (s : Settings) (name value : String) :
    s.assign name value = (Setting.parse name value).map (Setting.put s) := by
  fun_cases Setting.parse name value with
  | case1 =>
    rw [assign]
    cases timeLimit "max_loop_time" value <;> rfl
  | case2 =>
    rw [assign]
    cases number "trace" value <;> rfl
  | case3 =>
    rw [assign]
    cases number "listing" value <;> rfl
  | case4 => rfl
  | case5 => rfl
  | case6 _ hloop htrace hlisting hscript hlog =>
    rw [assign.eq_6 s name value hloop htrace hlisting hscript hlog]
    rfl

/-- A line is understood or not whatever was set before it. -/
theorem apply_eq (s : Settings) (line : String) :
    s.apply line = (Setting.ofLine line).map fun setting => setting.elim s (Setting.put s) := by
  unfold apply Setting.ofLine
  by_cases hcomment : isComment (trim line)
  · rw [if_pos hcomment, if_pos hcomment]
    rfl
  · rw [if_neg hcomment, if_neg hcomment]
    cases cut '=' (trim line) with
    | none => rfl
    | some parts =>
      change s.assign (trim parts.1) (trim parts.2) = ((Setting.parse (trim parts.1) (trim parts.2)).map some).map _
      rw [assign_eq]
      cases Setting.parse (trim parts.1) (trim parts.2) <;> rfl

/-! ## Lines one after another -/

variable {s : Settings} {n : Nat} {ls ms : List String}

/-- A line that is not understood is reported and left out. -/
theorem applyAll_refused {line : String} {e : SettingError} (h : Setting.ofLine line = .error e) (s : Settings)
    (n : Nat) (ls : List String) :
    s.applyAll n (line :: ls) = ((s.applyAll (n + 1) ls).1, ⟨n, e⟩ :: (s.applyAll (n + 1) ls).2) := by
  rw [applyAll, apply_eq, h]
  rfl

/-- A line that is understood makes its setting, if it has one. -/
theorem applyAll_accepted {line : String} {setting? : Option Setting} (h : Setting.ofLine line = .ok setting?)
    (s : Settings) (n : Nat) (ls : List String) :
    s.applyAll n (line :: ls) = (setting?.elim s (Setting.put s)).applyAll (n + 1) ls := by
  rw [applyAll, apply_eq, h]
  rfl

/-- Faults are numbered from the first line on. -/
theorem le_line_of_mem {fault : SettingFault} (h : fault ∈ (s.applyAll n ls).2) : n ≤ fault.line := by
  induction ls generalizing s n with
  | nil => cases h
  | cons line ls ih =>
    cases hline : Setting.ofLine line with
    | error e =>
      rw [applyAll_refused hline] at h
      rcases List.mem_cons.mp h with rfl | h
      · exact Nat.le_refl _
      · exact Nat.le_of_succ_le (ih h)
    | ok setting? =>
      rw [applyAll_accepted hline] at h
      exact Nat.le_of_succ_le (ih h)

/-- Without the lines at fault none is at fault, and the settings are the same. -/
theorem applyAll_withoutFaults (s : Settings) (m n : Nat) (ls : List String) :
    s.applyAll m (withoutNumbers ((s.applyAll n ls).2.map (·.line)) n ls) = ((s.applyAll n ls).1, []) := by
  induction ls generalizing s m n with
  | nil => rfl
  | cons line ls ih =>
    cases hline : Setting.ofLine line with
    | error e =>
      rw [applyAll_refused hline, List.map_cons, withoutNumbers, if_pos List.mem_cons_self,
        withoutNumbers_passed _ _ (Nat.lt_succ_self n), ih]
    | ok setting? =>
      have hlater : n ∉ (s.applyAll n (line :: ls)).2.map (·.line) := by
        intro hmem
        obtain ⟨fault, hfault, rfl⟩ := List.mem_map.mp hmem
        rw [applyAll_accepted hline] at hfault
        exact Nat.not_succ_le_self _ (le_line_of_mem hfault)
      rw [withoutNumbers, if_neg hlater, applyAll_accepted hline, applyAll_accepted hline]
      exact ih _ (m + 1) (n + 1)

/-- Lines are read one after another. -/
theorem applyAll_append (s : Settings) (n : Nat) (ls ms : List String) :
    s.applyAll n (ls ++ ms) =
      (((s.applyAll n ls).1.applyAll (n + ls.length) ms).1,
        (s.applyAll n ls).2 ++ ((s.applyAll n ls).1.applyAll (n + ls.length) ms).2) := by
  induction ls generalizing s n with
  | nil => rfl
  | cons line ls ih =>
    have hnext : n + (line :: ls).length = n + 1 + ls.length := by rw [List.length_cons]; omega
    rw [List.cons_append, hnext]
    cases hline : Setting.ofLine line with
    | error e =>
      rw [applyAll_refused hline, applyAll_refused hline, ih]
      rfl
    | ok setting? => rw [applyAll_accepted hline, applyAll_accepted hline, ih]

/-- Blanks around lines make no difference. -/
theorem applyAll_trim (h : ls.map trim = ms.map trim) (s : Settings) (n : Nat) :
    s.applyAll n ls = s.applyAll n ms := by
  have hline {line line' : String} (h : trim line = trim line') : Setting.ofLine line = Setting.ofLine line' := by
    unfold Setting.ofLine
    rw [h]
  induction ls generalizing ms s n with
  | nil => rw [List.map_eq_nil_iff.mp h.symm]
  | cons line ls ih =>
    obtain ⟨line', ms, rfl, htrim, hmore⟩ := List.map_eq_cons_iff.mp h.symm
    cases hread : Setting.ofLine line with
    | error e =>
      have hread' := (hline htrim).trans hread
      rw [applyAll_refused hread, applyAll_refused hread', ih hmore.symm]
    | ok setting? =>
      have hread' := (hline htrim).trans hread
      rw [applyAll_accepted hread, applyAll_accepted hread', ih hmore.symm]

/-! ## Which setting counts -/

/-- The settings that the accepted lines make, in their order. -/
def accepted (ls : List String) : List Setting := ls.filterMap fun line => (Setting.ofLine line).toOption.join

/-- The settings after some lines are those that the accepted ones make. -/
theorem applyAll_settings (s : Settings) (n : Nat) (ls : List String) :
    (s.applyAll n ls).1 = (accepted ls).foldl Setting.put s := by
  induction ls generalizing s n with
  | nil => rfl
  | cons line ls ih =>
    rw [accepted, List.filterMap_cons]
    cases hline : Setting.ofLine line with
    | error e =>
      rw [applyAll_refused hline]
      exact ih s (n + 1)
    | ok setting? =>
      rw [applyAll_accepted hline]
      cases setting? with
      | none => exact ih s (n + 1)
      | some setting => exact ih (setting.put s) (n + 1)

/-- Of the settings of one name the last one stays. -/
theorem get_foldl (s : Settings) (settings : List Setting) (name : SettingName) :
    (settings.foldl Setting.put s).get name = (settings.filter (·.name = name)).getLastD (s.get name) := by
  induction settings generalizing s with
  | nil => rfl
  | cons setting settings ih =>
    rw [List.foldl_cons, ih, get_put]
    by_cases hname : setting.name = name
    · rw [if_pos hname, List.filter_cons_of_pos (by simpa using hname), List.getLastD_cons]
    · rw [if_neg hname, List.filter_cons_of_neg (by simpa using hname)]

/-- **Lines that are not understood**: for every text of a settings file, without the lines that are reported nothing is
reported, and the settings are the same. A text with more lines behind it goes on from the settings and the reports
of the text. For each name the last accepted line decides, or the standard setting if there is none. -/
theorem load_accepted (text : String) :
    load (withoutLines ((load text).2.map (·.line)) text) = ((load text).1, []) ∧
    (∀ more : String,
      load (appendLines text more) =
        (((load text).1.applyAll ((lines text).length + 1) (lines more)).1,
          (load text).2 ++ ((load text).1.applyAll ((lines text).length + 1) (lines more)).2)) ∧
    ∀ name : SettingName,
      (load text).1.get name = ((accepted (lines text)).filter (·.name = name)).getLastD (standard.get name) := by
  refine ⟨?_, fun more => ?_, fun name => ?_⟩
  · unfold load
    rw [lines_withoutLines, applyAll_withoutFaults]
  · unfold load
    rw [applyAll_trim ((trim_lines_appendLines text more).trans List.map_append.symm), applyAll_append,
      Nat.add_comm (lines text).length]
  · rw [load, applyAll_settings, get_foldl]

end Settings

end HostScript
