import LuaIde.CheckedFold
import LuaIde.LdbHook

/-! What one handled command leaves behind: the mode, the breakpoint lists, the event
lines, and whether the parser is left. The words of the line decide all of it. -/
namespace LuaIde

open LineText DecimalText Delimited CheckedFold

/-- The words of a command line as `strtok` finds them. -/
def commandWords (data : Text) : List Text := words ' ' (commandLine (lineBuffer data))

def commandOf (data : Text) : Option Command := (commandWords data).head?.map dispatch

/-- The mode a command selects. -/
def selectedMode : Command → Option ℤ
  | .step => some STEPPING
  | .resume | .quit => some CONTINUING
  | _ => none

/-- The line number a break or clear command carries. -/
def lineArgument (args : List Text) : Option CInt :=
  (args[0]?.map atoi).filter (fun n => decide (n.val ≠ 0))

/-- The breakpoint list of the stopped script behind a command. -/
def editedList (c : Command) (args : List Text) (list : List CInt) : List CInt :=
  match c, lineArgument args with
  | .setbreak, some n => list ++ [n]
  | .clrbreak, some n => list.erase n
  | _, _ => list

/-- The globals of ldb behind a command. -/
def Ldb.execute (d : Ldb) (source : Text) (c : Command) (args : List Text) : Ldb :=
  { d with
    debuggerStates := (selectedMode c).getD d.debuggerStates
    allScriptsBreakpoints := Function.update d.allScriptsBreakpoints source
      (editedList c args (d.allScriptsBreakpoints source)) }

/-- The lines a command writes on the event socket. -/
def commandEvents (dbg : DebuggerType) : Command → Text
  | .suspend => toIde dbg (txt "suspended client")
  | .step =>
    let resumed := toIde dbg (txt "resumed step")
    resumed ++ (resumed ++ toIde dbg (txt "suspended step"))
  | .resume => toIde dbg (txt "resumed client")
  | _ => []

theorem Ldb.execute_other (d : Ldb) (source : Text) (c : Command) (args : List Text)
    (hm : selectedMode c = none) (hs : c ≠ .setbreak) (hc : c ≠ .clrbreak) :
    d.execute source c args = d := by
  have hl (list : List CInt) : editedList c args list = list := by
    unfold editedList
    split <;> first | rfl | contradiction
  simp [Ldb.execute, hm, hl, Function.update_eq_self]

theorem Ldb.execute_mode (d : Ldb) (source : Text) (c : Command) (args : List Text) (m : ℤ)
    (hm : selectedMode c = some m) (hs : c ≠ .setbreak) (hc : c ≠ .clrbreak) :
    d.execute source c args = { d with debuggerStates := m } := by
  have hl (list : List CInt) : editedList c args list = list := by
    unfold editedList
    split <;> first | rfl | contradiction
  simp [Ldb.execute, hm, hl, Function.update_eq_self]

theorem lineArgument_zero (args : List Text) (t : Text) (ht : args[0]? = some t)
    (h : (atoi t).val = 0) : lineArgument args = none := by
  simp [lineArgument, ht, h, Option.filter]

theorem lineArgument_some (args : List Text) (t : Text) (ht : args[0]? = some t)
    (h : (atoi t).val ≠ 0) : lineArgument args = some (atoi t) := by
  simp [lineArgument, ht, h, Option.filter]

theorem Ldb.execute_noLine (d : Ldb) (source : Text) (c : Command) (args : List Text)
    (hm : selectedMode c = none) (h : lineArgument args = none) :
    d.execute source c args = d := by
  have hl (list : List CInt) : editedList c args list = list := by
    unfold editedList
    rw [h]
    cases c <;> rfl
  simp [Ldb.execute, hm, hl, Function.update_eq_self]

theorem Ldb.execute_setbreak (d : Ldb) (source : Text) {args : List Text} {n : CInt}
    (h : lineArgument args = some n) :
    d.execute source .setbreak args = d.setBreakPointList source n := by
  simp [Ldb.setBreakPointList, Ldb.execute, selectedMode, editedList, h]

theorem Ldb.execute_clrbreak (d : Ldb) (source : Text) {args : List Text} {n : CInt}
    (h : lineArgument args = some n) :
    d.execute source .clrbreak args =
      if n ∈ d.getBreakPointList source then d.clearBreakPoint source n else d := by
  split_ifs with hm
  · simp [Ldb.clearBreakPoint, Ldb.getBreakPointList, Ldb.execute, selectedMode, editedList, h]
  · -- a line that is not armed: nothing is erased
    have he : (d.allScriptsBreakpoints source).erase n = d.allScriptsBreakpoints source :=
      List.erase_of_not_mem hm
    simp [Ldb.execute, selectedMode, editedList, h, he, Function.update_eq_self]

/-- A reaction that writes no events and lets the parser keep going. -/
structure Reaction.Quiet (d : Ldb) (r : Reaction) : Prop where
  state : r.state = d
  events : r.events = []
  leave : r.leave = false

theorem quiet_answer (dbg : DebuggerType) (d : Ldb) (line : Text) :
    Reaction.Quiet d (.answer dbg d line) := ⟨rfl, rfl, rfl⟩

theorem quiet_refusal (dbg : DebuggerType) (d : Ldb) (line : Text) :
    Reaction.Quiet d (.refusal dbg d line) := ⟨rfl, rfl, rfl⟩

theorem quiet_silent (d : Ldb) : Reaction.Quiet d (.silent d) := ⟨rfl, rfl, rfl⟩

theorem quiet_complaint (d : Ldb) (report : Text) : Reaction.Quiet d (.complaint d report) :=
  ⟨rfl, rfl, rfl⟩

/-- State, events and exit of a command depend on its words alone. -/
theorem execute_effects (dbg : DebuggerType) (L : LuaState) (d : Ldb) (pCmd : Text)
    (args : List Text) (r : Reaction) (h : execute dbg L d pCmd args = .ok r) :
    r.state = d.execute L.source (dispatch pCmd) args ∧
      r.events = commandEvents dbg (dispatch pCmd) ∧
        r.leave = (selectedMode (dispatch pCmd)).isSome := by
  have hquiet (c : Command) (hm : selectedMode c = none) (hs : c ≠ .setbreak)
      (hc : c ≠ .clrbreak) (he : commandEvents dbg c = []) (hr : r.Quiet d) :
      r.state = d.execute L.source c args ∧ r.events = commandEvents dbg c ∧
        r.leave = (selectedMode c).isSome := by
    rw [d.execute_other L.source c args hm hs hc, he, hm]
    exact ⟨hr.state, hr.events, hr.leave⟩
  -- a line number is missing, or 0
  have hline (c : Command) (hm : selectedMode c = none) (he : commandEvents dbg c = []) {t : Text}
      (ht : args[0]? = some t) (hz : (atoi t).val = 0) (hr : r.Quiet d) :
      r.state = d.execute L.source c args ∧ r.events = commandEvents dbg c ∧
        r.leave = (selectedMode c).isSome := by
    rw [d.execute_noLine L.source c args hm (lineArgument_zero args t ht hz), he, hm]
    exact ⟨hr.state, hr.events, hr.leave⟩
  unfold execute at h
  cases hd : dispatch pCmd with
  | getGlobals =>
    simp only [hd, bind_eq_ok] at h
    obtain ⟨t, -, h⟩ := h
    obtain rfl := Except.ok.inj h
    exact hquiet _ rfl (by decide) (by decide) rfl (quiet_answer dbg d t)
  | dataForIde =>
    simp only [hd, bind_eq_ok] at h
    obtain ⟨t, -, h⟩ := h
    obtain rfl := Except.ok.inj h
    exact hquiet _ rfl (by decide) (by decide) rfl (quiet_answer dbg d t)
  | varForIde =>
    simp only [hd, bind_eq_ok] at h
    obtain ⟨n, -, t, -, h⟩ := h
    obtain rfl := Except.ok.inj h
    refine hquiet _ rfl (by decide) (by decide) rfl ?_
    split_ifs
    · exact quiet_refusal dbg d t
    · exact quiet_answer dbg d t
  | stackForIde =>
    simp only [hd, bind_eq_ok] at h
    obtain ⟨t, -, h⟩ := h
    obtain rfl := Except.ok.inj h
    exact hquiet _ rfl (by decide) (by decide) rfl (quiet_answer dbg d t)
  | setbreak =>
    simp only [hd, bind_eq_ok] at h
    obtain ⟨t, ht, h⟩ := h
    have ht : args[0]? = some t := token_eq_ok.mp ht
    split_ifs at h with hz
    · obtain rfl := Except.ok.inj h
      exact hline _ rfl rfl ht hz (quiet_complaint d _)
    · rw [d.execute_setbreak L.source (lineArgument_some args t ht hz), ← Except.ok.inj h]
      exact ⟨rfl, rfl, rfl⟩
  | clrbreak =>
    simp only [hd, bind_eq_ok] at h
    obtain ⟨t, ht, h⟩ := h
    have ht : args[0]? = some t := token_eq_ok.mp ht
    split_ifs at h with hz hm
    · obtain rfl := Except.ok.inj h
      exact hline _ rfl rfl ht hz (quiet_complaint d _)
    · rw [d.execute_clrbreak L.source (lineArgument_some args t ht hz), if_pos hm,
        ← Except.ok.inj h]
      exact ⟨rfl, rfl, rfl⟩
    · rw [d.execute_clrbreak L.source (lineArgument_some args t ht hz), if_neg hm,
        ← Except.ok.inj h]
      exact ⟨rfl, rfl, rfl⟩
  | list =>
    simp only [hd, bind_eq_ok] at h
    obtain ⟨_, -, h⟩ := h
    obtain rfl := Except.ok.inj h
    refine hquiet _ rfl (by decide) (by decide) rfl ?_
    split_ifs
    · exact quiet_complaint d _
    · exact quiet_silent d
  | display =>
    simp only [hd, bind_eq_ok] at h
    obtain ⟨_, -, h⟩ := h
    obtain rfl := Except.ok.inj h
    exact hquiet _ rfl (by decide) (by decide) rfl (quiet_silent d)
  | print =>
    simp only [hd, bind_eq_ok] at h
    obtain ⟨_, -, h⟩ := h
    obtain rfl := Except.ok.inj h
    exact hquiet _ rfl (by decide) (by decide) rfl ⟨rfl, rfl, rfl⟩
  | suspend =>
    simp only [hd, Except.ok.injEq] at h
    rw [← h, d.execute_other L.source _ args rfl (by decide) (by decide)]
    exact ⟨rfl, rfl, rfl⟩
  | step =>
    simp only [hd, Except.ok.injEq] at h
    rw [← h, d.execute_mode L.source _ args STEPPING rfl (by decide) (by decide)]
    exact ⟨rfl, rfl, rfl⟩
  | resume =>
    simp only [hd, Except.ok.injEq] at h
    rw [← h, d.execute_mode L.source _ args CONTINUING rfl (by decide) (by decide)]
    exact ⟨rfl, rfl, rfl⟩
  | quit =>
    simp only [hd, Except.ok.injEq] at h
    rw [← h, d.execute_mode L.source _ args CONTINUING rfl (by decide) (by decide)]
    exact ⟨rfl, rfl, rfl⟩
  | assign | help | notFound =>
    simp only [hd, Except.ok.injEq] at h
    exact hquiet _ rfl (by decide) (by decide) rfl (h ▸ ⟨rfl, rfl, rfl⟩)

/-- The command of a line, as an optional word with its arguments. -/
def Ldb.perform (d : Ldb) (source data : Text) : Ldb :=
  match commandWords data with
  | [] => d
  | pCmd :: args => d.execute source (dispatch pCmd) args

/-- The lines kept of the scripts stay as they were loaded. -/
theorem perform_lines (d : Ldb) (source data : Text) :
    (d.perform source data).allScriptsLines = d.allScriptsLines := by
  unfold Ldb.perform
  cases commandWords data <;> rfl

theorem commandWords_of_empty {data : Text} (he : lineBuffer data = []) :
    commandWords data = [] := by
  rw [commandWords, he]
  decide

/-- The same for a whole received line: an empty line does nothing. -/
theorem handle_effects (dbg : DebuggerType) (L : LuaState) (d : Ldb) (data : Text) (r : Reaction)
    (h : handle dbg L d data = .ok r) :
    r.state = (d.takeLine dbg data).perform L.source data ∧
      r.events = ((commandOf data).map (commandEvents dbg)).getD [] ∧
        r.leave = ((commandOf data).bind selectedMode).isSome := by
  unfold handle at h
  unfold Ldb.perform commandOf
  by_cases he : lineBuffer data = []
  · rw [if_pos he, Except.ok.injEq] at h
    rw [commandWords_of_empty he, ← h]
    cases dbg <;> exact ⟨rfl, rfl, rfl⟩
  · rw [if_neg he] at h
    split_ifs at h
    rcases hw : commandWords data with _ | ⟨pCmd, args⟩
    · rw [commandWords] at hw
      simp [hw] at h
    · have hw' := hw
      rw [commandWords] at hw'
      simp only [hw'] at h
      exact execute_effects dbg L _ pCmd args r h

/-- No command touches the lines kept of the scripts. -/
theorem handle_lines (dbg : DebuggerType) (L : LuaState) (d : Ldb) (data : Text) (r : Reaction)
    (h : handle dbg L d data = .ok r) : r.state.allScriptsLines = d.allScriptsLines := by
  rw [(handle_effects dbg L d data r h).1, perform_lines]
  rfl

end LuaIde
