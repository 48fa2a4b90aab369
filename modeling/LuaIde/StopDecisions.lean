import LuaIde.CommandEffects
import LuaIde.SourceLoading

/-! When the hook stops: the mode the last command selected, and one call of the parser
at the line events the mode and the breakpoint list ask for, unless the line is looked up
outside of the list kept for its script. -/
namespace LuaIde

open LineText DecimalText

/-- The mode a handled command selected. -/
def Happening.mode : Happening → Option ℤ
  | .entered _ => none
  | .handled _ data => (commandOf data).bind selectedMode

/-- The mode the last such command selected, stepping before any. -/
def lastMode (history : List Happening) : ℤ :=
  ((history.filterMap Happening.mode).getLast?).getD STEPPING

def Happening.isEntry : Happening → Bool
  | .entered _ => true
  | .handled _ _ => false

/-- How often the parser was called. -/
def entries (history : List Happening) : ℕ := history.countP Happening.isEntry

/-- A line event in stepping mode, or at a line of the list stored for its script. -/
def shouldStop (d : Ldb) : HookEvent → Prop
  | .line L => d.debuggerStates = STEPPING ∨ L.currentline ∈ d.allScriptsBreakpoints L.source
  | .other => False

instance (d : Ldb) : (e : HookEvent) → Decidable (shouldStop d e)
  | .line _ => inferInstanceAs (Decidable (_ ∨ _))
  | .other => inferInstanceAs (Decidable False)

/-- The line of an event is one that the lookup finds. -/
def eventFound (d : Ldb) : HookEvent → Prop
  | .line L => lineFound d L
  | .other => True

/-- The hook calls the parser exactly once if it should stop at the event, and else never. -/
def entersAsTold (dbg : DebuggerType) (e : HookEvent) (w : World) : Prop :=
  entries (hookRoutine dbg e w).history =
    entries w.history + if shouldStop w.state e then 1 else 0

instance (dbg : DebuggerType) (e : HookEvent) (w : World) : Decidable (entersAsTold dbg e w) :=
  inferInstanceAs (Decidable (_ = _))

theorem lastMode_append (history : List Happening) (x : Happening) :
    lastMode (history ++ [x]) = x.mode.getD (lastMode history) := by
  rcases hx : x.mode with _ | m
  · simp [lastMode, List.filterMap_append, hx]
  · simp [lastMode, List.filterMap_append, hx]

/-- The mode is the one the history selects. -/
def ModeInvariant (s : Session) : Prop :=
  (s.state.debuggerStates = STEPPING ∨ s.state.debuggerStates = CONTINUING) ∧
    s.state.debuggerStates = lastMode s.history

theorem selectedMode_eq (c : Command) (m : ℤ) (h : selectedMode c = some m) :
    m = STEPPING ∨ m = CONTINUING := by
  cases c <;> simp [selectedMode] at h
  · exact .inl h.symm
  · exact .inr h.symm
  · exact .inr h.symm

theorem perform_mode (d : Ldb) (source data : Text) :
    (d.perform source data).debuggerStates =
      ((commandOf data).bind selectedMode).getD d.debuggerStates := by
  unfold Ldb.perform commandOf
  cases commandWords data with
  | nil => rfl
  | cons pCmd args => rfl

theorem modeInvariant_stop (dbg : DebuggerType) (s : Session) (bp : Option CInt)
    (h : ModeInvariant s) : ModeInvariant (s.stop dbg bp) := by
  refine ⟨h.1, ?_⟩
  simp only [Session.stop, lastMode_append, Happening.mode, Option.getD_none]
  exact h.2

theorem modeInvariant_perform (dbg : DebuggerType) (s : Session) (L : LuaState) (data : Text)
    (r : Reaction) (h : ModeInvariant s) (hr : handle dbg L s.state data = .ok r) :
    ModeInvariant (s.perform L.source data r) := by
  have hstate := (handle_effects dbg L s.state data r hr).1
  have hmode := perform_mode (s.state.takeLine dbg data) L.source data
  simp only [ModeInvariant, Session.perform, lastMode_append, Happening.mode, hstate, hmode]
  rcases hm : (commandOf data).bind selectedMode with _ | m
  · exact h
  · obtain ⟨c, -, hc⟩ := Option.bind_eq_some_iff.mp hm
    exact ⟨selectedMode_eq c m hc, rfl⟩

theorem modeInvariant_runHooks (dbg : DebuggerType) (lines : ScriptLines) (inputs : List Recv)
    (hooks : List HookEvent) :
    ModeInvariant (runHooks dbg hooks (World.start dbg lines inputs)).toSession := by
  apply runHooks_invariant dbg ModeInvariant
  · intro s _ _ bp h _
    exact modeInvariant_stop dbg s bp h
  · intro s L data r h hr
    exact modeInvariant_perform dbg s L data r h hr
  · exact ⟨.inl rfl, rfl⟩

/-- Commands are no calls of the parser. -/
theorem entries_parserLoop (dbg : DebuggerType) (inputs : List Recv) (w : World) :
    entries (parserLoop dbg inputs w).history = entries w.history := by
  apply parserLoop_invariant dbg (fun s => entries s.history = entries w.history)
  · intro s L data r hs _
    simp [Session.perform, entries, List.countP_append, Happening.isEntry] at hs ⊢
    exact hs
  · rfl

theorem stopReason_isSome (d : Ldb) (e : HookEvent)
    (hd : d.debuggerStates = STEPPING ∨ d.debuggerStates = CONTINUING) :
    (stopReason d e).isSome ↔ shouldStop d e := by
  cases e with
  | other => simp [stopReason, shouldStop]
  | line L =>
    have hne : STEPPING ≠ CONTINUING := by decide
    rw [shouldStop, stopReason]
    rcases hd with hd | hd
    · simp [hd, hne]
    · by_cases hm : L.currentline ∈ d.allScriptsBreakpoints L.source
      · simp [hd, hm, Ldb.getBreakPointList]
      · simp [hd, hm, hne.symm, Ldb.getBreakPointList]

theorem shouldStop_of_some {d : Ldb} {e : HookEvent} {r : LuaState × Option CInt}
    (hd : d.debuggerStates = STEPPING ∨ d.debuggerStates = CONTINUING)
    (h : stopReason d e = some r) : shouldStop d e := by
  apply (stopReason_isSome d e hd).mp
  rw [h, Option.isSome_some]

theorem not_shouldStop_of_none {d : Ldb} {e : HookEvent}
    (hd : d.debuggerStates = STEPPING ∨ d.debuggerStates = CONTINUING)
    (h : stopReason d e = none) : ¬ shouldStop d e := by
  rw [← stopReason_isSome d e hd, h]
  exact Bool.false_ne_true

/-- The hook stops at the event it is about. -/
theorem stopReason_line {d : Ldb} {e : HookEvent} {L : LuaState} {bp : Option CInt}
    (h : stopReason d e = some (L, bp)) : e = .line L := by
  cases e with
  | other => cases h
  | line K =>
    rw [stopReason] at h
    split_ifs at h <;>
    · obtain ⟨rfl, -⟩ := Prod.mk.inj (Option.some.inj h)
      rfl

/-- Over all runs: the mode is one of the two, it is the one the last step, continue,
resume or quit selected, and at the next hook event the parser is called as the mode and the list
stored for the script tell, if and only if the line looked up in front of the call is found. -/
theorem stops_exactly_when_told (dbg : DebuggerType) (lines : ScriptLines) (inputs : List Recv)
    (hooks : List HookEvent) (e : HookEvent) :
    let w := runHooks dbg hooks (World.start dbg lines inputs)
    (w.state.debuggerStates = STEPPING ∨ w.state.debuggerStates = CONTINUING) ∧
      w.state.debuggerStates = lastMode w.history ∧
        (entersAsTold dbg e w ↔ (shouldStop w.state e → eventFound w.state e)) := by
  intro w
  obtain ⟨hmode, hlast⟩ := modeInvariant_runHooks dbg lines inputs hooks
  refine ⟨hmode, hlast, ?_⟩
  rw [entersAsTold, hookRoutine_eq]
  rcases hr : stopReason w.state e with _ | ⟨L, bp⟩
  · have hno : ¬ shouldStop w.state e := not_shouldStop_of_none hmode hr
    simp [hno]
  · have hyes : shouldStop w.state e := shouldStop_of_some hmode hr
    rw [if_pos hyes, stopReason_line hr, forall_prop_of_true (stopReason_line hr ▸ hyes)]
    dsimp only [eventFound]
    split_ifs with hfound
    · -- one entry, and the commands of the stop add none
      refine iff_of_true ?_ hfound
      simp only [entries_parserLoop, World.stopped, Session.stop]
      simp [entries, List.countP_append, Happening.isEntry]
    · exact iff_of_false (by simp) hfound

/-- Lua ends a line at the carriage return, ldb keeps one line of the script: the second line is
stepped to, and looked up outside of the list. -/
theorem secondLine_not_entered :
    let lines := setLineSourceList (fun _ => []) (txt "a.lua") (numberedLine 1 (txt "a = 1\rb = 2"))
    let w := runHooks .ide [.line (.mainChunk (txt "a.lua") 1)]
      (World.start .ide lines [.data (txt "step\n")])
    let e := HookEvent.line (.mainChunk (txt "a.lua") 2)
    readSourcefromStringBuffer .declared (txt "a = 1\rb = 2\n") (txt "a.lua") (fun _ => []) =
        .ok lines ∧
      w.status = .running ∧ shouldStop w.state e ∧ ¬ entersAsTold .ide e w := by
  intro lines w e
  refine ⟨rfl, rfl, ?_, ?_⟩
  · decide +kernel
  · decide +kernel

end LuaIde
