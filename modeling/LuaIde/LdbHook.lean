import LuaIde.LdbParser

/-! `HookRoutine` and whole runs: the hook is called for one event of the Lua program
after the other, as long as ldb gives control back. -/
namespace LuaIde

open LineText DecimalText

/-- A call of the hook: a line event with the stopped state, or another event. -/
inductive HookEvent where
  | line (L : LuaState)
  | other

/-- What the scan reports before it calls the parser; each write sends the whole stream. -/
def breakpointEvents (dbg : DebuggerType) (breakPoint : CInt) : Text :=
  toIde dbg (txt "resumed client") ++
    (toIde dbg (txt "resumed client") ++
      toIde dbg (txt "suspended breakpoint " ++ ofInt breakPoint.val))

/-- `getFileLine(ar->source, ar->currentline)`. The text goes to the console. -/
def stoppedLine (d : Ldb) (L : LuaState) : Except Fault Text :=
  Inspect.getFileLine (d.allScriptsLines L.source) L.currentline.val

/-- The loop over the copied breakpoint list, with its `break`. -/
def hookScan (dbg : DebuggerType) (L : LuaState) : List CInt → World → World
  | [], w => w
  | breakPoint :: list, w =>
    if breakPoint = L.currentline then
      match stoppedLine w.state L with
      | .error why => { w with status := .over why }
      | .ok _ =>
        commandParser dbg L (some breakPoint)
          { w with events := w.events ++ breakpointEvents dbg breakPoint }
    else hookScan dbg L list w

/-- `HookRoutine`. In both modes the line is looked up before the parser is called. -/
def hookRoutine (dbg : DebuggerType) (e : HookEvent) (w : World) : World :=
  match e with
  | .other => w
  | .line L =>
    if w.state.debuggerStates = CONTINUING then
      hookScan dbg L (w.state.getBreakPointList L.source) w
    else if w.state.debuggerStates = STEPPING then
      match stoppedLine w.state L with
      | .error why => { w with status := .over why }
      | .ok _ => commandParser dbg L none w
    else w

/-- The Lua program goes on to its next event when the hook has returned. -/
def runHooks (dbg : DebuggerType) : List HookEvent → World → World
  | [], w => w
  | e :: es, w =>
    match w.status with
    | .running => runHooks dbg es (hookRoutine dbg e w)
    | _ => w

theorem runHooks_of_not_running (dbg : DebuggerType) (hooks : List HookEvent) (w : World)
    (h : w.status ≠ .running) : runHooks dbg hooks w = w := by
  cases hooks with
  | nil => rfl
  | cons e es =>
    rw [runHooks]
    split
    · exact absurd ‹_› h
    · rfl

/-- ldb when the script starts, with the lines it keeps of it. -/
def World.start (dbg : DebuggerType) (lines : ScriptLines) (inputs : List Recv) : World where
  state := .initial lines
  replies := []
  events := toIde dbg (txt "started")
  history := []
  status := .running
  inputs := inputs
  cinFail := false

/-- A stop: what the hook and the entry of the parser write, and the entry itself. -/
def Session.stop (dbg : DebuggerType) (breakPoint : Option CInt) (s : Session) : Session :=
  { s with
    state := { s.state with lineEnded := false }
    events := s.events ++ ((breakPoint.map (breakpointEvents dbg)).getD [] ++ entryEvents dbg)
    history := s.history ++ [.entered breakPoint] }

/-- Why the hook is to call the parser at a line event: the breakpoint it found, or stepping. -/
def stopReason (d : Ldb) (e : HookEvent) : Option (LuaState × Option CInt) :=
  match e with
  | .other => none
  | .line L =>
    if d.debuggerStates = CONTINUING then
      if L.currentline ∈ d.getBreakPointList L.source then some (L, some L.currentline) else none
    else if d.debuggerStates = STEPPING then some (L, none)
    else none

/-- The lookup of the line does not leave the list kept for the script. -/
def lineFound (d : Ldb) (L : LuaState) : Prop :=
  d.allScriptsLines L.source = [] ∨
    (1 ≤ L.currentline.val ∧ L.currentline.val ≤ (d.allScriptsLines L.source).length)

instance (d : Ldb) (L : LuaState) : Decidable (lineFound d L) :=
  inferInstanceAs (Decidable (_ ∨ _))

theorem stoppedLine_cases (d : Ldb) (L : LuaState) :
    if lineFound d L then ∃ line, stoppedLine d L = .ok line
    else stoppedLine d L = .error .uninitialised :=
  Inspect.getFileLine_cases _ _

/-- The scan stops at most once, whatever the list holds. -/
theorem hookScan_eq (dbg : DebuggerType) (L : LuaState) (list : List CInt) (w : World) :
    hookScan dbg L list w =
      if L.currentline ∈ list then
        if lineFound w.state L then
          commandParser dbg L (some L.currentline)
            { w with events := w.events ++ breakpointEvents dbg L.currentline }
        else { w with status := .over .uninitialised }
      else w := by
  induction list with
  | nil => rfl
  | cons breakPoint list ih =>
    rw [hookScan]
    by_cases h : breakPoint = L.currentline
    · rw [if_pos h, if_pos (by simp [h]), h]
      have hline := stoppedLine_cases w.state L
      split_ifs at hline ⊢ with hfound
      · obtain ⟨line, hl⟩ := hline
        rw [hl]
      · rw [hline]
    · rw [if_neg h, ih]
      have hm : L.currentline ∈ breakPoint :: list ↔ L.currentline ∈ list := by
        simp [Ne.symm h]
      simp only [hm]

/-- The world in which the loop of the parser starts at a stop. -/
def World.stopped (dbg : DebuggerType) (L : LuaState) (breakPoint : Option CInt) (w : World) :
    World :=
  { w with
    toSession := w.toSession.stop dbg breakPoint
    inputs := []
    status := .waiting L none }

/-- The hook does nothing, or stops and lets the parser loop run, or fails over the line. -/
theorem hookRoutine_eq (dbg : DebuggerType) (e : HookEvent) (w : World) :
    hookRoutine dbg e w =
      match stopReason w.state e with
      | none => w
      | some (L, breakPoint) =>
        if lineFound w.state L then parserLoop dbg w.inputs (w.stopped dbg L breakPoint)
        else { w with status := .over .uninitialised } := by
  cases e with
  | other => rfl
  | line L =>
    have hline := stoppedLine_cases w.state L
    simp only [hookRoutine, stopReason]
    by_cases hc : w.state.debuggerStates = CONTINUING
    · simp only [hc, if_true, hookScan_eq]
      by_cases hm : L.currentline ∈ w.state.getBreakPointList L.source
      · simp only [hm, if_true, commandParser, World.stopped, Session.stop, Option.map_some,
          Option.getD_some, List.append_assoc]
      · simp only [hm, if_false]
    · by_cases hs : w.state.debuggerStates = STEPPING
      · have hsc : STEPPING ≠ CONTINUING := by decide
        simp only [hs, hsc, if_true, if_false]
        split_ifs at hline ⊢ with hfound
        · obtain ⟨line, hl⟩ := hline
          simp only [hl, commandParser, World.stopped, Session.stop, Option.map_none,
            Option.getD_none, List.nil_append]
        · simp only [hline]
      · simp only [hc, hs, if_false]

/-- Without input at hand the hook does nothing, leaves ldb waiting, or fails. -/
theorem hookRoutine_noInput (e : HookEvent) (w : World) (hw : w.inputs = []) :
    hookRoutine .ide e w =
      match stopReason w.state e with
      | none => w
      | some (L, bp) =>
        if lineFound w.state L then w.stopped .ide L bp
        else { w with status := .over .uninitialised } := by
  rw [hookRoutine_eq]
  rcases stopReason w.state e with _ | ⟨L, bp⟩
  · rfl
  · simp only [hw, parserLoop]

/-- What every stop and every command preserve, the hook preserves. -/
theorem hookRoutine_invariant (dbg : DebuggerType) (P : Session → Prop)
    (hstop : ∀ s e L bp, P s → stopReason s.state e = some (L, bp) → P (s.stop dbg bp))
    (hperform : ∀ s L data r, P s → handle dbg L s.state data = .ok r →
      P (s.perform L.source data r))
    (e : HookEvent) (w : World) (hw : P w.toSession) : P (hookRoutine dbg e w).toSession := by
  rw [hookRoutine_eq]
  rcases hr : stopReason w.state e with _ | ⟨L, bp⟩
  · exact hw
  · dsimp only
    split_ifs
    · exact parserLoop_invariant dbg P hperform w.inputs _ (hstop _ e L bp hw hr)
    · exact hw

/-- What the start satisfies and every stop and every command preserve holds in every
run, also of those that end inside of the parser. -/
theorem runHooks_invariant (dbg : DebuggerType) (P : Session → Prop)
    (hstop : ∀ s e L bp, P s → stopReason s.state e = some (L, bp) → P (s.stop dbg bp))
    (hperform : ∀ s L data r, P s → handle dbg L s.state data = .ok r →
      P (s.perform L.source data r))
    (hooks : List HookEvent) (w : World) (hw : P w.toSession) :
    P (runHooks dbg hooks w).toSession := by
  induction hooks generalizing w with
  | nil => exact hw
  | cons e es ih =>
    rcases hs : w.status with _ | ⟨L, pending⟩ | why
    · simp only [runHooks, hs]
      exact ih _ (hookRoutine_invariant dbg P hstop hperform e w hw)
    · simp only [runHooks, hs]
      exact hw
    · simp only [runHooks, hs]
      exact hw

end LuaIde
