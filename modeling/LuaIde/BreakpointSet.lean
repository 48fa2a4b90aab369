import LuaIde.StopDecisions
import LuaIde.Tally

/-! The breakpoint list of a script against the break and clear commands handled at
stops in it. -/
namespace LuaIde

open LineText DecimalText Tally

/-- The edit a command makes to the list of the script it is handled in. -/
def editOf (data : Text) : Option (Edit CInt) :=
  match commandWords data with
  | [] => none
  | pCmd :: args =>
    match dispatch pCmd, lineArgument args with
    | .setbreak, some n => some (.add n)
    | .clrbreak, some n => some (.drop n)
    | _, _ => none

def Happening.edit (source : Text) : Happening → Option (Edit CInt)
  | .entered _ => none
  | .handled s data => if s = source then editOf data else none

/-- The break and clear commands handled at stops in a script, in order. -/
def editsAt (source : Text) (history : List Happening) : List (Edit CInt) :=
  history.filterMap (Happening.edit source)

/-- Every list is the result of the commands handled at stops in its script. -/
def ListsInvariant (s : Session) : Prop :=
  ∀ source, s.state.allScriptsBreakpoints source = after (editsAt source s.history)

theorem perform_list (d : Ldb) (source data : Text) :
    (d.perform source data).allScriptsBreakpoints source =
      match editOf data with
      | none => d.allScriptsBreakpoints source
      | some e => apply (d.allScriptsBreakpoints source) e := by
  unfold Ldb.perform editOf
  cases commandWords data with
  | nil => rfl
  | cons pCmd args =>
    simp only [Ldb.execute, Function.update_self, editedList]
    cases dispatch pCmd <;> cases lineArgument args <;> rfl

theorem perform_list_other (d : Ldb) (source data : Text) {s : Text} (h : s ≠ source) :
    (d.perform source data).allScriptsBreakpoints s = d.allScriptsBreakpoints s := by
  unfold Ldb.perform
  cases commandWords data with
  | nil => rfl
  | cons pCmd args => simp only [Ldb.execute, Function.update_of_ne h]

theorem editsAt_append (source : Text) (history : List Happening) (x : Happening) :
    editsAt source (history ++ [x]) = editsAt source history ++ (x.edit source).toList := by
  rw [editsAt, List.filterMap_append]
  cases hx : x.edit source <;> simp [editsAt, hx]

theorem listsInvariant_perform (dbg : DebuggerType) (s : Session) (L : LuaState) (data : Text)
    (r : Reaction) (h : ListsInvariant s) (hr : handle dbg L s.state data = .ok r) :
    ListsInvariant (s.perform L.source data r) := by
  have hstate := (handle_effects dbg L s.state data r hr).1
  have hlists : (s.state.takeLine dbg data).allScriptsBreakpoints =
      s.state.allScriptsBreakpoints := rfl
  intro source
  simp only [Session.perform, editsAt_append, Happening.edit, hstate]
  by_cases he : L.source = source
  · subst he
    rw [perform_list, if_pos rfl, hlists, h L.source]
    cases editOf data with
    | none => simp
    | some e => simp [after_append]
  · rw [perform_list_other _ _ _ (Ne.symm he), if_neg he, hlists, h source]
    simp

theorem listsInvariant_runHooks (dbg : DebuggerType) (lines : ScriptLines) (inputs : List Recv)
    (hooks : List HookEvent) :
    ListsInvariant (runHooks dbg hooks (World.start dbg lines inputs)).toSession := by
  apply runHooks_invariant dbg ListsInvariant
  · intro s _ _ bp h _ source
    simp only [Session.stop, editsAt_append, Happening.edit]
    simpa using h source
  · intro s L data r h hr
    exact listsInvariant_perform dbg s L data r h hr
  · intro source
    rfl

/-- The latest command at a stop in the script that named the line was a break. -/
def latestIsBreak (source : Text) (n : CInt) (history : List Happening) : Prop :=
  (naming n (editsAt source history)).getLast? = some true

instance (source : Text) (n : CInt) (history : List Happening) :
    Decidable (latestIsBreak source n history) := inferInstanceAs (Decidable (_ = _))

/-- Up to the latest command, the clears of the line make up for its breaks. -/
def clearsMakeUp (source : Text) (n : CInt) (history : List Happening) : Prop :=
  ∀ suf, suf <:+ naming n (editsAt source history) → suf.count true ≤ suf.count false

/-- The hook calls the parser at this line event. -/
def stopsAt (dbg : DebuggerType) (L : LuaState) (w : World) : Prop :=
  entries (hookRoutine dbg (.line L) w).history = entries w.history + 1

instance (dbg : DebuggerType) (L : LuaState) (w : World) : Decidable (stopsAt dbg L w) :=
  inferInstanceAs (Decidable (_ = _))

/-- A run in which line 5 of a script is set twice, cleared once, and passed. -/
def twiceSetOnceCleared : World :=
  runHooks .ide [.line (.mainChunk (txt "a.lua") 1)]
    (World.start .ide (fun _ => [])
      (["b 5\n", "b 5\n", "cl 5\n", "co\n"].map (fun s => Recv.data (txt s))))

theorem stopsAt_iff_mem (dbg : DebuggerType) (L : LuaState) (w : World)
    (hc : w.state.debuggerStates = CONTINUING) :
    stopsAt dbg L w ↔
      L.currentline ∈ w.state.allScriptsBreakpoints L.source ∧ lineFound w.state L := by
  rw [stopsAt, hookRoutine_eq, stopReason]
  simp only [hc, if_true, Ldb.getBreakPointList]
  by_cases hm : L.currentline ∈ w.state.allScriptsBreakpoints L.source
  · by_cases hf : lineFound w.state L
    · simp only [hm, hf, if_true, entries_parserLoop, World.stopped, Session.stop, and_self,
        iff_true]
      simp [entries, List.countP_append, Happening.isEntry]
    · simp [hm, hf]
  · simp [hm]

/-- In every run in continuing mode, at every line event: that the hook stops says that
the latest command naming the line was a break, exactly when it was one or the clears
make up for the breaks; where the line is looked up outside of the list kept for the script, when
it was none. -/
theorem set_semantics_iff (dbg : DebuggerType) (lines : ScriptLines) (inputs : List Recv)
    (hooks : List HookEvent) (L : LuaState)
    (hc : (runHooks dbg hooks (World.start dbg lines inputs)).state.debuggerStates =
      CONTINUING) :
    let w := runHooks dbg hooks (World.start dbg lines inputs)
    (stopsAt dbg L w ↔ latestIsBreak L.source L.currentline w.history) ↔
      if lineFound w.state L then
        latestIsBreak L.source L.currentline w.history ∨
          clearsMakeUp L.source L.currentline w.history
      else ¬ latestIsBreak L.source L.currentline w.history := by
  intro w
  have hlist := listsInvariant_runHooks dbg lines inputs hooks L.source
  rw [stopsAt_iff_mem dbg L w hc, hlist]
  split_ifs with hf
  · rw [and_iff_left hf]
    exact mem_iff_latest_iff L.currentline (editsAt L.source w.history)
  · simp only [hf, and_false, false_iff]

/-- Line 5 set once: the theorem in a run in which it applies. -/
theorem set_semantics_setOnce :
    let w := runHooks .ide [.line (.mainChunk (txt "a.lua") 1)]
      (World.start .ide (fun _ => []) [.data (txt "break 5\n"), .data (txt "resume\n")])
    let L := LuaState.mainChunk (txt "a.lua") 5
    (stopsAt .ide L w ↔ latestIsBreak L.source L.currentline w.history) ↔
      if lineFound w.state L then
        latestIsBreak L.source L.currentline w.history ∨
          clearsMakeUp L.source L.currentline w.history
      else ¬ latestIsBreak L.source L.currentline w.history :=
  set_semantics_iff .ide (fun _ => []) [.data (txt "break 5\n"), .data (txt "resume\n")]
    [.line (.mainChunk (txt "a.lua") 1)] (.mainChunk (txt "a.lua") 5) (by decide +kernel)

/-- After two breaks and one clear of line 5 the hook still stops there. -/
theorem twiceSetOnceCleared_stops :
    twiceSetOnceCleared.state.debuggerStates = CONTINUING ∧
      ¬ (stopsAt .ide (.mainChunk (txt "a.lua") 5) twiceSetOnceCleared ↔
        latestIsBreak (txt "a.lua") 5 twiceSetOnceCleared.history) := by
  decide +kernel

end LuaIde
