import LuaIde.BreakpointSet
import LuaIde.Runs

/-! Scripts do not interfere: two runs of ldb in which the same break and clear commands are
given at stops in a script keep the same list for it and stop at the same of its lines,
whatever is said at stops in other scripts. -/
namespace LuaIde

open LineText DecimalText Tally Runs

/-- The program comes to a hook event, or the parser gets what its read returns. -/
inductive LdbAction where
  | hook (e : HookEvent)
  | read (r : Recv)

/-- ldb of either type, one hook event and one read at a time. -/
def World.step (dbg : DebuggerType) (w : World) : LdbAction → Option World
  | .hook e =>
    match w.status with
    | .running => some (hookRoutine dbg e w)
    | _ => none
  | .read r =>
    match w.status with
    | .waiting L pending => some (receive dbg L pending r w)
    | _ => none

/-- A break or clear command with its arguments, handled at a stop in the script. -/
def Happening.listCommand (source : Text) : Happening → Option (Command × List Text)
  | .entered _ => none
  | .handled s data =>
    match commandWords data with
    | [] => none
    | pCmd :: args =>
      if s = source ∧ (dispatch pCmd = .setbreak ∨ dispatch pCmd = .clrbreak) then
        some (dispatch pCmd, args)
      else none

/-- The break and clear commands handled at stops in the script, in order. -/
def commandsAt (source : Text) (history : List Happening) : List (Command × List Text) :=
  history.filterMap (Happening.listCommand source)

/-- The edit a break or clear command makes. -/
def commandEdit (c : Command × List Text) : Option (Edit CInt) :=
  match c.1, lineArgument c.2 with
  | .setbreak, some n => some (.add n)
  | .clrbreak, some n => some (.drop n)
  | _, _ => none

/-- The hook is to call the parser at this line event. -/
def decidesToStop (d : Ldb) (L : LuaState) : Bool := (stopReason d (.line L)).isSome

/-- Two states of ldb keep the same list for a script, in continuing mode they decide to stop
at the same line events of it, and they stop at the same ones where what they keep of the
script's text is the same. -/
def AgreeOn (source : Text) (dbg₁ dbg₂ : DebuggerType) (w v : World) : Prop :=
  w.state.allScriptsBreakpoints source = v.state.allScriptsBreakpoints source ∧
    (w.state.debuggerStates = CONTINUING → v.state.debuggerStates = CONTINUING →
      ∀ L M : LuaState, L.source = source → M.source = source → L.currentline = M.currentline →
        decidesToStop w.state L = decidesToStop v.state M ∧
          (w.state.allScriptsLines source = v.state.allScriptsLines source →
            (stopsAt dbg₁ L w ↔ stopsAt dbg₂ M v)))

section Steps

variable {dbg : DebuggerType} {P : Session → Prop} {w v : World}

/-- What every stop and every command preserve, a step preserves. -/
theorem World.step_invariant (hstop : ∀ s e L bp, P s → stopReason s.state e = some (L, bp) →
      P (s.stop dbg bp))
    (hperform : ∀ s L data r, P s → handle dbg L s.state data = .ok r →
      P (s.perform L.source data r))
    {a : LdbAction} (hw : P w.toSession) (h : w.step dbg a = some v) : P v.toSession := by
  cases a with
  | hook e =>
    simp only [World.step] at h
    split at h
    · obtain rfl := Option.some.inj h
      exact hookRoutine_invariant dbg P hstop hperform e w hw
    · cases h
  | read r =>
    simp only [World.step] at h
    split at h
    · next L pending _ =>
      obtain rfl := Option.some.inj h
      exact receive_invariant dbg P hperform L pending r w hw
    · cases h

theorem listsInvariant_step {a : LdbAction} (hw : ListsInvariant w.toSession)
    (h : w.step dbg a = some v) : ListsInvariant v.toSession := by
  apply World.step_invariant ?_ ?_ hw h
  · intro s _ _ bp hs _ source
    simp only [Session.stop, editsAt_append, Happening.edit]
    simpa using hs source
  · intro s L data r hs hr
    exact listsInvariant_perform dbg s L data r hs hr

/-- The history of a run only grows. -/
theorem history_step {a : LdbAction} (h : w.step dbg a = some v) : w.history <+: v.history := by
  apply World.step_invariant (P := fun s => w.history <+: s.history) ?_ ?_ List.prefix_rfl h
  · intro s _ _ bp hs _
    exact hs.trans (List.prefix_append _ _)
  · intro s L data r hs _
    exact hs.trans (List.prefix_append _ _)

theorem history_run {as : List LdbAction} (h : run (World.step dbg) w as = some v) :
    w.history <+: v.history := by
  apply run_invariant (I := fun u => w.history <+: u.history) ?_ (fun _ _ => trivial) h
    List.prefix_rfl
  intro u a t hu _ ht
  exact hu.trans (history_step ht)

theorem listsInvariant_run {lines : ScriptLines} {as : List LdbAction}
    (h : run (World.step dbg) (World.start dbg lines []) as = some w) :
    ListsInvariant w.toSession := by
  apply run_invariant (I := fun u => ListsInvariant u.toSession) ?_ (fun _ _ => trivial) h
    (fun _ => rfl)
  intro u a t hu _ ht
  exact listsInvariant_step hu ht

end Steps

theorem editOf_eq (source data : Text) : (if source = source then editOf data else none) =
    ((Happening.handled source data).listCommand source).bind commandEdit := by
  rw [if_pos rfl, editOf, Happening.listCommand]
  cases commandWords data with
  | nil => rfl
  | cons pCmd args =>
    simp only [true_and]
    cases hd : dispatch pCmd with
    | setbreak | clrbreak => cases hn : lineArgument args <;> simp [commandEdit, hn]
    | _ => simp

/-- The edits of a history are those of its commands. -/
theorem editsAt_eq (source : Text) (history : List Happening) :
    editsAt source history = (commandsAt source history).filterMap commandEdit := by
  rw [editsAt, commandsAt, List.filterMap_filterMap]
  apply List.filterMap_congr
  intro x _
  cases x with
  | entered bp => rfl
  | handled s data =>
    by_cases hs : s = source
    · subst hs
      exact editOf_eq s data
    · rw [Happening.edit, if_neg hs, Happening.listCommand]
      cases commandWords data with
      | nil => rfl
      | cons pCmd args => simp [hs]

theorem commandsAt_prefix (source : Text) {history later : List Happening}
    (h : history <+: later) : commandsAt source history <+: commandsAt source later :=
  h.filterMap _

theorem decidesToStop_continuing {d : Ldb} {L : LuaState} (hc : d.debuggerStates = CONTINUING) :
    decidesToStop d L = decide (L.currentline ∈ d.allScriptsBreakpoints L.source) := by
  simp only [decidesToStop, stopReason, hc, if_true, Ldb.getBreakPointList]
  by_cases hm : L.currentline ∈ d.allScriptsBreakpoints L.source
  · simp [hm]
  · simp [hm]

/-- After the same commands the same list, and the same decisions. -/
theorem agreeOn_of_commands {source : Text} {dbg₁ dbg₂ : DebuggerType} {w v : World}
    (hw : ListsInvariant w.toSession) (hv : ListsInvariant v.toSession)
    (hsame : commandsAt source w.history = commandsAt source v.history) :
    AgreeOn source dbg₁ dbg₂ w v := by
  have hlists : w.state.allScriptsBreakpoints source = v.state.allScriptsBreakpoints source := by
    rw [hw source, hv source, editsAt_eq, editsAt_eq, hsame]
  refine ⟨hlists, ?_⟩
  intro hwc hvc L M hL hM hline
  constructor
  · rw [decidesToStop_continuing hwc, decidesToStop_continuing hvc, hL, hM, hline, hlists]
  · intro hkept
    -- the same text of the script, hence the same lookup
    have hfound : lineFound w.state L ↔ lineFound v.state M := by
      rw [lineFound, lineFound, hL, hM, hline, hkept]
    rw [stopsAt_iff_mem dbg₁ L w hwc, stopsAt_iff_mem dbg₂ M v hvc, hL, hM, hline, hlists, hfound]

/-- In any two runs with the same break and clear commands at stops in a script, wherever as
many of them have been handled in the one as in the other. -/
theorem scripts_do_not_interfere (source : Text) (dbg₁ dbg₂ : DebuggerType)
    (lines₁ lines₂ : ScriptLines) {as bs : List LdbAction} {w v : World}
    (hw : run (World.step dbg₁) (World.start dbg₁ lines₁ []) as = some w)
    (hv : run (World.step dbg₂) (World.start dbg₂ lines₂ []) bs = some v)
    (hsame : commandsAt source w.history = commandsAt source v.history)
    {as' bs' : List LdbAction} (has : as' <+: as) (hbs : bs' <+: bs) {w' v' : World}
    (hw' : run (World.step dbg₁) (World.start dbg₁ lines₁ []) as' = some w')
    (hv' : run (World.step dbg₂) (World.start dbg₂ lines₂ []) bs' = some v')
    (hcount : (commandsAt source w'.history).length = (commandsAt source v'.history).length) :
    AgreeOn source dbg₁ dbg₂ w' v' := by
  -- the commands of the shorter run are the first of those of the longer one
  have hfirst {dbg : DebuggerType} {lines : ScriptLines} {cs cs' : List LdbAction} {u u' : World}
      (hu : run (World.step dbg) (World.start dbg lines []) cs = some u) (hcs : cs' <+: cs)
      (hu' : run (World.step dbg) (World.start dbg lines []) cs' = some u') :
      commandsAt source u'.history <+: commandsAt source u.history := by
    obtain ⟨rest, rfl⟩ := hcs
    rw [run_append, hu', Option.bind_some] at hu
    exact commandsAt_prefix source (history_run hu)
  have hp := hfirst hw has hw'
  have hq := hfirst hv hbs hv'
  -- both are first parts of one sequence, and of one length
  rw [hsame] at hp
  have heq : commandsAt source w'.history = commandsAt source v'.history := by
    rw [List.prefix_iff_eq_take.mp hp, List.prefix_iff_eq_take.mp hq, hcount]
  exact agreeOn_of_commands (listsInvariant_run hw') (listsInvariant_run hv') heq

/-- Line 5 of `a.lua` is set on both sides, the second time after a stop in another script. -/
theorem scripts_do_not_interfere_breakSet :
    let stopAt (source : String) := LdbAction.hook (.line (.mainChunk (txt source) 1))
    let say (data : String) := LdbAction.read (.data (txt data))
    let as := [stopAt "a.lua", say "break 5\n", say "resume\n"]
    let bs := [stopAt "b.lua", say "break 7", say "step", stopAt "a.lua", say "break 5", say "co"]
    ∃ w v, run (World.step .ide) (World.start .ide (fun _ => []) []) as = some w ∧
      run (World.step .ldb) (World.start .ldb (fun _ => []) []) bs = some v ∧
        AgreeOn (txt "a.lua") .ide .ldb w v := by
  intro stopAt say as bs
  let seen (w : World) := commandsAt (txt "a.lua") w.history
  have hseen : (run (World.step .ide) (World.start .ide (fun _ => []) []) as).map seen =
      (run (World.step .ldb) (World.start .ldb (fun _ => []) []) bs).map seen := by decide +kernel
  have has : (run (World.step .ide) (World.start .ide (fun _ => []) []) as).isSome = true := by
    decide +kernel
  obtain ⟨w, hw⟩ := Option.isSome_iff_exists.mp has
  have hbs : (run (World.step .ldb) (World.start .ldb (fun _ => []) []) bs).isSome = true := by
    decide +kernel
  obtain ⟨v, hv⟩ := Option.isSome_iff_exists.mp hbs
  rw [hw, hv] at hseen
  have hsame : seen w = seen v := Option.some.inj hseen
  exact ⟨w, v, hw, hv, scripts_do_not_interfere (txt "a.lua") .ide .ldb _ _ hw hv hsame
    List.prefix_rfl List.prefix_rfl hw hv (congrArg List.length hsame)⟩

end LuaIde
