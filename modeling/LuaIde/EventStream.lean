import LuaIde.StopDecisions
import Mathlib.Data.List.Forall2

/-! The event socket: what a run writes on it, line by line, against the transitions
of the run it is to report. -/
namespace LuaIde

open LineText DecimalText Delimited

/-- The lines a command puts on the event socket. -/
def commandEventLines : Command → List Text
  | .suspend => [txt "suspended client"]
  | .step => [txt "resumed step", txt "resumed step", txt "suspended step"]
  | .resume => [txt "resumed client"]
  | _ => []

/-- The lines one happening puts on the event socket. -/
def eventLines : Happening → List Text
  | .entered (some n) =>
    [txt "resumed client", txt "resumed client", txt "suspended breakpoint " ++ ofInt n.val,
      txt "resumed client", txt "resumed client", txt "suspended step"]
  | .entered none => [txt "resumed client", txt "resumed client", txt "suspended step"]
  | .handled _ data => ((commandOf data).map commandEventLines).getD []

theorem oneLine_eventLines (h : Happening) : ∀ l ∈ eventLines h, OneLine l := by
  have hlit : (∀ c, ∀ l ∈ commandEventLines c, OneLine l) ∧
      OneLine (txt "resumed client") ∧ OneLine (txt "suspended step") := by
    refine ⟨fun c => ?_, by decide, by decide⟩
    cases c <;> decide
  cases h with
  | entered bp =>
    cases bp with
    | none => simp [eventLines, hlit.2.1, hlit.2.2]
    | some n =>
      have hn : OneLine (txt "suspended breakpoint " ++ ofInt n.val) :=
        (oneLine_append _ _).mpr ⟨by decide, oneLine_ofInt n.val⟩
      simp [eventLines, hlit.2.1, hlit.2.2, hn]
  | handled source data =>
    rcases hc : commandOf data with _ | c
    · simp [eventLines, hc]
    · simpa [eventLines, hc] using hlit.1 c

theorem stop_events (s : Session) (bp : Option CInt) :
    (s.stop .ide bp).events = s.events ++ terminated '\n' (eventLines (.entered bp)) := by
  cases bp with
  | none => simp [Session.stop, entryEvents, toIde, eventLines, terminated]
  | some n => simp [Session.stop, entryEvents, breakpointEvents, toIde, eventLines, terminated]

theorem commandEvents_eq (source data : Text) :
    ((commandOf data).map (commandEvents .ide)).getD [] =
      terminated '\n' (eventLines (.handled source data)) := by
  rw [eventLines]
  rcases commandOf data with _ | c
  · rfl
  · cases c <;> simp [commandEvents, commandEventLines, toIde, terminated]

/-- Everything on the event socket is the lines of what happened, in order. -/
def EventsInvariant (s : Session) : Prop :=
  s.events = terminated '\n' (txt "started" :: s.history.flatMap eventLines)

theorem eventsInvariant_append (s t : Session) (h : Happening) (hs : EventsInvariant s)
    (he : t.events = s.events ++ terminated '\n' (eventLines h))
    (hh : t.history = s.history ++ [h]) : EventsInvariant t := by
  unfold EventsInvariant at hs ⊢
  rw [he, hh, hs, List.flatMap_append, ← terminated_append]
  simp

theorem eventsInvariant_stop (s : Session) (bp : Option CInt) (hs : EventsInvariant s) :
    EventsInvariant (s.stop .ide bp) :=
  eventsInvariant_append s _ (.entered bp) hs (stop_events s bp) rfl

theorem eventsInvariant_perform (s : Session) (L : LuaState) (data : Text) (r : Reaction)
    (hs : EventsInvariant s) (hr : handle .ide L s.state data = .ok r) :
    EventsInvariant (s.perform L.source data r) := by
  refine eventsInvariant_append s _ (.handled L.source data) hs ?_ rfl
  have he := (handle_effects .ide L s.state data r hr).2.1
  simp only [Session.perform, he, commandEvents_eq L.source]

theorem events_runHooks (lines : ScriptLines) (inputs : List Recv) (hooks : List HookEvent) :
    EventsInvariant (runHooks .ide hooks (World.start .ide lines inputs)).toSession := by
  apply runHooks_invariant .ide EventsInvariant
  · intro s _ _ bp hs _
    exact eventsInvariant_stop s bp hs
  · exact eventsInvariant_perform
  · simp [EventsInvariant, World.start, toIde, terminated]

/-- A reader of the event socket gets these lines. -/
theorem EventsInvariant.lines_eq {s : Session} (h : EventsInvariant s) :
    lines s.events = txt "started" :: s.history.flatMap eventLines := by
  rw [show s.events = _ from h]
  apply lines_terminated
  intro l hl
  rcases List.mem_cons.mp hl with rfl | hl
  · decide
  · obtain ⟨x, -, hl⟩ := List.mem_flatMap.mp hl
    exact oneLine_eventLines x l hl

/-- What the event stream has to report: an entry into the parser, with the breakpoint
that caused it, and a return caused by step, continue or resume. -/
inductive Transition where
  | stopped (breakPoint : Option CInt)
  | resumed

def transitionOf : Happening → Option Transition
  | .entered bp => some (.stopped bp)
  | .handled _ data =>
    match commandOf data with
    | some .step | some .resume => some .resumed
    | _ => none

/-- The line that reports a transition. The reason of a resume is left open. -/
def reports (t : Transition) (line : Text) : Prop :=
  match t with
  | .stopped (some n) => line = txt "suspended breakpoint " ++ ofInt n.val
  | .stopped none => line = txt "suspended step"
  | .resumed => txt "resumed " <+: line

/-- Behind `started`, the event stream has one line for each transition, in order. -/
def reportsOnce (w : World) : Prop :=
  List.Forall₂ reports (w.history.filterMap transitionOf) (lines w.events).tail

theorem history_grows (dbg : DebuggerType) (hooks : List HookEvent) (w : World) :
    w.history <+: (runHooks dbg hooks w).history := by
  apply runHooks_invariant dbg (fun s => w.history <+: s.history)
  · intro s _ _ bp hs _
    exact hs.trans (List.prefix_append _ _)
  · intro s L data r hs _
    exact hs.trans (List.prefix_append _ _)
  · exact List.prefix_rfl

theorem history_grows_parserLoop (dbg : DebuggerType) (inputs : List Recv) (w : World) :
    w.history <+: (parserLoop dbg inputs w).history := by
  apply parserLoop_invariant dbg (fun s => w.history <+: s.history)
  · intro s L data r hs _
    exact hs.trans (List.prefix_append _ _)
  · exact List.prefix_rfl

/-- The first line event. -/
def firstLineEvent : List HookEvent → Option LuaState
  | [] => none
  | .line L :: _ => some L
  | .other :: es => firstLineEvent es

/-- The hook does nothing at the events in front of the first line event. -/
theorem runHooks_firstLineEvent (dbg : DebuggerType) (hooks : List HookEvent) (w : World)
    (hrun : w.status = .running) :
    match firstLineEvent hooks with
    | none => runHooks dbg hooks w = w
    | some L => ∃ es, runHooks dbg hooks w = runHooks dbg es (hookRoutine dbg (.line L) w) := by
  induction hooks with
  | nil => rfl
  | cons e es ih =>
    simp only [runHooks, hrun]
    cases e with
    | other => exact ih
    | line L => exact ⟨es, rfl⟩

/-- ldb starts in stepping mode, so that it is to stop at the first line event. -/
theorem hookRoutine_stepping (dbg : DebuggerType) (L : LuaState) (w : World)
    (hmode : w.state.debuggerStates = STEPPING) :
    hookRoutine dbg (.line L) w =
      if lineFound w.state L then parserLoop dbg w.inputs (w.stopped dbg L none)
      else { w with status := .over .uninitialised } := by
  have hne : STEPPING ≠ CONTINUING := by decide
  have hr : stopReason w.state (.line L) = some (L, none) := by
    simp [stopReason, hmode, hne]
  rw [hookRoutine_eq, hr]

/-- The event stream reports every transition by exactly one line just in the runs without a
stop, since the first stop already sends three lines: in those in which the hook sees no line
event, or looks up the first one outside of the list kept for its script. -/
theorem reportsOnce_iff (lines : ScriptLines) (inputs : List Recv) (hooks : List HookEvent) :
    reportsOnce (runHooks .ide hooks (World.start .ide lines inputs)) ↔
      ∀ L, firstLineEvent hooks = some L → ¬ lineFound (.initial lines) L := by
  have hfirst := runHooks_firstLineEvent .ide hooks (World.start .ide lines inputs) rfl
  -- a run that has only started
  have hquiet (w : World) (hh : w.history = []) (he : w.events = txt "started" ++ ['\n']) :
      reportsOnce w := by
    have hl : LineText.lines (txt "started" ++ ['\n']) = [txt "started"] := by decide
    rw [reportsOnce, hh, he, hl]
    exact .nil
  rcases hl : firstLineEvent hooks with _ | L
  · simp only [hl] at hfirst
    refine iff_of_true ?_ (by simp)
    rw [hfirst]
    exact hquiet _ rfl rfl
  · simp only [hl] at hfirst
    obtain ⟨es, hrun⟩ := hfirst
    have hstep := hookRoutine_stepping .ide L (World.start .ide lines inputs) rfl
    have hstate : (World.start .ide lines inputs).state = .initial lines := rfl
    rw [hstate] at hstep
    by_cases hfound : lineFound (.initial lines) L
    · rw [if_pos hfound] at hstep
      refine iff_of_false ?_ (fun h => h L rfl hfound)
      intro h
      -- the first thing that happens is the stop
      obtain ⟨rest, hrest⟩ := (history_grows_parserLoop .ide inputs
        ((World.start .ide lines inputs).stopped .ide L none)).trans (history_grows .ide es _)
      have hh : (runHooks .ide hooks (World.start .ide lines inputs)).history =
          .entered none :: rest := by
        rw [hrun, hstep]
        exact hrest.symm
      rw [reportsOnce, (events_runHooks lines inputs hooks).lines_eq, hh] at h
      -- the first line behind `started` would have to report it
      have hreports : reports (.stopped none) (txt "resumed client") := by
        cases h with
        | cons hd _ => exact hd
      have hne : txt "resumed client" ≠ txt "suspended step" := by decide
      exact hne hreports
    · rw [if_neg hfound] at hstep
      refine iff_of_true ?_ ?_
      · rw [hrun, hstep, runHooks_of_not_running .ide es _ (by simp)]
        exact hquiet _ rfl rfl
      · rintro _ ⟨rfl⟩
        exact hfound

/-- One step over one line: an entry and a return, announced by six lines. -/
theorem reportsOnce_fails_oneStep :
    ¬ reportsOnce (runHooks .ide [.line (.mainChunk (txt "a.lua") 1)]
      (World.start .ide (fun _ => []) [.data (txt "step\n")])) := by
  intro h
  have hlen := h.length_eq
  revert hlen
  decide +kernel

end LuaIde
