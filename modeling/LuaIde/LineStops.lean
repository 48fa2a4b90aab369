import LuaIde.LineEvents
import LuaIde.StopDecisions

/-! From instructions to suspensions: a script that runs until ldb stops it is stopped where
an activation enters a line that ldb was told to stop at. -/
namespace LuaIde

open LineText DecimalText

def Entry.event : Entry → Option (Proto × CInt)
  | .hook _ f currentline => some (f, currentline)
  | _ => none

/-- The calls of the hook in a run, in their order. -/
def hookCalls (log : List Entry) : List (Proto × CInt) := log.filterMap Entry.event

/-- What `HookRoutine` finds in `ar` when it runs for a function at a line. -/
def Raises (call : Proto × CInt) : HookEvent → Prop
  | .line S => S.source = cstr call.1.source ∧ S.currentline = call.2
  | .other => False

/-- ldb is stepping, or the line is in the list stored for the script. -/
def asksFor (d : Ldb) (f : Proto) (line : CInt) : Prop :=
  d.debuggerStates = STEPPING ∨ line ∈ d.allScriptsBreakpoints (cstr f.source)

instance (d : Ldb) (f : Proto) (line : CInt) : Decidable (asksFor d f line) :=
  inferInstanceAs (Decidable (_ ∨ _))

/-- The lookup finds the line among those kept for the script, or none are kept. -/
def lineKept (d : Ldb) (f : Proto) (line : CInt) : Prop :=
  d.allScriptsLines (cstr f.source) = [] ∨
    (1 ≤ line.val ∧ line.val ≤ (d.allScriptsLines (cstr f.source)).length)

/-- The first call of the hook in a run that ldb is to stop at. -/
def firstAsked (d : Ldb) (log : List Entry) : Option (Proto × CInt) :=
  (hookCalls log).find? (fun call => decide (asksFor d call.1 call.2))

theorem eventFound_of_raises {d : Ldb} {call : Proto × CInt} {e : HookEvent}
    (h : Raises call e) : eventFound d e ↔ lineKept d call.1 call.2 := by
  cases e with
  | line S =>
    obtain ⟨hsource, hline⟩ := h
    rw [eventFound, lineFound, lineKept, hsource, hline]
  | other => exact h.elim

theorem shouldStop_of_raises {d : Ldb} {call : Proto × CInt} {e : HookEvent}
    (h : Raises call e) : shouldStop d e ↔ asksFor d call.1 call.2 := by
  cases e with
  | line S =>
    obtain ⟨hsource, hline⟩ := h
    rw [shouldStop, asksFor, hsource, hline]
  | other => exact h.elim

/-- As long as nothing asks for a stop the hook changes nothing, and it is called again. At the
first event that does, ldb waits for a command, or has looked up a line outside of the list. -/
theorem runHooks_firstStop (hooks : List HookEvent) (w : World) (hw : w.inputs = [])
    (hs : w.status = .running)
    (hd : w.state.debuggerStates = STEPPING ∨ w.state.debuggerStates = CONTINUING) :
    match hooks.find? (fun e => decide (shouldStop w.state e)) with
    | none => (runHooks .ide hooks w).status = .running
    | some e => (runHooks .ide hooks w).status ≠ .running ∧
        ((runHooks .ide hooks w).status.isWaiting = true ↔ eventFound w.state e) := by
  induction hooks with
  | nil => exact hs
  | cons e es ih =>
    have hstep : runHooks .ide (e :: es) w = runHooks .ide es (hookRoutine .ide e w) := by
      rw [runHooks, hs]
    have hhook := hookRoutine_noInput e w hw
    cases hr : stopReason w.state e with
    | none =>
      have hno : ¬ shouldStop w.state e := not_shouldStop_of_none hd hr
      rw [hr] at hhook
      rw [List.find?_cons_of_neg (by simpa using hno), hstep, hhook]
      exact ih
    | some r =>
      obtain ⟨L, bp⟩ := r
      have hyes : shouldStop w.state e := shouldStop_of_some hd hr
      have hevent : eventFound w.state e ↔ lineFound w.state L := by
        rw [stopReason_line hr]
        rfl
      rw [hr] at hhook
      rw [List.find?_cons_of_pos (by simpa using hyes), hstep, hhook]
      dsimp only
      rw [hevent]
      -- in both cases nothing of the script runs
      split_ifs with hfound
      · rw [runHooks_of_not_running .ide es _ (by simp [World.stopped])]
        exact ⟨by simp [World.stopped], iff_of_true rfl hfound⟩
      · rw [runHooks_of_not_running .ide es _ (by simp)]
        exact ⟨by simp, iff_of_false (by simp [Status.isWaiting]) hfound⟩

/-- Searches for what corresponds find what corresponds. -/
theorem rel_find? {α β : Type} {R : α → β → Prop} {p : α → Bool} {q : β → Bool}
    (hpq : ∀ a b, R a b → p a = q b) {as : List α} {bs : List β} (h : List.Forall₂ R as bs) :
    Option.Rel R (as.find? p) (bs.find? q) := by
  induction h with
  | nil => exact .none
  | cons hab _ ih =>
    rw [List.find?_cons, List.find?_cons, hpq _ _ hab]
    split
    · exact .some hab
    · exact ih

theorem mem_hookCalls {log : List Entry} {f : Proto} {line : CInt} :
    (f, line) ∈ hookCalls log ↔ ∃ id, .hook id f line ∈ log := by
  rw [hookCalls, List.mem_filterMap]
  constructor
  · rintro ⟨e, he, heq⟩
    cases e with
    | hook id g l =>
      obtain ⟨rfl, rfl⟩ := Prod.mk.inj (Option.some.inj heq)
      exact ⟨id, he⟩
    | enter | word => cases heq
  · rintro ⟨id, he⟩
    exact ⟨_, he, rfl⟩

theorem mem_linesOf {log : List Entry} {id : ℕ} {line : CInt} :
    line ∈ linesOf log id ↔ ∃ f, .hook id f line ∈ log := by
  rw [linesOf, List.mem_filterMap]
  constructor
  · rintro ⟨e, he, heq⟩
    cases e with
    | hook i g l =>
      rw [Entry.lineOf] at heq
      split_ifs at heq with hi
      obtain rfl := Option.some.inj heq
      exact ⟨g, hi ▸ he⟩
    | enter | word => cases heq
  · rintro ⟨f, he⟩
    exact ⟨_, he, if_pos rfl⟩

/-- The hook is called for a function at a line in a run exactly if an activation of the
function, begun with hooks allowed, enters the line. -/
theorem mem_hookCalls_iff_entered {L : Thread} (h : HookInvariant L) (f : Proto) (line : CInt) :
    (f, line) ∈ hookCalls L.log ↔
      ∃ id, .enter id f true ∈ L.log ∧ line ∈ entered f (wordsOf L.log id) := by
  rw [mem_hookCalls]
  constructor
  · rintro ⟨id, he⟩
    obtain ⟨a, ha⟩ := h.hooks id f line he
    have hmem := mem_linesOf.mpr ⟨f, he⟩
    rw [h.lines id f a ha] at hmem
    cases a with
    | true => exact ⟨id, ha, hmem⟩
    | false => cases hmem
  · rintro ⟨id, ha, hmem⟩
    have hline := h.lines id f true ha
    rw [if_pos rfl] at hline
    rw [← hline] at hmem
    obtain ⟨g, hg⟩ := mem_linesOf.mp hmem
    obtain ⟨b, hb⟩ := h.hooks id g line hg
    obtain ⟨rfl, -⟩ := h.unique id g b f true hb ha
    exact ⟨id, hg⟩

/-- Some call of the hook is one to stop at exactly if a line to stop at was entered. -/
theorem firstAsked_isSome {L : Thread} (h : HookInvariant L) (d : Ldb) :
    (firstAsked d L.log).isSome = true ↔
      ∃ id f line, .enter id f true ∈ L.log ∧ line ∈ entered f (wordsOf L.log id) ∧
        asksFor d f line := by
  rw [firstAsked, List.find?_isSome]
  constructor
  · rintro ⟨⟨f, line⟩, hmem, hasked⟩
    obtain ⟨id, he, hline⟩ := (mem_hookCalls_iff_entered h f line).mp hmem
    exact ⟨id, f, line, he, hline, of_decide_eq_true hasked⟩
  · rintro ⟨id, f, line, he, hline, hasked⟩
    exact ⟨(f, line), (mem_hookCalls_iff_entered h f line).mpr ⟨id, he, hline⟩,
      decide_eq_true hasked⟩

/-- Over every run of the interpreter under an ldb that is stepping or continuing and has no
command waiting: the script does not run on exactly if in that run an activation begun with
hooks allowed entered a line at which ldb was to stop, in the script of its function; and ldb has
suspended it exactly if at the first such call of the hook the line is found among those kept
for the script. -/
theorem stopped_iff_line_entered (steps : List VmStep) (L : Thread)
    (hrun : Runs.run vmStep .start steps = some L) (hooks : List HookEvent)
    (hraise : List.Forall₂ Raises (hookCalls L.log) hooks) (w : World) (hw : w.inputs = [])
    (hs : w.status = .running)
    (hd : w.state.debuggerStates = STEPPING ∨ w.state.debuggerStates = CONTINUING) :
    ((runHooks .ide hooks w).status ≠ .running ↔
      ∃ id f line, .enter id f true ∈ L.log ∧ line ∈ entered f (wordsOf L.log id) ∧
        asksFor w.state f line) ∧
    ((runHooks .ide hooks w).status.isWaiting = true ↔
      ∃ f line, firstAsked w.state L.log = some (f, line) ∧ lineKept w.state f line) := by
  have hfirst := runHooks_firstStop hooks w hw hs hd
  have hrel : Option.Rel Raises (firstAsked w.state L.log)
      (hooks.find? (fun e => decide (shouldStop w.state e))) := by
    refine rel_find? (fun call e h => ?_) hraise
    exact decide_eq_decide.mpr (shouldStop_of_raises h).symm
  rw [← firstAsked_isSome (hookInvariant_run hrun) w.state]
  generalize hcall : firstAsked w.state L.log = call at hrel
  generalize hooks.find? (fun e => decide (shouldStop w.state e)) = event at hrel hfirst
  cases hrel with
  | none =>
    refine ⟨iff_of_false (fun h => h hfirst) (by simp), iff_of_false ?_ (by simp)⟩
    rw [hfirst]
    exact Bool.false_ne_true
  | some hraises =>
    obtain ⟨hstopped, hwaiting⟩ := hfirst
    refine ⟨iff_of_true hstopped rfl, ?_⟩
    rw [hwaiting, eventFound_of_raises hraises]
    constructor
    · exact fun h => ⟨_, _, rfl, h⟩
    · rintro ⟨f, line, h, hkept⟩
      obtain rfl := Option.some.inj h
      exact hkept

/-- ldb running with a breakpoint at line 2 is stopped by the loop of two lines. -/
theorem stopped_iff_line_entered_oneTurn :
    let w : World := { World.start .ide (fun _ => []) [] with
      state := { Ldb.initial (fun _ => []) with
        debuggerStates := CONTINUING
        allScriptsBreakpoints := fun _ => [2] } }
    let hooks := [1, 2, 1].map
      (fun line => HookEvent.line (LuaState.mainChunk (txt "@loop.lua") line))
    (runHooks .ide hooks w).status ≠ .running ∧
      (runHooks .ide hooks w).status.isWaiting = true := by
  intro w hooks
  have hasks : asksFor w.state twoLines 2 := .inr List.mem_cons_self
  have hstop := stopped_iff_line_entered oneTurn _ rfl hooks
    (.cons ⟨rfl, rfl⟩ (.cons ⟨rfl, rfl⟩ (.cons ⟨rfl, rfl⟩ .nil))) w rfl rfl (.inr rfl)
  refine ⟨hstop.1.mpr ?_, hstop.2.mpr ?_⟩
  · exact ⟨1, twoLines, 2, List.mem_cons_self, List.mem_cons_of_mem _ List.mem_cons_self, hasks⟩
  · exact ⟨twoLines, 2, rfl, .inl rfl⟩

end LuaIde
