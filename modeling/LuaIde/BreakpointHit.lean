import LuaIde.PdaBreakpoints
import LuaIde.SuspendAgreement

/-! Breakpoints as listeners: ldb, the thread, and behind it the installed breakpoints, which
see every event line and tell the thread that they were hit. -/
namespace LuaIde

open LineText DecimalText Delimited Runs

/-- `PDAThread.getBreakpoints`. -/
def PDAThread.getBreakpoints (t : PDAThread) : List ℕ :=
  match t.fBreakpoint with
  | none => []
  | some breakpoint => [breakpoint]

/-- The listeners behind the thread, known by numbers, and whether one of them has thrown
an exception, which ends the dispatch job. -/
structure Listening extends Joint where
  breakpoints : List (ℕ × PDALineBreakpoint)
  jobEnded : Bool

/-- An action of ldb or the IDE, or a breakpoint that becomes a listener or is none any
longer. -/
inductive ListeningAction where
  | joint (a : Action)
  | listen (id : ℕ) (b : PDALineBreakpoint)
  | unlisten (id : ℕ)

/-- The breakpoints see the line one after the other, until one throws. -/
def notifyBreakpoints (event : Text) : List (ℕ × PDALineBreakpoint) → PDAThread → PDAThread × Bool
  | [], t => (t, false)
  | (id, b) :: rest, t =>
    match b.handleEvent event with
    | .ok true => notifyBreakpoints event rest (t.suspendedBy id)
    | .ok false => notifyBreakpoints event rest t
    | .error _ => (t, true)

/-- While the process runs the event socket carries the lines of the history, and when it
has ended nobody waits for a command. -/
structure Joint.Sound (s : Joint) : Prop where
  events : s.finished = false → EventsInvariant s.world.toSession
  ended : s.finished = true → s.world.status = .running

namespace Listening

def start (lines : ScriptLines) : Listening :=
  { Joint.start lines with breakpoints := [], jobEnded := false }

def step (s : Listening) : ListeningAction → Option Listening
  | .joint .deliver => do
    if s.jobEnded then none
    else
      let event ← (lines s.world.events)[s.handledLines]?
      let heard ← s.toJoint.step .deliver
      let (thread, threw) := notifyBreakpoints event s.breakpoints heard.thread
      return { s with toJoint := { heard with thread := thread }, jobEnded := threw }
  | .joint a => do
    let j ← s.toJoint.step a
    return { s with toJoint := j }
  | .listen id b =>
    if id ∈ s.breakpoints.map Prod.fst then some s
    else some { s with breakpoints := s.breakpoints ++ [(id, b)] }
  | .unlisten id => some { s with breakpoints := s.breakpoints.filter (fun e => decide (e.1 ≠ id)) }

/-- ldb has stopped at its breakpoint on line `n` and has got no command since, and all
lines it sent are handled. -/
structure HitHandled (s : Listening) (n : CInt) : Prop where
  waiting : s.world.status.isWaiting = true
  hit : s.world.history.getLast? = some (.entered (some n))
  quiescent : s.toJoint.quiescent

/-- The breakpoint with that number is installed on line `n`. -/
def InstalledAt (s : Listening) (id : ℕ) (n : CInt) : Prop :=
  ∃ b, (id, b) ∈ s.breakpoints ∧ b.fTarget = true ∧ b.isWatchpoint = false ∧ b.lineNumber = n

/-- The hit can be seen on the thread. -/
def ShowsHit (s : Listening) (id : ℕ) : Prop :=
  s.thread.getBreakpoints = [id] ∧ s.toJoint.isSuspended = true

/-- What holds in every state: a thread that handled `suspended step` last knows of no
breakpoint and is suspended. -/
structure HearsLast (s : Listening) : Prop where
  sound : s.toJoint.Sound
  handled : s.handledLines ≤ (lines s.world.events).length
  last : ∀ k, s.handledLines = k+1 → (lines s.world.events)[k]? = some (txt "suspended step") →
    s.thread.fBreakpoint = none ∧ s.thread.fSuspended = true

end Listening

namespace Joint

/-- No action takes back what was written on the event socket. -/
theorem events_grow {s t : Joint} {a : Action} (h : s.step a = some t) :
    s.world.events <+: t.world.events := by
  have hstop : ∀ u : Session, ∀ (e : HookEvent) (L : LuaState) (bp : Option CInt),
      s.world.events <+: u.events → stopReason u.state e = some (L, bp) →
        s.world.events <+: (u.stop .ide bp).events :=
    fun u _ _ _ hu _ => hu.trans (List.prefix_append _ _)
  have hperform : ∀ u : Session, ∀ (L : LuaState) (data : Text) (r : Reaction),
      s.world.events <+: u.events → handle .ide L u.state data = .ok r →
        s.world.events <+: (u.perform L.source data r).events :=
    fun u _ _ _ hu _ => hu.trans (List.prefix_append _ _)
  cases a with
  | hook e =>
    obtain ⟨-, -, rfl⟩ := step_hook h
    exact hookRoutine_invariant .ide _ hstop hperform e s.world List.prefix_rfl
  | read r =>
    obtain ⟨L, pending, -, rfl⟩ := step_read h
    exact receive_invariant .ide _ hperform L pending r s.world List.prefix_rfl
  | finish report =>
    simp only [step] at h
    split at h
    · obtain rfl := Option.some.inj h
      exact List.prefix_append _ _
    · cases h
  | deliver =>
    obtain ⟨event, -, rfl⟩ := step_deliver h
    exact List.prefix_rfl

theorem sound_start (lines : ScriptLines) : (start lines).Sound := by
  refine ⟨fun _ => ?_, by simp [start]⟩
  simp [EventsInvariant, start, World.start, toIde, terminated]

theorem sound_step {s t : Joint} {a : Action} (hs : s.Sound) (h : s.step a = some t) :
    t.Sound := by
  cases a with
  | hook e =>
    obtain ⟨hf, -, rfl⟩ := step_hook h
    refine ⟨fun _ => ?_, fun hf' => by simp [hf] at hf'⟩
    exact hookRoutine_invariant .ide EventsInvariant
      (fun u _ _ bp hu _ => eventsInvariant_stop u bp hu) eventsInvariant_perform e s.world
      (hs.events hf)
  | read r =>
    obtain ⟨L, pending, hw, rfl⟩ := step_read h
    refine ⟨fun hf => ?_, fun hf => ?_⟩
    · exact receive_invariant .ide EventsInvariant eventsInvariant_perform L pending r s.world
        (hs.events hf)
    · have hrun := hs.ended hf
      rw [hw] at hrun
      cases hrun
  | finish report =>
    obtain ⟨-, hrun, hf, hst⟩ := step_finish h
    exact ⟨fun hf' => by simp [hf] at hf', fun _ => hst.trans hrun⟩
  | deliver =>
    obtain ⟨event, -, rfl⟩ := step_deliver h
    exact ⟨hs.events, hs.ended⟩

/-- Only the event job changes the thread. -/
theorem step_thread {s t : Joint} {a : Action} (ha : a ≠ .deliver) (h : s.step a = some t) :
    t.thread = s.thread ∧ t.handledLines = s.handledLines := by
  cases a with
  | hook e =>
    obtain ⟨-, -, rfl⟩ := step_hook h
    exact ⟨rfl, rfl⟩
  | read r =>
    obtain ⟨L, pending, -, rfl⟩ := step_read h
    exact ⟨rfl, rfl⟩
  | finish report =>
    simp only [step] at h
    split at h
    · obtain rfl := Option.some.inj h
      exact ⟨rfl, rfl⟩
    · cases h
  | deliver => exact absurd rfl ha

end Joint

namespace Listening

/-- `suspended step` is no hit, so the breakpoints leave the thread alone. -/
theorem notifyBreakpoints_suspendedStep (bs : List (ℕ × PDALineBreakpoint)) (t : PDAThread) :
    notifyBreakpoints (txt "suspended step") bs t = (t, false) := by
  have hno (b : PDALineBreakpoint) : b.handleEvent (txt "suspended step") = .ok false := by
    have hline : (txt "suspended breakpoint").isPrefixOf (txt "suspended step") = false := by decide
    have hwatch : (txt "suspended watch").isPrefixOf (txt "suspended step") = false := by decide
    unfold PDALineBreakpoint.handleEvent
    split <;> simp [hline, hwatch]
  induction bs with
  | nil => rfl
  | cons e bs ih =>
    obtain ⟨id, b⟩ := e
    rw [notifyBreakpoints, hno]
    exact ih

/-- A thread that handles `suspended step` forgets the breakpoint. -/
theorem handleEvent_suspendedStep (t : PDAThread) :
    (t.handleEvent (txt "suspended step")).fBreakpoint = none ∧
      (t.handleEvent (txt "suspended step")).fSuspended = true := by
  constructor <;> rfl

theorem step_deliver {s t : Listening} (h : s.step (.joint .deliver) = some t) :
    ∃ event, (lines s.world.events)[s.handledLines]? = some event ∧
      t.world = s.world ∧ t.finished = s.finished ∧ t.handledLines = s.handledLines + 1 ∧
        t.thread = (notifyBreakpoints event s.breakpoints (s.thread.handleEvent event)).1 := by
  simp only [step] at h
  split at h
  · cases h
  · obtain ⟨event, hl, h⟩ := Option.bind_eq_some_iff.mp h
    obtain ⟨heard, hheard, h⟩ := Option.bind_eq_some_iff.mp h
    obtain ⟨event', hl', rfl⟩ := Joint.step_deliver hheard
    obtain rfl : event = event' := Option.some.inj (hl.symm.trans hl')
    obtain rfl := Option.some.inj h
    exact ⟨event, hl, rfl, rfl, rfl, rfl⟩

theorem step_joint {s t : Listening} {a : Action} (ha : a ≠ .deliver)
    (h : s.step (.joint a) = some t) : s.toJoint.step a = some t.toJoint := by
  have hbind : (s.toJoint.step a).bind (fun j => some { s with toJoint := j }) = some t := by
    cases a with
    | deliver => exact absurd rfl ha
    | _ => exact h
  obtain ⟨j, hj, ht⟩ := Option.bind_eq_some_iff.mp hbind
  obtain rfl := Option.some.inj ht
  exact hj

theorem hearsLast_deliver {s t : Listening} (hs : HearsLast s)
    (h : s.step (.joint .deliver) = some t) : HearsLast t := by
  obtain ⟨event, hl, hw, hf, hk, hthread⟩ := step_deliver h
  obtain ⟨hlt, -⟩ := List.getElem?_eq_some_iff.mp hl
  refine ⟨⟨?_, ?_⟩, ?_, ?_⟩
  · rw [hw, hf]
    exact hs.sound.events
  · rw [hw, hf]
    exact hs.sound.ended
  · rw [hw, hk]
    exact hlt
  · intro k hk' hlast
    obtain rfl : s.handledLines = k := by omega
    rw [hw, hl, Option.some.injEq] at hlast
    rw [hthread, hlast, notifyBreakpoints_suspendedStep]
    exact handleEvent_suspendedStep s.thread

theorem hearsLast_quiet {s t : Listening} {a : Action} (ha : a ≠ .deliver) (hs : HearsLast s)
    (h : s.toJoint.step a = some t.toJoint) : HearsLast t := by
  obtain ⟨hthread, hk⟩ := Joint.step_thread ha h
  obtain ⟨rest, hlines⟩ := lines_prefix (Joint.events_grow h)
  have hle := hs.handled
  refine ⟨Joint.sound_step hs.sound h, ?_, ?_⟩
  · rw [hk, ← hlines, List.length_append]
    omega
  · intro k hk' hlast
    rw [hk] at hk'
    rw [← hlines, List.getElem?_append_left (by omega)] at hlast
    rw [hthread]
    exact hs.last k hk' hlast

theorem hearsLast_step (s : Listening) (a : ListeningAction) (t : Listening) (hs : HearsLast s)
    (h : s.step a = some t) : HearsLast t := by
  cases a with
  | joint a =>
    by_cases ha : a = .deliver
    · subst ha
      exact hearsLast_deliver hs h
    · exact hearsLast_quiet ha hs (step_joint ha h)
  | listen id b =>
    simp only [step] at h
    split at h
    · obtain rfl := Option.some.inj h
      exact hs
    · obtain rfl := Option.some.inj h
      exact ⟨hs.sound, hs.handled, hs.last⟩
  | unlisten id =>
    obtain rfl := Option.some.inj h
    exact ⟨hs.sound, hs.handled, hs.last⟩

theorem hearsLast_start (lines : ScriptLines) : HearsLast (start lines) :=
  ⟨Joint.sound_start lines, by simp [start, Joint.start], by simp [start, Joint.start]⟩

/-- The last line of a stop is a `suspended step`, whatever caused the stop. -/
theorem last_line_of_stop {s : Session} {bp : Option CInt} (he : EventsInvariant s)
    (hh : s.history.getLast? = some (.entered bp)) :
    (lines s.events).getLast? = some (txt "suspended step") := by
  obtain ⟨history, hhist⟩ := List.getLast?_eq_some_iff.mp hh
  have hstop : ∃ ls, eventLines (.entered bp) = ls ++ [txt "suspended step"] := by
    cases bp with
    | none => exact ⟨[txt "resumed client", txt "resumed client"], rfl⟩
    | some n =>
      exact ⟨[txt "resumed client", txt "resumed client",
        txt "suspended breakpoint " ++ ofInt n.val, txt "resumed client", txt "resumed client"],
        rfl⟩
  obtain ⟨ls, hls⟩ := hstop
  rw [he.lines_eq, hhist, List.flatMap_append, List.flatMap_singleton, hls, ← List.append_assoc,
    ← List.cons_append]
  exact List.getLast?_concat

/-- In every run: when the lines of a stop at a breakpoint are all handled, the thread is
suspended and knows of no breakpoint, so that the hit shows on none of those installed there. -/
theorem hit_never_shows (scriptLines : ScriptLines) (s : Listening) (n : CInt) (id : ℕ)
    (h : Reaches step (fun _ _ => True) (start scriptLines) s) (hs : s.HitHandled n)
    (_ : s.InstalledAt id n) :
    s.thread.getBreakpoints = [] ∧ s.toJoint.isSuspended = true ∧ ¬ s.ShowsHit id := by
  have hinv : HearsLast s :=
    h.invariant (fun s a t hs _ => hearsLast_step s a t hs) (hearsLast_start scriptLines)
  -- ldb waits at a stop, so the program has not come to its end
  have hf : s.finished = false := by
    by_contra hf
    have hrun := hinv.sound.ended (by simpa using hf)
    have hw := hs.waiting
    rw [hrun] at hw
    cases hw
  have hlast := last_line_of_stop (hinv.sound.events hf) hs.hit
  obtain ⟨k, hk⟩ : ∃ k, s.handledLines = k+1 := by
    rcases hz : s.handledLines with _ | k
    · have hempty : lines s.world.events = [] := by
        apply List.length_eq_zero_iff.mp
        rw [← hz]
        exact hs.quiescent.symm
      rw [hempty] at hlast
      cases hlast
    · exact ⟨k, rfl⟩
  have hq : (lines s.world.events).length = k+1 := by
    rw [← hk]
    exact hs.quiescent.symm
  rw [List.getLast?_eq_getElem?, hq, Nat.add_sub_cancel] at hlast
  -- a `suspended step` comes last, and takes the breakpoint away again
  obtain ⟨hnone, hsusp⟩ := hinv.last k hk hlast
  have hempty : s.thread.getBreakpoints = [] := by rw [PDAThread.getBreakpoints, hnone]
  refine ⟨hempty, by simp [Joint.isSuspended, hsusp, hf], fun hshow => ?_⟩
  rw [ShowsHit, hempty] at hshow
  exact absurd hshow.1 (by simp)

/-- The breakpoint ldb stopped at last, if it has got no command since. -/
def lastHit (s : Listening) : Option CInt :=
  match s.world.history.getLast? with
  | some (.entered bp) => bp
  | _ => none

theorem lastHit_eq_some {s : Listening} {n : CInt} (h : s.lastHit = some n) :
    s.world.history.getLast? = some (.entered (some n)) := by
  unfold lastHit at h
  split at h
  · next bp hh => rw [hh, h]
  · cases h

/-- A breakpoint on line 5 of the program. -/
def onLineFive : PDALineBreakpoint where
  kind := .line
  modelIdentifier := ID_PDA_DEBUG_MODEL
  resource := none
  enabled := true
  lineNumber := 5
  fTarget := true

/-- At the first stop the breakpoint is installed and the program resumed, it comes to the
line, and the IDE handles all lines. -/
def runsToLineFive : List ListeningAction :=
  firstStop.map .joint ++
    [.listen 0 onLineFive, .joint (.read (.data (txt "break 5\n"))),
      .joint (.read (.data (txt "resume\n"))),
      .joint (.hook (.line (.mainChunk (txt "a.lua") 5)))] ++
    List.replicate 7 (.joint .deliver)

/-- What an observer sees of the run behind the hit. -/
def observeHit (s : Listening) : (Bool × Option CInt × Bool) × List (ℕ × PDALineBreakpoint) :=
  ((s.world.status.isWaiting, s.lastHit, decide s.toJoint.quiescent), s.breakpoints)

theorem runsToLineFive_hits :
    ∃ s, run step (start fun _ => []) runsToLineFive = some s ∧
      s.HitHandled 5 ∧ s.InstalledAt 0 5 := by
  have hobs : (run step (start fun _ => []) runsToLineFive).map observeHit =
      some ((true, some 5, true), [(0, onLineFive)]) := by
    decide +kernel
  obtain ⟨s, hrun, hs⟩ := Option.map_eq_some_iff.mp hobs
  simp only [observeHit, Prod.mk.injEq, decide_eq_true_eq] at hs
  obtain ⟨⟨hw, hhit, hq⟩, hbs⟩ := hs
  exact ⟨s, hrun, ⟨hw, lastHit_eq_some hhit, hq⟩, onLineFive, by simp [hbs], rfl, rfl, rfl⟩

theorem hit_never_shows_lineFive :
    ∃ s, run step (start fun _ => []) runsToLineFive = some s ∧
      s.thread.getBreakpoints = [] ∧ s.toJoint.isSuspended = true ∧ ¬ s.ShowsHit 0 := by
  obtain ⟨s, hrun, hhit, hat⟩ := runsToLineFive_hits
  exact ⟨s, hrun, hit_never_shows _ s 5 0 (reaches_of_run (fun _ _ _ => trivial) hrun) hhit hat⟩

/-- The thread is suspended at the breakpoint, and has none to show. -/
theorem hitAtLineFive_is_lost :
    ∃ s, run step (start fun _ => []) runsToLineFive = some s ∧ s.HitHandled 5 ∧ s.InstalledAt 0 5 ∧
      ¬ s.ShowsHit 0 := by
  obtain ⟨s, hrun, hhit, hat⟩ := runsToLineFive_hits
  have hobs : (run step (start fun _ => []) runsToLineFive).map (fun s => s.thread.getBreakpoints) =
      some [] := by
    decide +kernel
  have hempty : s.thread.getBreakpoints = [] := by simpa [hrun] using hobs
  refine ⟨s, hrun, hhit, hat, fun hshow => ?_⟩
  rw [ShowsHit, hempty] at hshow
  exact absurd hshow.1 (by simp)

end Listening

end LuaIde
