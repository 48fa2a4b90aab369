import LuaIde.CommandReplies
import LuaIde.EventStream
import LuaIde.PdaThread
import LuaIde.Runs

/-! ldb and the IDE side by side: hook events, received commands and handled event lines
in any order, and when the two agree on whether the program is suspended. -/
namespace LuaIde

open LineText DecimalText Delimited Runs

/-- ldb, whether its process has ended, and the thread of the IDE that has handled the
first `handledLines` lines of the event socket. -/
structure Joint where
  world : World
  finished : Bool
  handledLines : ℕ
  thread : PDAThread

/-- A hook call, a receive of ldb, the end of the script with the error `main` reports,
and an event line handled by the IDE. -/
inductive Action where
  | hook (e : HookEvent)
  | read (r : Recv)
  | finish (report : Option (Text × Text))
  | deliver

def scriptError : Option (Text × Text) → Text
  | none => []
  | some (luaScriptName, message) =>
    txt "syntaxerror | " ++ luaScriptName ++ txt " | " ++ message

namespace Joint

def start (lines : ScriptLines) : Joint := ⟨World.start .ide lines [], false, 0, .initial⟩

def step (s : Joint) : Action → Option Joint
  | .hook e =>
    match s.finished, s.world.status with
    | false, .running => some { s with world := hookRoutine .ide e s.world }
    | _, _ => none
  | .read r =>
    match s.world.status with
    | .waiting L pending => some { s with world := receive .ide L pending r s.world }
    | _ => none
  | .finish report =>
    match s.finished, s.world.status with
    | false, .running =>
      some { s with
        finished := true
        world := { s.world with events := s.world.events ++ scriptError report } }
    | _, _ => none
  | .deliver =>
    match (lines s.world.events)[s.handledLines]? with
    | some event =>
      some { s with thread := s.thread.handleEvent event, handledLines := s.handledLines + 1 }
    | none => none

/-- `PDAThread.isSuspended`: the target is terminated when the process has ended. -/
def isSuspended (s : Joint) : Bool := s.thread.fSuspended && !s.finished

/-- Every line of the event socket has been handled. -/
def quiescent (s : Joint) : Prop := s.handledLines = (lines s.world.events).length

instance (s : Joint) : Decidable s.quiescent := inferInstanceAs (Decidable (_ = _))

end Joint

/-- A received piece that leaves the parser, if at all, through continue or resume: the
connection stays, a completed command is terminated, needs no missing word, array element
or failing traversal, and is no step, no quit and not given up for want of a newline. -/
def leavesByResume (L : LuaState) (d : Ldb) (pending : Option (Text × ℕ)) : Recv → Prop
  | .closed => False
  | .data piece =>
    match intake pending (cstr piece) with
    | .more _ => True
    | .command data gaveUp => handles .ide L d data ∧ (commandOf data = some .resume ∨
        (gaveUp = false ∧ commandOf data ≠ some .step ∧ commandOf data ≠ some .quit))

/-- The condition on an action, in the state it is taken in. -/
def keepsAgreement (s : Joint) : Action → Prop
  | .read r =>
    match s.world.status with
    | .waiting L pending => leavesByResume L s.world.state pending r
    | _ => True
  | _ => True

/-- The thread after it has handled all lines of a history. -/
def threadAfter (history : List Happening) : PDAThread :=
  (txt "started" :: history.flatMap eventLines).foldl PDAThread.handleEvent .initial

theorem threadAfter_append (history : List Happening) (h : Happening) :
    threadAfter (history ++ [h]) =
      (eventLines h).foldl PDAThread.handleEvent (threadAfter history) := by
  rw [threadAfter, List.flatMap_append, ← List.cons_append, List.foldl_append]
  simp [threadAfter]

/-- The lines of an entry end with a suspend. -/
theorem entered_suspends (t : PDAThread) (bp : Option CInt) :
    ((eventLines (.entered bp)).foldl PDAThread.handleEvent t).fSuspended = true := by
  have hlast (u : PDAThread) : (u.handleEvent (txt "suspended step")).fSuspended = true := by
    rw [PDAThread.handleEvent_fSuspended]
    rfl
  cases bp with
  | none => exact hlast _
  | some n => exact hlast _

/-- Of the lines of a command, only those of continue and resume leave a running thread. -/
theorem handled_suspends (t : PDAThread) (source data : Text) (ht : t.fSuspended = true) :
    ((eventLines (.handled source data)).foldl PDAThread.handleEvent t).fSuspended =
      decide (commandOf data ≠ some .resume) := by
  have hsusp (u : PDAThread) : (u.handleEvent (txt "suspended step")).fSuspended = true ∧
      (u.handleEvent (txt "suspended client")).fSuspended = true ∧
        (u.handleEvent (txt "resumed client")).fSuspended = false := by
    simp only [PDAThread.handleEvent_fSuspended]
    exact ⟨rfl, rfl, rfl⟩
  rw [eventLines]
  rcases commandOf data with _ | c
  · simpa using ht
  · cases c with
    | suspend => simpa [commandEventLines] using (hsusp t).2.1
    | step => simpa [commandEventLines] using (hsusp _).1
    | resume => simpa [commandEventLines] using (hsusp t).2.2
    | _ => simpa [commandEventLines] using ht

theorem Joint.step_hook {s t : Joint} {e : HookEvent} (h : s.step (.hook e) = some t) :
    s.finished = false ∧ s.world.status = .running ∧
      t = { s with world := hookRoutine .ide e s.world } := by
  simp only [Joint.step] at h
  split at h
  · next hf hrun => exact ⟨hf, hrun, (Option.some.inj h).symm⟩
  · cases h

theorem Joint.step_read {s t : Joint} {r : Recv} (h : s.step (.read r) = some t) :
    ∃ L pending, s.world.status = .waiting L pending ∧
      t = { s with world := receive .ide L pending r s.world } := by
  simp only [Joint.step] at h
  split at h
  · next L pending hw => exact ⟨L, pending, hw, (Option.some.inj h).symm⟩
  · cases h

theorem Joint.step_finish {s t : Joint} {report : Option (Text × Text)}
    (h : s.step (.finish report) = some t) :
    s.finished = false ∧ s.world.status = .running ∧
      t.finished = true ∧ t.world.status = s.world.status := by
  simp only [Joint.step] at h
  split at h
  · next hf hrun =>
    obtain rfl := Option.some.inj h
    exact ⟨hf, hrun, rfl, rfl⟩
  · cases h

theorem Joint.step_deliver {s t : Joint} (h : s.step .deliver = some t) :
    ∃ event, (lines s.world.events)[s.handledLines]? = some event ∧
      t = { s with
        thread := s.thread.handleEvent event
        handledLines := s.handledLines + 1 } := by
  simp only [Joint.step] at h
  split at h
  · next event he => exact ⟨event, he, (Option.some.inj h).symm⟩
  · cases h

/-- What holds while the process runs: the event socket carries the lines of the history,
the thread has handled the first of them, and once it has handled all it says what ldb
does. -/
structure Live (s : Joint) : Prop where
  inputs : s.world.inputs = []
  events : EventsInvariant s.world.toSession
  handled : s.handledLines ≤ (lines s.world.events).length
  thread : s.thread =
    ((lines s.world.events).take s.handledLines).foldl PDAThread.handleEvent .initial
  agrees : (threadAfter s.world.history).fSuspended = s.world.status.isWaiting

/-- A happening keeps `Live` if its lines tell what ldb does then. -/
theorem live_of_happening (s : Joint) (w : World) (h : Happening) (hs : Live s)
    (hi : w.inputs = []) (he : EventsInvariant w.toSession)
    (hh : w.history = s.world.history ++ [h])
    (hg : ((eventLines h).foldl PDAThread.handleEvent (threadAfter s.world.history)).fSuspended =
      w.status.isWaiting) : Live { s with world := w } := by
  have hlines : lines w.events = lines s.world.events ++ eventLines h := by
    rw [he.lines_eq, hs.events.lines_eq, hh]
    simp
  refine ⟨hi, he, ?_, ?_, ?_⟩
  · have hle := hs.handled
    simp only [hlines, List.length_append]
    omega
  · simp only [hlines, List.take_append_of_le_length hs.handled]
    exact hs.thread
  · simp only [hh, threadAfter_append]
    exact hg

theorem live_hook (s : Joint) (e : HookEvent) (hs : Live s) (hrun : s.world.status = .running) :
    Live { s with world := hookRoutine .ide e s.world } := by
  rw [hookRoutine_noInput e s.world hs.inputs]
  rcases stopReason s.world.state e with _ | ⟨L, bp⟩
  · exact hs
  · dsimp only
    split_ifs
    · apply live_of_happening s (s.world.stopped .ide L bp) (.entered bp) hs rfl
      · exact eventsInvariant_append _ _ (.entered bp) hs.events (stop_events _ bp) rfl
      · rfl
      · exact entered_suspends _ bp
    · -- the lookup of the line comes before any event line
      refine ⟨hs.inputs, hs.events, hs.handled, hs.thread, ?_⟩
      rw [hs.agrees, hrun]
      rfl

/-- The parser is left exactly by a resume, under the condition on what is received. -/
theorem leave_iff_resume (c : Option Command) (L : LuaState) (gaveUp : Bool)
    (h : c = some .resume ∨ (gaveUp = false ∧ c ≠ some .step ∧ c ≠ some .quit)) :
    (if (c.bind selectedMode).isSome = true ∨ gaveUp = true then Status.running
      else .waiting L none).isWaiting = decide (c ≠ some .resume) := by
  rcases h with rfl | ⟨rfl, hstep, hquit⟩
  · rfl
  · rcases c with _ | c
    · rfl
    · cases c with
      | step => exact absurd rfl hstep
      | quit => exact absurd rfl hquit
      | _ => rfl

theorem live_read (s : Joint) (r : Recv) (L : LuaState) (pending : Option (Text × ℕ))
    (hs : Live s) (hw : s.world.status = .waiting L pending)
    (hk : leavesByResume L s.world.state pending r) :
    Live { s with world := receive .ide L pending r s.world } := by
  have hsusp : (threadAfter s.world.history).fSuspended = true := by
    rw [hs.agrees, hw]
    rfl
  cases r with
  | closed => exact hk.elim
  | data piece =>
    rcases hi : intake pending (cstr piece) with next | ⟨data, gaveUp⟩
    · simp only [receive, hi]
      exact ⟨hs.inputs, hs.events, hs.handled, hs.thread, hsusp⟩
    · simp only [leavesByResume, hi] at hk
      obtain ⟨hok, hleave⟩ := hk
      obtain ⟨rx, hrx⟩ := (handle_isOk .ide L s.world.state data).mpr hok
      obtain ⟨-, hevents, hexit⟩ := handle_effects .ide L s.world.state data rx hrx
      -- the parser is left just when the last line of the command is a resume
      have hwait := leave_iff_resume (commandOf data) L gaveUp hleave
      simp only [receive, hi, react, hrx]
      rw [← hexit] at hwait
      refine live_of_happening s _ (.handled L.source data) hs hs.inputs ?_ rfl ?_
      · refine eventsInvariant_append s.world.toSession _ (.handled L.source data) hs.events ?_ rfl
        simp only [Session.perform, hevents, commandEvents_eq L.source]
      · rw [handled_suspends _ L.source data hsusp, hwait]

theorem live_deliver (s : Joint) (event : Text) (hs : Live s)
    (hl : (lines s.world.events)[s.handledLines]? = some event) :
    Live { s with
      thread := s.thread.handleEvent event
      handledLines := s.handledLines + 1 } := by
  obtain ⟨hlt, -⟩ := List.getElem?_eq_some_iff.mp hl
  have htake : (lines s.world.events).take (s.handledLines + 1) =
      (lines s.world.events).take s.handledLines ++ [event] := by
    rw [List.take_add_one, hl]
    rfl
  refine ⟨hs.inputs, hs.events, hlt, ?_, hs.agrees⟩
  simp only [htake, List.foldl_append, List.foldl_cons, List.foldl_nil, ← hs.thread]

/-- Over a whole run: the process has ended, or `Live` holds. -/
def AgreementInvariant (s : Joint) : Prop :=
  (s.finished = true ∧ s.world.status = .running) ∨ (s.finished = false ∧ Live s)

theorem agreementInvariant_step (s : Joint) (a : Action) (t : Joint) (hs : AgreementInvariant s)
    (hk : keepsAgreement s a) (ht : s.step a = some t) : AgreementInvariant t := by
  cases a with
  | hook e =>
    obtain ⟨hf, hrun, rfl⟩ := Joint.step_hook ht
    rcases hs with ⟨hf', -⟩ | ⟨-, hs⟩
    · simp [hf] at hf'
    · exact .inr ⟨hf, live_hook s e hs hrun⟩
  | read r =>
    obtain ⟨L, pending, hw, rfl⟩ := Joint.step_read ht
    rcases hs with ⟨-, hrun⟩ | ⟨hf, hs⟩
    · simp [hw] at hrun
    · simp only [keepsAgreement, hw] at hk
      exact .inr ⟨hf, live_read s r L pending hs hw hk⟩
  | finish report =>
    obtain ⟨-, hrun, hf, hst⟩ := Joint.step_finish ht
    exact .inl ⟨hf, hst.trans hrun⟩
  | deliver =>
    obtain ⟨event, hl, rfl⟩ := Joint.step_deliver ht
    rcases hs with ⟨hf, hrun⟩ | ⟨hf, hs⟩
    · exact .inl ⟨hf, hrun⟩
    · exact .inr ⟨hf, live_deliver s event hs hl⟩

theorem agreementInvariant_start (lines : ScriptLines) :
    AgreementInvariant (Joint.start lines) := by
  refine .inr ⟨rfl, rfl, ?_, by simp [Joint.start], rfl, rfl⟩
  simp [EventsInvariant, Joint.start, World.start, toIde, terminated]

/-- In every run whose received commands leave the parser only through continue and
resume: when all event lines are handled, the IDE shows the thread as suspended exactly
while ldb waits for a command. -/
theorem isSuspended_iff_waiting (lines : ScriptLines) (s : Joint)
    (h : Reaches Joint.step keepsAgreement (Joint.start lines) s) (hq : s.quiescent) :
    s.isSuspended = true ↔ s.world.status.isWaiting = true := by
  have hinv : AgreementInvariant s :=
    h.invariant agreementInvariant_step (agreementInvariant_start lines)
  rcases hinv with ⟨hf, hrun⟩ | ⟨hf, hs⟩
  · -- the process has ended: the target is terminated, and nobody waits
    simp [Joint.isSuspended, hf, hrun, Status.isWaiting]
  · have hall : s.thread = threadAfter s.world.history := by
      rw [hs.thread, hq, List.take_length, hs.events.lines_eq]
      rfl
    rw [Joint.isSuspended, hf, hall, hs.agrees]
    simp

/-- ldb stops at the first line, and the IDE handles the lines of that stop. -/
def firstStop : List Action :=
  .hook (.line (.mainChunk (txt "a.lua") 1)) :: List.replicate 4 .deliver

/-- What an observer sees of a run: are all lines handled, does the IDE show a suspended
thread, and does ldb wait. -/
def observe (actions : List Action) : Option (Bool × Bool × Bool) :=
  (run Joint.step (Joint.start fun _ => []) actions).map
    (fun s => (decide s.quiescent, s.isSuspended, s.world.status.isWaiting))

/-- At the first stop both sides agree. -/
theorem isSuspended_iff_waiting_firstStop :
    ∃ s, run Joint.step (Joint.start fun _ => []) firstStop = some s ∧
      (s.isSuspended = true ↔ s.world.status.isWaiting = true) := by
  have hobs : observe firstStop = some (true, true, true) := by decide +kernel
  obtain ⟨s, hrun, hs⟩ := Option.map_eq_some_iff.mp hobs
  have hq : s.quiescent := of_decide_eq_true (congrArg Prod.fst hs)
  have hok : ∀ a ∈ firstStop, ∀ s, keepsAgreement s a := by
    intro a ha s
    rcases List.mem_cons.mp ha with rfl | ha
    · trivial
    · rw [List.eq_of_mem_replicate ha]
      trivial
  exact ⟨s, hrun, isSuspended_iff_waiting _ s (reaches_of_run hok hrun) hq⟩

/-- The first stop and a step command, with all lines handled. -/
def stepIssued : List Action :=
  firstStop ++ .read (.data (txt "step\n")) :: List.replicate 3 .deliver

/-- After a step, while the program is on its way to the next line, all event lines are
handled and the IDE shows a suspended thread. -/
theorem suspended_while_running :
    ∃ s, run Joint.step (Joint.start fun _ => []) stepIssued = some s ∧
      s.quiescent ∧ ¬ (s.isSuspended = true ↔ s.world.status.isWaiting = true) := by
  have hobs : observe stepIssued = some (true, true, false) := by decide +kernel
  obtain ⟨s, hrun, hs⟩ := Option.map_eq_some_iff.mp hobs
  simp only [Prod.mk.injEq, decide_eq_true_eq] at hs
  refine ⟨s, hrun, hs.1, ?_⟩
  rw [hs.2.1, hs.2.2]
  decide

end LuaIde
