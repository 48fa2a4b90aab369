import LuaIde.BreakpointHit
import LuaIde.ScriptErrors

/-! What the user may do with a `PDADebugTarget`: its guards ask the process, a flag and the
thread, which the dispatch job takes away when the connection ends. -/
namespace LuaIde

open Runs

/-- Where `EventDispatchJob.run` is: in front of its loop condition, in `readLine`, or at its
end. -/
inductive JobPhase where
  | checking
  | reading
  | ended
deriving DecidableEq

/-- What the guards of the target look at, and the dispatch job. `none` is the null thread. -/
structure GuardedTarget where
  fTerminated : Bool
  processTerminated : Bool
  fThread : Option PDAThread
  job : JobPhase
deriving DecidableEq

/-- What can happen to the target: the process ends; the job evaluates its loop condition; it
reads a line, at which the target finds that file resource, those breakpoints report a hit and
one of them may throw; the read fails; the stream is at its end. -/
inductive Occurrence where
  | processEnds
  | evaluates
  | line (event : Text) (fileResource : Option Text) (hits : List ℕ) (throws : Bool)
  | readFails
  | streamEnds
deriving DecidableEq

namespace GuardedTarget

/-- The constructor, with a process that may have ended by then. -/
def connected (processTerminated : Bool) : GuardedTarget where
  fTerminated := false
  processTerminated := processTerminated
  fThread := some .initial
  job := .checking

/-- `canTerminate`, by what the process answers when it has terminated and when it has not. -/
def canTerminate (process : Bool → Bool) (s : GuardedTarget) : Bool := process s.processTerminated

def isTerminated (s : GuardedTarget) : Bool := s.fTerminated || s.processTerminated

def getThread (s : GuardedTarget) : Except JavaError PDAThread :=
  match s.fThread with
  | none => .error .nullPointer
  | some t => .ok t

/-- `isSuspended`. The thread asks the target in its turn. -/
def isSuspended (s : GuardedTarget) : Except JavaError Bool :=
  if s.isTerminated then .ok false
  else do
    let t ← s.getThread
    return t.fSuspended && !s.isTerminated

def canResume (s : GuardedTarget) : Except JavaError Bool :=
  if s.isTerminated then .ok false else s.isSuspended

def canSuspend (s : GuardedTarget) : Except JavaError Bool :=
  if s.isTerminated then .ok false
  else do
    return !(← s.isSuspended)

/-- The request that an action of the target sends through its thread. -/
def throughThread (s : GuardedTarget) (request : Text) : Except JavaError Text := do
  let _ ← s.getThread
  return request

def terminate (s : GuardedTarget) : Except JavaError Text := s.throughThread (txt "exit")

def resume (s : GuardedTarget) : Except JavaError Text := s.throughThread (txt "resume")

def suspend (s : GuardedTarget) : Except JavaError Text := s.throughThread (txt "suspend")

def terminated (s : GuardedTarget) : GuardedTarget :=
  { s with fTerminated := true, fThread := none }

/-- `PDADebugTarget.handleEvent`. `started` resumes the thread, and catches nothing but a failed
request. -/
def handleEvent (s : GuardedTarget) (event : Text) (fileResource : Option Text) :
    Except JavaError GuardedTarget :=
  if event = txt "started" then do
    let _ ← s.resume
    return s
  else if event = txt "terminated" then .ok s.terminated
  else if (txt "syntaxerror").isPrefixOf event then do
    let _ ← handleSyntaxError fileResource event
    return s
  else .ok s

/-- The listeners behind the target: the thread, and the breakpoints that report to it. -/
def threadHears (s : GuardedTarget) (event : Text) (hits : List ℕ) : GuardedTarget :=
  let thread := s.fThread.map (fun t => hits.foldl PDAThread.suspendedBy (t.handleEvent event))
  { s with fThread := thread }

def step (s : GuardedTarget) : Occurrence → Option GuardedTarget
  | .processEnds => some { s with processTerminated := true }
  | .evaluates =>
    if s.job = .checking then
      some { s with job := if s.isTerminated then .ended else .reading }
    else none
  | .line event fileResource hits throws =>
    if s.job = .reading then
      match s.handleEvent event fileResource with
      | .ok s => some { s.threadHears event hits with job := if throws then .ended else .checking }
      | .error _ => some { s with job := .ended }
    else none
  | .readFails => if s.job = .reading then some { s.terminated with job := .checking } else none
  | .streamEnds => if s.job = .reading then some { s with job := .ended } else none

/-- What is enabled reaches a thread, and asking does no harm. -/
structure Safe (process : Bool → Bool) (s : GuardedTarget) : Prop where
  terminate : s.canTerminate process = true → ∃ request, s.terminate = .ok request
  resume : s.canResume = .ok true → ∃ request, s.resume = .ok request
  suspend : s.canSuspend = .ok true → ∃ request, s.suspend = .ok request
  suspended : s.isSuspended ≠ .error .nullPointer

/-- In every state of the run what is enabled is safe. -/
def SafeAlong (process : Bool → Bool) (processTerminated : Bool) (as : List Occurrence) : Prop :=
  ∀ bs t, bs <+: as → run step (connected processTerminated) bs = some t → Safe process t

end GuardedTarget

/-- Occurrences that make the job clean up. -/
def Occurrence.cleansUp : Occurrence → Bool
  | .line event _ _ _ => decide (event = txt "terminated")
  | .readFails => true
  | _ => false

namespace GuardedTarget

/-- A cleanup comes when the process has ended. -/
def CleansUpLate (s : GuardedTarget) (a : Occurrence) : Prop :=
  s.job = .reading → a.cleansUp = true → s.processTerminated = true

/-- The flag and the thread say the same. -/
def Agrees (s : GuardedTarget) : Prop := s.fThread = none ↔ s.fTerminated = true

theorem throughThread_ok_iff (s : GuardedTarget) (request : Text) :
    (∃ q, s.throughThread request = .ok q) ↔ s.fThread ≠ none := by
  unfold throughThread getThread
  cases s.fThread with
  | none => exact iff_of_false (fun ⟨_, h⟩ => nomatch h) (fun h => h rfl)
  | some t => exact iff_of_true ⟨request, rfl⟩ (Option.some_ne_none t)

/-- While the process runs the thread must be there; everything else is safe in any case. -/
theorem safe_iff {process : Bool → Bool} (hprocess : ∀ t, process t = !t) {s : GuardedTarget}
    (h : s.Agrees) : Safe process s ↔ (s.fTerminated = true → s.processTerminated = true) := by
  have hthread : s.isTerminated = false → s.fThread ≠ none := by
    intro ht hn
    rw [isTerminated, h.mp hn, Bool.true_or] at ht
    exact nomatch ht
  constructor
  · intro hsafe ht
    by_contra hp
    have hcan : s.canTerminate process = true := by
      rw [canTerminate, hprocess, Bool.eq_false_iff.mpr hp]
      rfl
    exact (throughThread_ok_iff s _).mp (hsafe.terminate hcan) (h.mpr ht)
  · intro hlate
    constructor
    · intro hcan
      rw [terminate, throughThread_ok_iff]
      intro hn
      rw [canTerminate, hprocess, hlate (h.mp hn)] at hcan
      exact nomatch hcan
    · intro hcan
      rw [resume, throughThread_ok_iff]
      apply hthread
      by_contra ht
      rw [canResume, if_pos (by simpa using ht)] at hcan
      exact nomatch hcan
    · intro hcan
      rw [suspend, throughThread_ok_iff]
      apply hthread
      by_contra ht
      rw [canSuspend, if_pos (by simpa using ht)] at hcan
      exact nomatch hcan
    · unfold isSuspended getThread
      by_cases ht : s.isTerminated = true
      · rw [if_pos ht]
        exact nofun
      · obtain ⟨t, hs⟩ := Option.ne_none_iff_exists'.mp (hthread (by simpa using ht))
        rw [if_neg ht, hs]
        exact nofun

/-- `handleEvent` leaves the job and the process alone, and cleans up at one line only. -/
theorem handleEvent_ok {s t : GuardedTarget} {event : Text} {fileResource : Option Text}
    (h : s.handleEvent event fileResource = .ok t) :
    t = if event = txt "terminated" then s.terminated else s := by
  unfold handleEvent at h
  by_cases hstarted : event = txt "started"
  · rw [if_pos hstarted] at h
    have hne : event ≠ txt "terminated" := by
      rw [hstarted]
      decide
    obtain ⟨_, -, ht⟩ := CheckedFold.bind_eq_ok.mp h
    rw [if_neg hne]
    exact (Except.ok.inj ht).symm
  · rw [if_neg hstarted] at h
    by_cases hterm : event = txt "terminated"
    · rw [if_pos hterm] at h
      rw [if_pos hterm]
      exact (Except.ok.inj h).symm
    · rw [if_neg hterm] at h
      rw [if_neg hterm]
      by_cases hsyntax : (txt "syntaxerror").isPrefixOf event = true
      · rw [if_pos hsyntax] at h
        obtain ⟨_, -, ht⟩ := CheckedFold.bind_eq_ok.mp h
        exact (Except.ok.inj ht).symm
      · rw [if_neg hsyntax] at h
        exact (Except.ok.inj h).symm

/-- A step cleans up, or it leaves the flag as it is and keeps the thread if there is one. The
process does not come back. -/
theorem step_cases {s t : GuardedTarget} {a : Occurrence} (h : s.step a = some t) :
    (s.job = .reading ∧ a.cleansUp = true ∧ t.fTerminated = true ∧ t.fThread = none ∧
      t.processTerminated = s.processTerminated) ∨
    (¬ (s.job = .reading ∧ a.cleansUp = true) ∧ t.fTerminated = s.fTerminated ∧
      (t.fThread = none ↔ s.fThread = none) ∧
      (s.processTerminated = true → t.processTerminated = true)) := by
  cases a with
  | processEnds =>
    obtain rfl := Option.some.inj h
    exact Or.inr ⟨(fun hc => nomatch hc.2), rfl, Iff.rfl, fun _ => rfl⟩
  | evaluates =>
    rw [step, Option.ite_none_right_eq_some] at h
    obtain ⟨-, ht⟩ := h
    obtain rfl := Option.some.inj ht
    exact Or.inr ⟨(fun hc => nomatch hc.2), rfl, Iff.rfl, id⟩
  | line event fileResource hits throws =>
    rw [step, Option.ite_none_right_eq_some] at h
    obtain ⟨hjob, h⟩ := h
    cases hheard : s.handleEvent event fileResource with
    | error e =>
      -- only a line that does not clean up makes the target throw
      rw [hheard] at h
      obtain rfl := Option.some.inj h
      have hne : event ≠ txt "terminated" := by
        rintro rfl
        exact nomatch hheard
      refine Or.inr ⟨?_, rfl, Iff.rfl, id⟩
      intro hc
      exact hne (by simpa [Occurrence.cleansUp] using hc.2)
    | ok u =>
      rw [hheard] at h
      obtain rfl := Option.some.inj h
      have hu := handleEvent_ok hheard
      by_cases hterm : event = txt "terminated"
      · rw [if_pos hterm] at hu
        subst hu
        exact Or.inl ⟨hjob, by simp [Occurrence.cleansUp, hterm], rfl, rfl, rfl⟩
      · rw [if_neg hterm] at hu
        subst hu
        refine Or.inr ⟨?_, rfl, ?_, id⟩
        · intro hc
          exact hterm (by simpa [Occurrence.cleansUp] using hc.2)
        · simp [threadHears]
  | readFails =>
    rw [step, Option.ite_none_right_eq_some] at h
    obtain ⟨hjob, h⟩ := h
    obtain rfl := Option.some.inj h
    exact Or.inl ⟨hjob, rfl, rfl, rfl, rfl⟩
  | streamEnds =>
    rw [step, Option.ite_none_right_eq_some] at h
    obtain ⟨-, h⟩ := h
    obtain rfl := Option.some.inj h
    exact Or.inr ⟨(fun hc => nomatch hc.2), rfl, Iff.rfl, id⟩

theorem Agrees.step {s t : GuardedTarget} {a : Occurrence} (hs : s.Agrees)
    (h : s.step a = some t) : t.Agrees := by
  rcases step_cases h with ⟨-, -, hflag, hthread, -⟩ | ⟨-, hflag, hthread, -⟩
  · exact iff_of_true hthread hflag
  · rw [Agrees, hthread, hflag]
    exact hs

/-- A cleanup can be taken in every phase in which the condition speaks of it. -/
theorem cleansUpLate_of_step_eq_none {s : GuardedTarget} {a : Occurrence} (h : s.step a = none) :
    s.CleansUpLate a := by
  intro hjob hclean
  cases a with
  | line event fileResource hits throws =>
    obtain rfl : event = txt "terminated" := by simpa [Occurrence.cleansUp] using hclean
    simp [GuardedTarget.step, hjob, handleEvent, txt] at h
  | readFails => simp [GuardedTarget.step, hjob] at h
  | _ => exact absurd hclean Bool.false_ne_true

/-- What the user may do is safe in all states of a run exactly when the job cleans up behind
the end of the process only. -/
theorem safeAlong_iff (process : Bool → Bool) (hprocess : ∀ t, process t = !t)
    (processTerminated : Bool) (as : List Occurrence) :
    SafeAlong process processTerminated as ↔
      Along step CleansUpLate (connected processTerminated) as := by
  have hagrees : (connected processTerminated).Agrees :=
    iff_of_false (Option.some_ne_none _) Bool.false_ne_true
  refine forall_reached_iff_along (I := Agrees) (fun s a t hs => hs.step) ?_
    (fun s a => cleansUpLate_of_step_eq_none) hagrees
    ((safe_iff hprocess hagrees).mpr (fun h => nomatch h)) as
  intro s a t hs hsafe h
  rw [safe_iff hprocess (hs.step h)]
  rw [safe_iff hprocess hs] at hsafe
  rcases step_cases h with ⟨hjob, hclean, hflag, -, hproc⟩ | ⟨hnot, hflag, -, hproc⟩
  · constructor
    · intro ht _ _
      rw [← hproc]
      exact ht hflag
    · intro hlate _
      rw [hproc]
      exact hlate hjob hclean
  · apply iff_of_true
    · intro ht
      exact hproc (hsafe (hflag ▸ ht))
    · intro hjob hclean
      exact absurd ⟨hjob, hclean⟩ hnot

/-- ldb is killed, and the connection breaks behind it. -/
theorem safeAlong_killed : SafeAlong not false [.evaluates, .processEnds, .readFails] := by
  apply (safeAlong_iff not (fun _ => rfl) false _).mpr
  refine ⟨(fun _ h => nomatch h), fun s hs => ?_⟩
  obtain rfl := Option.some.inj hs
  refine ⟨(fun _ h => nomatch h), fun s hs => ?_⟩
  obtain rfl := Option.some.inj hs
  exact ⟨fun _ _ => rfl, fun _ _ => trivial⟩

/-- The connection has broken, and the process of ldb still runs: `terminate` is enabled, and
finds no thread. -/
theorem terminate_finds_null :
    ∃ t, run step (connected false) [.evaluates, .readFails] = some t ∧
      t.canTerminate not = true ∧ t.terminate = .error .nullPointer ∧
      ¬ SafeAlong not false [.evaluates, .readFails] := by
  refine ⟨_, rfl, rfl, rfl, ?_⟩
  intro h
  obtain ⟨q, hq⟩ := (h _ _ List.prefix_rfl rfl).terminate rfl
  exact nomatch hq

end GuardedTarget

end LuaIde
