import LuaIde.BreakpointHit
import LuaIde.FailedQueries
import LuaIde.ScriptErrors

/-! `EventDispatchJob.run`: the job that reads the event socket until the target is terminated,
and the states of the target it can end in. -/
namespace LuaIde

open LineText DecimalText Delimited CheckedFold

/-- An `IPDAEventListener`: the target itself, or another one. -/
inductive EventListener (ι : Type) where
  | target
  | other (i : ι)
deriving DecidableEq

/-- What the dispatch job and `terminated` touch of a `PDADebugTarget`, with the process of ldb
and what the breakpoint manager knows of the target. `terminations` counts the calls of
`terminated`. -/
structure DispatchedTarget (ι : Type) where
  fTerminated : Bool
  processTerminated : Bool
  fThreads : List ι
  fEventListeners : List (EventListener ι)
  breakpointListener : Bool
  breakpointManagerListener : Bool
  terminations : ℕ
deriving DecidableEq

/-- What happens besides the job: ldb's process ends, the constructor goes on behind
`schedule`, and other threads add and remove listeners. -/
inductive Meanwhile (ι : Type) where
  | processEnds
  | constructorEnds
  | listens (i : ι)
  | unlistens (i : ι)
deriving DecidableEq

variable {ι : Type} [DecidableEq ι]

namespace DispatchedTarget

def addEventListener (s : DispatchedTarget ι) (l : EventListener ι) : DispatchedTarget ι :=
  if l ∈ s.fEventListeners then s else { s with fEventListeners := s.fEventListeners ++ [l] }

def removeEventListener (s : DispatchedTarget ι) (l : EventListener ι) : DispatchedTarget ι :=
  { s with fEventListeners := s.fEventListeners.erase l }

/-- The constructor up to `schedule`. The thread has made itself a listener. -/
def scheduled (thread : ι) : DispatchedTarget ι where
  fTerminated := false
  processTerminated := false
  fThreads := [thread]
  fEventListeners := [.target, .other thread]
  breakpointListener := false
  breakpointManagerListener := false
  terminations := 0

def isTerminated (s : DispatchedTarget ι) : Bool := s.fTerminated || s.processTerminated

def getThreads (s : DispatchedTarget ι) : List ι := s.fThreads

def terminated (s : DispatchedTarget ι) : DispatchedTarget ι :=
  { s with
    fTerminated := true
    fThreads := []
    breakpointListener := false
    breakpointManagerListener := false
    terminations := s.terminations + 1 }.removeEventListener .target

def happens (s : DispatchedTarget ι) : Meanwhile ι → DispatchedTarget ι
  | .processEnds => { s with processTerminated := true }
  | .constructorEnds => { s with breakpointListener := true, breakpointManagerListener := true }
  | .listens i => s.addEventListener (.other i)
  | .unlistens i => s.removeEventListener (.other i)

/-- `started`, which installs the deferred breakpoints. Its requests throw nothing that is not
caught. -/
def started (deferred : List ι) (s : DispatchedTarget ι) : DispatchedTarget ι :=
  deferred.foldl (fun s i => s.addEventListener (.other i)) s

/-- `PDADebugTarget.handleEvent`. -/
def handleEvent (deferred : List ι) (fileResource : Option Text) (event : Text)
    (s : DispatchedTarget ι) : Except JavaError (DispatchedTarget ι) :=
  if event = txt "started" then .ok (s.started deferred)
  else if event = txt "terminated" then .ok s.terminated
  else if (txt "syntaxerror").isPrefixOf event then do
    let _ ← handleSyntaxError fileResource event
    return s
  else .ok s

/-- The target does not throw at that line. -/
def Decodes (fileResource : Option Text) (event : Text) : Prop :=
  (txt "syntaxerror").isPrefixOf event = true →
    ∃ markers, handleSyntaxError fileResource event = .ok markers

/-- What the cleanup has to leave behind. -/
structure CleanedUp (s : DispatchedTarget ι) : Prop where
  once : s.terminations = 1
  terminated : s.isTerminated = true
  threads : s.getThreads = []
  unregistered : s.breakpointListener = false ∧ s.breakpointManagerListener = false

end DispatchedTarget

/-- The job's surroundings: the lines it reads and how the stream ends behind them; what
happens before its loop condition is evaluated for the time `n`, counted from 0; how the other
listeners take the line number `n`; the breakpoints `started` installs, and what
`getFileResource` returns at line `n`. -/
structure Surroundings (ι : Type) where
  thread : ι
  lines : List Text
  ending : Failure
  meanwhile : ℕ → List (Meanwhile ι)
  handles : ℕ → ι → Text → Except JavaError Unit
  deferred : List ι
  fileResource : ℕ → Option Text

namespace Surroundings

variable (c : Surroundings ι)

/-- The target at the next evaluation of the loop condition. -/
def passes (n : ℕ) (s : DispatchedTarget ι) : DispatchedTarget ι :=
  (c.meanwhile n).foldl DispatchedTarget.happens s

/-- The loop over the array of listeners, up to the exception that ends it. -/
def notify (n : ℕ) (event : Text) :
    List (EventListener ι) → DispatchedTarget ι → DispatchedTarget ι × Option JavaError
  | [], s => (s, none)
  | .target :: rest, s =>
    match s.handleEvent c.deferred (c.fileResource n) event with
    | .ok s => notify n event rest s
    | .error e => (s, some e)
  | .other i :: rest, s =>
    match c.handles n i event with
    | .ok _ => notify n event rest s
    | .error e => (s, some e)

/-- The loop of `EventDispatchJob.run`, with the target when its condition is evaluated for the
time `n`, up to the end of the job, by an exception or without. -/
def loop (n : ℕ) (s : DispatchedTarget ι) : List Text → DispatchedTarget ι × Option JavaError
  | [] =>
    if s.isTerminated then (s, none)
    else
      match c.ending with
      | .endOfStream => (c.passes (n+1) s, none)
      | .ioException => (c.passes (n+1) s.terminated, none)
  | event :: rest =>
    if s.isTerminated then (s, none)
    else
      match c.notify n event s.fEventListeners s with
      | (s, some e) => (c.passes (n+1) s, some e)
      | (s, none) => loop (n+1) (c.passes (n+1) s) rest

/-- `EventDispatchJob.run`. -/
def run : DispatchedTarget ι × Option JavaError :=
  c.loop 0 (c.passes 0 (.scheduled c.thread)) c.lines

/-- The target at the evaluation number `n`, as long as `terminated` has not been called. -/
def awaiting : ℕ → DispatchedTarget ι
  | 0 => c.passes 0 (.scheduled c.thread)
  | n+1 =>
    let s := awaiting n
    c.passes (n+1) (if c.lines[n]? = some (txt "started") then s.started c.deferred else s)

/-- No listener throws an exception at that line. -/
def Accepts (n : ℕ) (event : Text) : Prop :=
  DispatchedTarget.Decodes (c.fileResource n) event ∧
    ∀ i, .other i ∈ (c.awaiting n).fEventListeners → c.handles n i event = .ok ()

/-- The lines before the line number `n` are others than `terminated`, and accepted. -/
def Reads (n : ℕ) : Prop :=
  ∀ j < n, ∀ event, c.lines[j]? = some event → event ≠ txt "terminated" ∧ c.Accepts j event

/-- The cleanup comes at the line number `k`, or behind the last line: ldb says it has
terminated, or the read fails; what came before was accepted; ldb's process was not seen to
have ended; and the constructor does not register the target behind the cleanup. -/
structure CleansUpAt (k : ℕ) : Prop where
  cause : c.lines[k]? = some (txt "terminated") ∨ (k = c.lines.length ∧ c.ending = .ioException)
  reads : c.Reads k
  running : ∀ j ≤ k, .processEnds ∉ c.meanwhile j
  constructed : .constructorEnds ∉ c.meanwhile (k+1)

end Surroundings

namespace DispatchedTarget

/-- `terminated` has not been called, and the target is the first of the listeners. -/
structure Untouched (s : DispatchedTarget ι) : Prop where
  fTerminated : s.fTerminated = false
  terminations : s.terminations = 0
  listeners : ∃ is : List ι, s.fEventListeners = .target :: is.map .other

omit [DecidableEq ι] in
theorem untouched_scheduled (thread : ι) : (scheduled thread).Untouched :=
  ⟨rfl, rfl, [thread], rfl⟩

theorem Untouched.addEventListener {s : DispatchedTarget ι} (h : s.Untouched) (i : ι) :
    (s.addEventListener (.other i)).Untouched := by
  obtain ⟨is, his⟩ := h.listeners
  unfold DispatchedTarget.addEventListener
  split
  · exact h
  · exact ⟨h.fTerminated, h.terminations, is ++ [i], by simp [his]⟩

theorem Untouched.happens {s : DispatchedTarget ι} (h : s.Untouched) (m : Meanwhile ι) :
    (s.happens m).Untouched := by
  obtain ⟨is, his⟩ := h.listeners
  cases m with
  | processEnds => exact ⟨h.fTerminated, h.terminations, h.listeners⟩
  | constructorEnds => exact ⟨h.fTerminated, h.terminations, h.listeners⟩
  | listens i => exact h.addEventListener i
  | unlistens i =>
    refine ⟨h.fTerminated, h.terminations, is.erase i, ?_⟩
    have hinj : Function.Injective (EventListener.other : ι → EventListener ι) :=
      fun _ _ he => EventListener.other.inj he
    simp [DispatchedTarget.happens, removeEventListener, his, List.map_erase hinj]

theorem Untouched.started {s : DispatchedTarget ι} (h : s.Untouched) (deferred : List ι) :
    (s.started deferred).Untouched := by
  unfold DispatchedTarget.started
  induction deferred generalizing s with
  | nil => exact h
  | cons i deferred ih => exact ih (h.addEventListener i)

/-- A field that one happening sets and no other touches. -/
theorem foldl_flag (p : DispatchedTarget ι → Bool) (m : Meanwhile ι)
    (hp : ∀ s m', p (s.happens m') = (p s || decide (m = m'))) (ms : List (Meanwhile ι))
    (s : DispatchedTarget ι) : p (ms.foldl happens s) = (p s || decide (m ∈ ms)) := by
  induction ms generalizing s with
  | nil => simp
  | cons m' ms ih =>
    rw [List.foldl_cons, ih, hp, Bool.or_assoc]
    simp

theorem foldl_kept {α : Type} (p : DispatchedTarget ι → α) (hp : ∀ s m, p (s.happens m) = p s)
    (ms : List (Meanwhile ι)) (s : DispatchedTarget ι) : p (ms.foldl happens s) = p s := by
  induction ms generalizing s with
  | nil => rfl
  | cons m ms ih => rw [List.foldl_cons, ih, hp]

theorem addEventListener_frame (s : DispatchedTarget ι) (l : EventListener ι) :
    s.addEventListener l =
      { s with fEventListeners := (s.addEventListener l).fEventListeners } := by
  unfold addEventListener
  split <;> rfl

theorem happens_kept (s : DispatchedTarget ι) (m : Meanwhile ι) :
    (s.happens m).terminations = s.terminations ∧ (s.happens m).fTerminated = s.fTerminated ∧
      (s.happens m).fThreads = s.fThreads := by
  cases m with
  | listens i =>
    rw [happens, addEventListener_frame]
    exact ⟨rfl, rfl, rfl⟩
  | _ => exact ⟨rfl, rfl, rfl⟩

theorem happens_registered (s : DispatchedTarget ι) (m : Meanwhile ι) :
    (s.happens m).breakpointListener = (s.breakpointListener || decide (.constructorEnds = m)) ∧
      (s.happens m).breakpointManagerListener =
        (s.breakpointManagerListener || decide (.constructorEnds = m)) := by
  cases m with
  | listens i =>
    rw [happens, addEventListener_frame]
    simp
  | _ => simp [happens, removeEventListener]

theorem happens_processTerminated (s : DispatchedTarget ι) (m : Meanwhile ι) :
    (s.happens m).processTerminated = (s.processTerminated || decide (.processEnds = m)) := by
  cases m with
  | listens i =>
    rw [happens, addEventListener_frame]
    simp
  | _ => simp [happens, removeEventListener]

theorem started_processTerminated (s : DispatchedTarget ι) (deferred : List ι) :
    (s.started deferred).processTerminated = s.processTerminated := by
  unfold started
  induction deferred generalizing s with
  | nil => rfl
  | cons i deferred ih => rw [List.foldl_cons, ih, addEventListener_frame]

/-- A line other than `terminated` is decoded, or the target throws. -/
theorem handleEvent_unterminated {event : Text} (h : event ≠ txt "terminated")
    (deferred : List ι) (fileResource : Option Text) (s : DispatchedTarget ι) :
    (Decodes fileResource event ∧ s.handleEvent deferred fileResource event =
      .ok (if event = txt "started" then s.started deferred else s)) ∨
    (¬ Decodes fileResource event ∧ ∃ e, s.handleEvent deferred fileResource event = .error e) := by
  unfold handleEvent Decodes
  by_cases hstarted : event = txt "started"
  · left
    rw [if_pos hstarted, if_pos hstarted, hstarted]
    exact ⟨fun hp => absurd hp (by decide), rfl⟩
  · rw [if_neg hstarted, if_neg h, if_neg hstarted]
    split
    · next herrorEvent =>
      cases hm : handleSyntaxError fileResource event with
      | ok markers => exact .inl ⟨fun _ => ⟨markers, rfl⟩, rfl⟩
      | error e =>
        right
        refine ⟨fun hd => ?_, e, rfl⟩
        obtain ⟨markers, hmarkers⟩ := hd herrorEvent
        cases hmarkers
    · next herrorEvent => exact .inl ⟨fun hp => absurd hp herrorEvent, rfl⟩

omit [DecidableEq ι] in
theorem not_cleanedUp {s : DispatchedTarget ι} (h : s.terminations = 0) : ¬ s.CleanedUp := by
  intro hc
  have hone := hc.once
  omega

end DispatchedTarget

namespace Surroundings

open DispatchedTarget

variable {c : Surroundings ι}

theorem passes_untouched {s : DispatchedTarget ι} (h : s.Untouched) (n : ℕ) :
    (c.passes n s).Untouched := by
  unfold passes
  induction c.meanwhile n generalizing s with
  | nil => exact h
  | cons m ms ih => exact ih (h.happens m)

theorem awaiting_untouched (n : ℕ) : (c.awaiting n).Untouched := by
  induction n with
  | zero => exact passes_untouched (untouched_scheduled c.thread) 0
  | succ n ih =>
    apply passes_untouched
    split
    · exact ih.started c.deferred
    · exact ih

/-- The job sees that the process has ended if that has happened by then. -/
theorem awaiting_isTerminated (n : ℕ) :
    (c.awaiting n).isTerminated = true ↔ ∃ j ≤ n, .processEnds ∈ c.meanwhile j := by
  have hpasses (n : ℕ) (s : DispatchedTarget ι) : (c.passes n s).processTerminated = true ↔
      s.processTerminated = true ∨ .processEnds ∈ c.meanwhile n := by
    rw [passes, foldl_flag _ .processEnds happens_processTerminated]
    simp
  -- no terminated event has been handed over, so only the process can have ended
  rw [isTerminated, (awaiting_untouched n).fTerminated, Bool.false_or]
  induction n with
  | zero => simp [awaiting, hpasses, scheduled]
  | succ n ih =>
    -- a started event installs breakpoints and leaves the process alone
    have hkept : (if c.lines[n]? = some (txt "started") then (c.awaiting n).started c.deferred
        else c.awaiting n).processTerminated = (c.awaiting n).processTerminated := by
      split
      · exact started_processTerminated _ _
      · rfl
    rw [awaiting, hpasses, hkept]
    refine Iff.trans (or_congr_left ih) ?_
    constructor
    · rintro (⟨j, hj, hm⟩ | hm)
      · exact ⟨j, by omega, hm⟩
      · exact ⟨n+1, le_rfl, hm⟩
    · rintro ⟨j, hj, hm⟩
      rcases Nat.le_succ_iff.mp hj with hj | rfl
      · exact .inl ⟨j, hj, hm⟩
      · exact .inr hm

/-- The target stays cleaned up as long as the constructor does not register it. -/
theorem passes_terminated {s : DispatchedTarget ι} (h : s.Untouched) (n : ℕ) :
    (c.passes n s.terminated).CleanedUp ↔ .constructorEnds ∉ c.meanwhile n := by
  have hregistered : (c.passes n s.terminated).breakpointListener =
      decide (.constructorEnds ∈ c.meanwhile n) ∧
      (c.passes n s.terminated).breakpointManagerListener =
        decide (.constructorEnds ∈ c.meanwhile n) := by
    constructor
    · exact foldl_flag _ .constructorEnds (fun s m => (happens_registered s m).1) _ _
    · exact foldl_flag _ .constructorEnds (fun s m => (happens_registered s m).2) _ _
  have honce : (c.passes n s.terminated).terminations = 1 :=
    (foldl_kept _ (fun s m => (happens_kept s m).1) _ _).trans (by
      simp [DispatchedTarget.terminated, removeEventListener, h.terminations])
  have hflag : (c.passes n s.terminated).fTerminated = true :=
    foldl_kept _ (fun s m => (happens_kept s m).2.1) _ _
  have hthreads : (c.passes n s.terminated).fThreads = [] :=
    foldl_kept _ (fun s m => (happens_kept s m).2.2) _ _
  constructor
  · intro hc
    simpa [hregistered] using hc.unregistered.1
  · intro hm
    exact ⟨honce, by simp [isTerminated, hflag], hthreads, by simp [hregistered, hm]⟩

section Notify

variable {n : ℕ} {event : Text} {is : List ι} {s : DispatchedTarget ι}

/-- The listeners besides the target leave it alone. -/
theorem notify_others (n : ℕ) (event : Text) (is : List ι) (s : DispatchedTarget ι) :
    (c.notify n event (is.map .other) s).1 = s ∧
      ((c.notify n event (is.map .other) s).2 = none ↔
        ∀ i ∈ is, c.handles n i event = .ok ()) := by
  induction is with
  | nil => simp [notify]
  | cons i is ih =>
    rw [List.map_cons, notify]
    split
    · next h => simpa [h] using ih
    · next h => simp [h]

/-- The target comes first, so that no other listener can keep it from terminating. -/
theorem notify_terminated (hs : s.fEventListeners = .target :: is.map .other) :
    (c.notify n (txt "terminated") s.fEventListeners s).1 = s.terminated := by
  have hstarted : txt "terminated" ≠ txt "started" := by decide
  rw [hs, notify, handleEvent, if_neg hstarted, if_pos rfl]
  exact (notify_others ..).1

/-- Any other line leaves a target that waits for the next one, or ends the job. -/
theorem notify_unterminated (hevent : event ≠ txt "terminated")
    (hline : c.lines[n]? = some event) :
    (c.notify n event (c.awaiting n).fEventListeners (c.awaiting n)).1.terminations = 0 ∧
    ((c.notify n event (c.awaiting n).fEventListeners (c.awaiting n)).2 = none ↔
      c.Accepts n event) ∧
    ((c.notify n event (c.awaiting n).fEventListeners (c.awaiting n)).2 = none →
      c.passes (n+1) (c.notify n event (c.awaiting n).fEventListeners (c.awaiting n)).1 =
        c.awaiting (n+1)) := by
  have hwait : (c.awaiting n).Untouched := awaiting_untouched n
  obtain ⟨is, his⟩ := hwait.listeners
  have hmem (i : ι) : .other i ∈ (c.awaiting n).fEventListeners ↔ i ∈ is := by simp [his]
  have hnext : c.awaiting (n+1) = c.passes (n+1)
      (if event = txt "started" then (c.awaiting n).started c.deferred else c.awaiting n) := by
    simp [awaiting, hline]
  simp only [Accepts, hmem]
  rw [his, notify, hnext]
  -- the debug target hears the event first, and the others only if it did not throw
  rcases handleEvent_unterminated hevent c.deferred (c.fileResource n) (c.awaiting n) with
    ⟨hd, h⟩ | ⟨hd, e, h⟩
  · obtain ⟨hkept, haccept⟩ := notify_others (c := c) n event is
      (if event = txt "started" then (c.awaiting n).started c.deferred else c.awaiting n)
    simp only [h, hkept, haccept]
    refine ⟨?_, by simp [hd], by simp⟩
    split
    · exact (hwait.started c.deferred).terminations
    · exact hwait.terminations
  · simp [h, hd, hwait.terminations]

end Notify

theorem loop_terminated {s : DispatchedTarget ι} (h : s.isTerminated = true) (n : ℕ)
    (rest : List Text) : c.loop n s rest = (s, none) := by
  cases rest <;> simp [loop, h]

section Cleanup

variable {n : ℕ} {event : Text}

theorem le_cleanup (hn : n ≤ c.lines.length) (hreads : c.Reads n) {k : ℕ} (h : c.CleansUpAt k) :
    n ≤ k := by
  by_contra hk
  rcases h.cause with hc | ⟨rfl, -⟩
  · exact (hreads k (by omega) _ hc).1 rfl
  · omega

/-- Once the process has ended no line is read. -/
theorem no_cleanup_ended (hn : n ≤ c.lines.length) (hreads : c.Reads n)
    (hend : (c.awaiting n).isTerminated = true) : ¬ ∃ k, c.CleansUpAt k := by
  rintro ⟨k, h⟩
  obtain ⟨j, hj, hm⟩ := (awaiting_isTerminated n).mp hend
  exact h.running j (hj.trans (le_cleanup hn hreads h)) hm

theorem loop_ended (hn : n ≤ c.lines.length) (hreads : c.Reads n)
    (hend : (c.awaiting n).isTerminated = true) (rest : List Text) :
    (c.loop n (c.awaiting n) rest).1.CleanedUp ↔ ∃ k, c.CleansUpAt k := by
  rw [loop_terminated hend]
  exact iff_of_false (not_cleanedUp (awaiting_untouched n).terminations)
    (no_cleanup_ended hn hreads hend)

theorem running_of_awaiting (hend : ¬ (c.awaiting n).isTerminated = true) :
    ∀ j ≤ n, .processEnds ∉ c.meanwhile j :=
  fun j hj hm => hend ((awaiting_isTerminated n).mpr ⟨j, hj, hm⟩)

theorem cleanup_at_end (hreads : c.Reads c.lines.length)
    (hend : ¬ (c.awaiting c.lines.length).isTerminated = true) :
    (∃ k, c.CleansUpAt k) ↔
      c.ending = .ioException ∧ .constructorEnds ∉ c.meanwhile (c.lines.length + 1) := by
  constructor
  · rintro ⟨k, h⟩
    rcases h.cause with hc | ⟨rfl, hio⟩
    · have hk := (List.getElem?_eq_some_iff.mp hc).1
      have hle := le_cleanup le_rfl hreads h
      omega
    · exact ⟨hio, h.constructed⟩
  · rintro ⟨hio, hm⟩
    exact ⟨_, .inr ⟨rfl, hio⟩, hreads, running_of_awaiting hend, hm⟩

theorem cleanup_at_terminated (hline : c.lines[n]? = some (txt "terminated"))
    (hreads : c.Reads n) (hend : ¬ (c.awaiting n).isTerminated = true) :
    (∃ k, c.CleansUpAt k) ↔ .constructorEnds ∉ c.meanwhile (n+1) := by
  have hn : n < c.lines.length := (List.getElem?_eq_some_iff.mp hline).1
  constructor
  · rintro ⟨k, h⟩
    rcases (le_cleanup hn.le hreads h).eq_or_lt with rfl | hk
    · exact h.constructed
    · exact absurd rfl (h.reads n hk _ hline).1
  · intro hm
    exact ⟨n, .inl hline, hreads, running_of_awaiting hend, hm⟩

theorem no_cleanup_rejected (hline : c.lines[n]? = some event) (hevent : event ≠ txt "terminated")
    (hreads : c.Reads n) (hreject : ¬ c.Accepts n event) : ¬ ∃ k, c.CleansUpAt k := by
  have hn : n < c.lines.length := (List.getElem?_eq_some_iff.mp hline).1
  rintro ⟨k, h⟩
  rcases (le_cleanup hn.le hreads h).eq_or_lt with rfl | hk
  · rcases h.cause with hc | ⟨hc, -⟩
    · rw [hline] at hc
      exact hevent (Option.some.inj hc)
    · omega
  · exact hreject (h.reads n hk event hline).2

/-- Behind `terminated` the loop goes on with a target that is terminated. -/
theorem loop_at_terminated (hend : ¬ (c.awaiting n).isTerminated = true) (rest : List Text) :
    (c.loop n (c.awaiting n) (txt "terminated" :: rest)).1 =
      c.passes (n+1) (c.awaiting n).terminated := by
  obtain ⟨is, his⟩ := (awaiting_untouched (c := c) n).listeners
  have hkept := notify_terminated (c := c) (n := n) his
  rw [loop, if_neg hend]
  split
  · next h => rw [← hkept, h]
  · next s h =>
    obtain rfl : s = (c.awaiting n).terminated := by rw [← hkept, h]
    have hflag : (c.passes (n+1) (c.awaiting n).terminated).fTerminated = true :=
      foldl_kept _ (fun s m => (happens_kept s m).2.1) _ _
    rw [loop_terminated (by simp [isTerminated, hflag])]

end Cleanup

/-- The job in front of the line number `n`: it ends cleaned up if and only if the cleanup
comes somewhere. -/
theorem loop_cleansUp_iff (rest : List Text) (n : ℕ) (hrest : c.lines.drop n = rest)
    (hn : n ≤ c.lines.length) (hreads : c.Reads n) :
    (c.loop n (c.awaiting n) rest).1.CleanedUp ↔ ∃ k, c.CleansUpAt k := by
  -- induction on the lines still to be read; up to `n` every one was accepted
  induction rest generalizing n with
  | nil =>
    by_cases hend : (c.awaiting n).isTerminated = true
    · exact loop_ended hn hreads hend []
    have hwait : (c.awaiting n).Untouched := awaiting_untouched n
    obtain rfl : n = c.lines.length := le_antisymm hn (List.drop_eq_nil_iff.mp hrest)
    rw [loop, if_neg hend, cleanup_at_end hreads hend]
    cases c.ending with
    -- at the end of the stream the loop just stops, without a clean-up
    | endOfStream =>
      exact iff_of_false (not_cleanedUp (passes_untouched hwait _).terminations) (by simp)
    | ioException => simp [passes_terminated hwait]
  | cons event rest ih =>
    by_cases hend : (c.awaiting n).isTerminated = true
    · exact loop_ended hn hreads hend _
    have hline : c.lines[n]? = some event := by
      rw [← List.head?_drop, hrest, List.head?_cons]
    by_cases hevent : event = txt "terminated"
    -- the job hands the terminated event on and cleans up
    · rw [hevent, loop_at_terminated hend, passes_terminated (awaiting_untouched n),
        cleanup_at_terminated (hevent ▸ hline) hreads hend]
    · obtain ⟨hnever, haccept, hnext⟩ := notify_unterminated hevent hline
      rw [loop, if_neg hend]
      split
      · -- a listener throws, and the job ends
        next s e h =>
        rw [h] at hnever haccept
        have hfinal : (c.passes (n+1) s).terminations = 0 :=
          (foldl_kept _ (fun s m => (happens_kept s m).1) _ _).trans hnever
        exact iff_of_false (not_cleanedUp hfinal)
          (no_cleanup_rejected hline hevent hreads (fun ha => by cases haccept.mpr ha))
      · next s h =>
        rw [h] at haccept hnext
        -- every listener took the event, so the loop goes on from the next line
        have hs : c.passes (n+1) s = c.awaiting (n+1) := hnext rfl
        have hlt : n < c.lines.length := (List.getElem?_eq_some_iff.mp hline).1
        have hdrop : c.lines.drop (n+1) = rest := by
          rw [← List.drop_drop, hrest, List.drop_one, List.tail_cons]
        have hreads' : c.Reads (n+1) := by
          intro j hj event' hline'
          rcases Nat.lt_succ_iff_lt_or_eq.mp hj with hj | rfl
          · exact hreads j hj event' hline'
          · obtain rfl := Option.some.inj (hline.symm.trans hline')
            exact ⟨hevent, haccept.mp rfl⟩
        rw [hs]
        exact ih (n+1) hdrop hlt hreads'

/-- When the job ends, `terminated` has run once and the target is cleaned up, if and only if
ldb says so or the read fails, all listeners accepted what came before, and neither the process
nor the constructor gets in between. -/
theorem dispatch_cleansUp_iff (c : Surroundings ι) :
    c.run.1.CleanedUp ↔ ∃ k, c.CleansUpAt k :=
  loop_cleansUp_iff c.lines 0 rfl (Nat.zero_le _) (fun _ hj => absurd hj (Nat.not_lt_zero _))

end Surroundings

/-- The listeners there are besides the target: threads and breakpoints, known by numbers. -/
inductive OwnListener where
  | thread (id : ℕ)
  | breakpoint (id : ℕ) (b : PDALineBreakpoint)
deriving DecidableEq

/-- Their `handleEvent`, as far as it may throw. -/
def OwnListener.handleEvent : OwnListener → Text → Except JavaError Unit
  | .thread _, _ => .ok ()
  | .breakpoint _ b, event => do
    let _ ← b.handleEvent event
    return ()

/-- The job at the event socket of ldb: its own listeners, and the lines ldb has written. -/
structure AtLdb (c : Surroundings OwnListener) (s : Joint) : Prop where
  lines : c.lines = lines s.world.events
  handles : c.handles = fun _ l event => l.handleEvent event

theorem eventLine_cases {event : Text} (h : ∃ x : Happening, event ∈ eventLines x) :
    event ∈ [txt "suspended client", txt "resumed step", txt "suspended step",
      txt "resumed client"] ∨ ∃ n : CInt, event = txt "suspended breakpoint " ++ ofInt n.val := by
  have hstop : ∀ e ∈ [txt "resumed client", txt "resumed client", txt "suspended step"],
      e ∈ [txt "suspended client", txt "resumed step", txt "suspended step",
        txt "resumed client"] := by
    decide
  have hcommand (c : Command) : ∀ e ∈ commandEventLines c,
      e ∈ [txt "suspended client", txt "resumed step", txt "suspended step",
        txt "resumed client"] := by
    cases c <;> decide
  obtain ⟨x, hx⟩ := h
  cases x with
  | entered bp =>
    cases bp with
    | none => exact .inl (hstop event hx)
    | some n =>
      simp only [eventLines, List.mem_cons, List.not_mem_nil, or_false] at hx
      rcases hx with rfl | rfl | rfl | rfl | rfl | rfl
      · exact .inl (hstop _ (by simp))
      · exact .inl (hstop _ (by simp))
      · exact .inr ⟨n, rfl⟩
      all_goals exact .inl (hstop _ (by simp))
  | handled source data =>
    rcases hc : commandOf data with _ | c
    · simp [eventLines, hc] at hx
    · left
      apply hcommand c
      simpa [eventLines, hc] using hx

theorem behindLastSpace_hit (n : CInt) :
    PDALineBreakpoint.behindLastSpace (txt "suspended breakpoint " ++ ofInt n.val) =
      some (ofInt n.val) := by
  have hspace : ' ' ∉ ofInt n.val := not_mem_ofInt (by decide) (by decide)
  have hbehind : ((txt "suspended breakpoint " ++ ofInt n.val).reverse.takeWhile
      (fun c => decide (c ≠ ' '))).reverse = ofInt n.val := by
    rw [List.reverse_append, takeWhile_append_of_not_mem (by simpa using hspace)]
    simp [txt]
  rw [PDALineBreakpoint.behindLastSpace, hbehind, if_pos]
  simp [txt]

theorem accepts_of_ok {b : PDALineBreakpoint} {event : Text} {hit : Bool}
    (h : b.handleEvent event = .ok hit) (id : ℕ) :
    (OwnListener.breakpoint id b).handleEvent event = .ok () :=
  bind_eq_ok.mpr ⟨hit, h, rfl⟩

/-- A hit is a number behind the last blank, which every breakpoint can read. -/
theorem handleEvent_hit (l : OwnListener) (n : CInt) :
    l.handleEvent (txt "suspended breakpoint " ++ ofInt n.val) = .ok () := by
  cases l with
  | thread id => rfl
  | breakpoint id b =>
    have hhit : b.handleLineHit (txt "suspended breakpoint " ++ ofInt n.val) =
        .ok (b.fTarget && decide (b.lineNumber = n)) := by
      rw [PDALineBreakpoint.handleLineHit, behindLastSpace_hit]
      exact bind_eq_ok.mpr ⟨n, parseIntOrThrow_eq_ok.mpr (parseInt_ofInt n), rfl⟩
    have hok : ∃ hit, b.handleEvent (txt "suspended breakpoint " ++ ofInt n.val) = .ok hit := by
      unfold PDALineBreakpoint.handleEvent
      split
      · exact ⟨_, rfl⟩
      · split
        · exact ⟨_, hhit⟩
        · exact ⟨_, rfl⟩
    obtain ⟨hit, h⟩ := hok
    exact accepts_of_ok h id

theorem handleEvent_noHit (l : OwnListener) {event : Text}
    (h : (txt "suspended breakpoint").isPrefixOf event = false) : l.handleEvent event = .ok () := by
  cases l with
  | thread id => rfl
  | breakpoint id b =>
    have hok : ∃ hit, b.handleEvent event = .ok hit := by
      unfold PDALineBreakpoint.handleEvent
      split
      · exact ⟨_, rfl⟩
      · rw [if_neg (by simp [h])]
        exact ⟨_, rfl⟩
    obtain ⟨hit, hok⟩ := hok
    exact accepts_of_ok hok id

/-- A line of a program that has not failed is accepted, and does not say `terminated`. -/
theorem accepted_eventLine {event : Text}
    (h : event = txt "started" ∨ ∃ x : Happening, event ∈ eventLines x) :
    event ≠ txt "terminated" ∧ (txt "syntaxerror").isPrefixOf event = false ∧
      ∀ l : OwnListener, l.handleEvent event = .ok () := by
  have hfixed : ∀ e ∈ [txt "started", txt "suspended client", txt "resumed step",
      txt "suspended step", txt "resumed client"], e ≠ txt "terminated" ∧
        (txt "syntaxerror").isPrefixOf e = false ∧
        (txt "suspended breakpoint").isPrefixOf e = false := by
    decide
  have hplain (hm : event ∈ [txt "started", txt "suspended client", txt "resumed step",
      txt "suspended step", txt "resumed client"]) : event ≠ txt "terminated" ∧
        (txt "syntaxerror").isPrefixOf event = false ∧
        ∀ l : OwnListener, l.handleEvent event = .ok () := by
    obtain ⟨hne, herrorEvent, hhit⟩ := hfixed event hm
    exact ⟨hne, herrorEvent, fun l => handleEvent_noHit l hhit⟩
  rcases h with rfl | h
  · exact hplain List.mem_cons_self
  rcases eventLine_cases h with hm | ⟨n, rfl⟩
  · exact hplain (List.mem_cons_of_mem _ hm)
  · refine ⟨fun he => ?_, rfl, fun l => handleEvent_hit l n⟩
    have hhead : 's' = 't' := Option.some.inj (congrArg List.head? he)
    exact absurd hhead (by decide)

/-- Over the lines of a program that has not failed the job cleans up only when the read
fails: at the end of the stream never. -/
theorem dispatch_at_ldb {c : Surroundings OwnListener} {s : Joint} (hs : s.Sound)
    (hf : s.finished = false) (hc : AtLdb c s) :
    c.run.1.CleanedUp ↔ c.ending = .ioException ∧
      (∀ j ≤ c.lines.length, .processEnds ∉ c.meanwhile j) ∧
      .constructorEnds ∉ c.meanwhile (c.lines.length + 1) := by
  -- ldb writes no terminated event and no syntax error, and the own listeners take the rest
  have hlines (event : Text) (hm : event ∈ c.lines) : event ≠ txt "terminated" ∧
      (txt "syntaxerror").isPrefixOf event = false ∧
      ∀ l : OwnListener, l.handleEvent event = .ok () := by
    rw [hc.lines, (hs.events hf).lines_eq, List.mem_cons, List.mem_flatMap] at hm
    refine accepted_eventLine (hm.imp_right ?_)
    rintro ⟨x, -, hx⟩
    exact ⟨x, hx⟩
  have hreads : c.Reads c.lines.length := by
    intro j _ event hline
    obtain ⟨hne, herrorEvent, haccept⟩ := hlines event (List.mem_of_getElem? hline)
    refine ⟨hne, fun hp => by simp [herrorEvent] at hp, fun l _ => ?_⟩
    rw [hc.handles]
    exact haccept l
  rw [c.dispatch_cleansUp_iff]
  constructor
  · rintro ⟨k, h⟩
    rcases h.cause with hk | ⟨rfl, hio⟩
    · exact absurd rfl (hlines _ (List.mem_of_getElem? hk)).1
    · exact ⟨hio, h.running, h.constructed⟩
  · rintro ⟨hio, hrunning, hm⟩
    exact ⟨_, .inr ⟨rfl, hio⟩, hreads, hrunning, hm⟩

/-- ldb says it has started, the constructor registers the target, and the stream ends. -/
def startsAndEnds : Surroundings OwnListener where
  thread := .thread 0
  lines := lines (Joint.start fun _ => []).world.events
  ending := .endOfStream
  meanwhile := fun n => if n = 0 then [.constructorEnds] else []
  handles := fun _ l event => l.handleEvent event
  deferred := []
  fileResource := fun _ => none

/-- Nothing is cleaned up: the target has its thread and stays registered. -/
theorem endOfStream_leaks : ¬ startsAndEnds.run.1.CleanedUp ∧
    startsAndEnds.run.1.isTerminated = false ∧
    startsAndEnds.run.1.getThreads = [.thread 0] ∧
    startsAndEnds.run.1.breakpointListener = true := by
  have hrun : startsAndEnds.run.1.terminations = 0 ∧ startsAndEnds.run.1.isTerminated = false ∧
      startsAndEnds.run.1.getThreads = [.thread 0] ∧
      startsAndEnds.run.1.breakpointListener = true := by
    decide +kernel
  exact ⟨DispatchedTarget.not_cleanedUp hrun.1, hrun.2⟩

end LuaIde
