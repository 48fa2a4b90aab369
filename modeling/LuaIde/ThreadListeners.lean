import LuaIde.EventDispatch
import Mathlib.Logic.Function.Basic

/-! The thread among the listeners of the event socket: what `PDAThread` shows behind each line
that is dispatched, while breakpoints are installed and removed. -/
namespace LuaIde

open LineText DecimalText Delimited CheckedFold Runs

/-- A name in an event line. -/
abbrev EventWord := { s : Text // ' ' ∉ s }

/-- The lines `IPDAEventListener` documents, and `resumed drop`, which the thread knows too. -/
inductive EventLine where
  | started
  | terminated
  | suspendedBreakpoint (n : CInt)
  | suspendedClient
  | suspendedDrop
  | suspendedEvent (unimpinstr : Bool)
  | suspendedStep
  | suspendedWatch (write : Bool) (functionName variableName : EventWord)
  | resumedStep
  | resumedClient
  | resumedDrop
  | unimplementedInstruction (x : Text)
  | noSuchLabel (x : Text)

namespace EventLine

def text : EventLine → Text
  | .started => txt "started"
  | .terminated => txt "terminated"
  | .suspendedBreakpoint n => txt "suspended breakpoint " ++ ofInt n.val
  | .suspendedClient => txt "suspended client"
  | .suspendedDrop => txt "suspended drop"
  | .suspendedEvent unimpinstr =>
    txt "suspended event " ++ if unimpinstr then txt "unimpinstr" else txt "nosuchlabel"
  | .suspendedStep => txt "suspended step"
  | .suspendedWatch write functionName variableName =>
    txt "suspended watch " ++ ((if write then txt "write" else txt "read") ++
      (txt " " ++ (functionName.val ++ (txt "::" ++ variableName.val))))
  | .resumedStep => txt "resumed step"
  | .resumedClient => txt "resumed client"
  | .resumedDrop => txt "resumed drop"
  | .unimplementedInstruction x => txt "unimplemented instruction " ++ x
  | .noSuchLabel x => txt "no such label " ++ x

/-- The line is about a hit of that breakpoint: its line, or its function and variable. -/
def Names (l : EventLine) (b : PDALineBreakpoint) : Prop :=
  match l, b.kind with
  | .suspendedWatch _ f v, .watchpoint functionName variableName =>
    f.val ++ (txt "::" ++ v.val) = functionName ++ (txt "::" ++ variableName)
  | .suspendedBreakpoint _, .watchpoint _ _ => False
  | .suspendedBreakpoint n, _ => n = b.lineNumber
  | _, _ => False

/-- A `resumed` line with one of the details the thread knows. -/
def recognisedResumed (l : EventLine) : Bool :=
  (txt "resumed").isPrefixOf l.text && ((txt "step").isSuffixOf l.text ||
    (txt "client").isSuffixOf l.text || (txt "drop").isSuffixOf l.text)

/-- A line that is neither resumed, suspended nor started. -/
def isError (l : EventLine) : Bool :=
  !(txt "resumed").isPrefixOf l.text && !(txt "suspended").isPrefixOf l.text &&
    !decide (l.text = txt "started")

end EventLine

/-- The listeners besides the target: its thread, the threads that `getGlobals` makes for its
stack frame, and breakpoints, known by numbers. -/
inductive ThreadListener where
  | thread
  | otherThread (i : ℕ)
  | breakpoint (id : ℕ)
deriving DecidableEq

/-- A target with its thread, and the breakpoints there are. -/
structure Dispatching where
  target : DispatchedTarget ThreadListener
  thread : PDAThread
  objects : ℕ → PDALineBreakpoint

/-- A line is dispatched, with the breakpoints that `started` installs; between two lines a
breakpoint is installed, removed (`cleared` says whether ldb could be asked), or changed by its
marker, and `getGlobals` makes a thread. -/
inductive ListenerAction where
  | dispatch (l : EventLine) (deferred : List ℕ)
  | install (id : ℕ)
  | remove (id : ℕ) (cleared : Bool)
  | changed (id : ℕ) (enabled : Bool) (lineNumber : CInt)
  | getGlobals (i : ℕ)

/-- The lines that are dispatched in a run. -/
def dispatchedLines (as : List ListenerAction) : List EventLine :=
  as.filterMap (fun
    | .dispatch l _ => some l
    | _ => none)

namespace Dispatching

def start (objects : ℕ → PDALineBreakpoint) : Dispatching where
  target := .scheduled .thread
  thread := .initial
  objects := objects

def setTarget (set : Bool) (objects : ℕ → PDALineBreakpoint) (id : ℕ) : ℕ → PDALineBreakpoint :=
  Function.update objects id { objects id with fTarget := set }

/-- `notifyThread` of a breakpoint. -/
def notifyThread (s : Dispatching) (id : ℕ) : Dispatching :=
  if s.target.getThreads.length = 1 then { s with thread := s.thread.suspendedBy id } else s

/-- A listener's `handleEvent`. No line of the vocabulary asks for the file resource. -/
def hears (s : Dispatching) (event : Text) (deferred : List ℕ) :
    EventListener ThreadListener → Except JavaError Dispatching
  | .target => do
    let target ← s.target.handleEvent (deferred.map .breakpoint) none event
    let objects :=
      if event = txt "started" then deferred.foldl (setTarget true) s.objects else s.objects
    return { s with target := target, objects := objects }
  | .other .thread => .ok { s with thread := s.thread.handleEvent event }
  | .other (.otherThread _) => .ok s
  | .other (.breakpoint id) => do
    let hit ← (s.objects id).handleEvent event
    return if hit then s.notifyThread id else s

/-- One pass of the loop of `EventDispatchJob.run`, over the listeners in front of it. -/
def dispatch (s : Dispatching) (event : Text) (deferred : List ℕ) : Except JavaError Dispatching :=
  s.target.fEventListeners.foldlM (fun s l => s.hears event deferred l) s

def step (s : Dispatching) : ListenerAction → Option Dispatching
  | .dispatch l deferred =>
    if s.target.isTerminated then none
    else
      match s.dispatch l.text deferred with
      | .ok s => some s
      | .error _ => none
  | .install id =>
    some { s with
      objects := setTarget true s.objects id
      target := s.target.addEventListener (.other (.breakpoint id)) }
  | .remove id cleared =>
    some { s with
      target := s.target.removeEventListener (.other (.breakpoint id))
      objects := if cleared then setTarget false s.objects id else s.objects }
  | .changed id enabled lineNumber =>
    some { s with
      objects := Function.update s.objects id ((s.objects id).withAttributes enabled lineNumber) }
  | .getGlobals i =>
    some { s with target := s.target.addEventListener (.other (.otherThread i)) }

end Dispatching

/-- The thread is the first listener behind the target, and listens once. -/
def ThreadFirst (s : DispatchedTarget ThreadListener) : Prop :=
  ∃ rest, s.fEventListeners = .target :: .other .thread :: rest ∧
    .target ∉ rest ∧ .other .thread ∉ rest

/-- An error line was dispatched, and no recognised resumed line behind it. -/
def ErrorSince (ls : List EventLine) : Prop :=
  ∃ before l behind, ls = before ++ l :: behind ∧ l.isError = true ∧
    ∀ l' ∈ behind, l'.recognisedResumed = false

/-- What the fields of the thread say together, behind the lines dispatched so far. -/
structure ThreadInvariant (s : Dispatching) (ls : List EventLine) : Prop where
  exclusive : ¬ (s.thread.fStepping = true ∧ s.thread.fSuspended = true)
  breakpoint : ∀ id, s.thread.fBreakpoint = some id → s.thread.fSuspended = true ∧
    s.thread.fStepping = false ∧ ∃ l, ls.getLast? = some l ∧ l.Names (s.objects id)
  error : s.thread.fErrorEvent ≠ none → ErrorSince ls

namespace EventLine

theorem isPrefixOf_suspendedWatch {l : EventLine}
    (h : (txt "suspended watch").isPrefixOf l.text = true) :
    ∃ write f v, l = .suspendedWatch write f v := by
  cases l with
  | suspendedWatch write f v => exact ⟨write, f, v, rfl⟩
  | suspendedEvent unimpinstr => cases unimpinstr <;> exact nomatch h
  | _ => exact nomatch h

theorem isPrefixOf_suspendedBreakpoint {l : EventLine}
    (h : (txt "suspended breakpoint").isPrefixOf l.text = true) :
    ∃ n, l = .suspendedBreakpoint n := by
  cases l with
  | suspendedBreakpoint n => exact ⟨n, rfl⟩
  | suspendedEvent unimpinstr => cases unimpinstr <;> exact nomatch h
  | _ => exact nomatch h

theorem not_syntaxerror (l : EventLine) : (txt "syntaxerror").isPrefixOf l.text = false := by
  cases l with
  | suspendedEvent unimpinstr => cases unimpinstr <;> rfl
  | _ => rfl

theorem isPrefixOf_suspended {l : EventLine} {b : PDALineBreakpoint} (h : l.Names b) :
    (txt "suspended").isPrefixOf l.text = true := by
  cases l with
  | suspendedBreakpoint n => rfl
  | suspendedWatch write f v => rfl
  | _ => exact nomatch h

end EventLine

namespace PDALineBreakpoint

theorem aroundColons_eq_some {s fcn var : Text} (h : aroundColons s = some (fcn, var)) :
    s = fcn ++ (txt "::" ++ var) := by
  induction s generalizing fcn with
  | nil => exact nomatch h
  | cons c cs ih =>
    rw [aroundColons] at h
    by_cases hc : c = ':' ∧ cs.head? = some ':'
    · rw [if_pos hc, Option.some.injEq, Prod.mk.injEq] at h
      obtain ⟨d, ds, rfl⟩ := List.exists_cons_of_ne_nil
        (fun hn : cs = [] => by simp [hn] at hc)
      obtain rfl : d = ':' := by simpa using hc.2
      rw [hc.1, ← h.1, ← h.2]
      rfl
    · rw [if_neg hc, Option.map_eq_some_iff] at h
      obtain ⟨fv, hfv, he⟩ := h
      obtain ⟨rfl, rfl⟩ := Prod.mk.inj he
      rw [ih hfv]
      rfl

/-- The line of a watchpoint has four words. -/
theorem split_suspendedWatch (write : Bool) (f v : EventWord) :
    split ' ' (EventLine.suspendedWatch write f v).text =
      [txt "suspended", txt "watch", if write then txt "write" else txt "read",
        f.val ++ (txt "::" ++ v.val)] := by
  let front := [txt "suspended", txt "watch", if write then txt "write" else txt "read"]
  have hfront : ∀ p ∈ front, ' ' ∉ p := by
    cases write <;> decide
  have hnames : ' ' ∉ f.val ++ (txt "::" ++ v.val) := by
    simp [txt, f.property, v.property]
  have htext : (EventLine.suspendedWatch write f v).text =
      terminated ' ' front ++ (f.val ++ (txt "::" ++ v.val)) := by
    cases write <;> rfl
  rw [htext, split, if_pos (by simp [front]), splitOn_terminated_append ' ' _ _ hfront,
    List.splitOn_eq_singleton hnames]
  exact List.rdropWhile_concat_neg _ front _ (by simp [txt])

/-- A line of the vocabulary is read by every breakpoint, and a hit names it. -/
theorem handleEvent_text (b : PDALineBreakpoint) (l : EventLine) :
    ∃ hit, b.handleEvent l.text = .ok hit ∧ (hit = true → l.Names b) := by
  have hlines (hb : ∀ f v, b.kind ≠ .watchpoint f v) : ∃ hit,
      (if (txt "suspended breakpoint").isPrefixOf l.text then b.handleLineHit l.text
        else .ok false) = .ok hit ∧ (hit = true → l.Names b) := by
    by_cases hp : (txt "suspended breakpoint").isPrefixOf l.text = true
    · obtain ⟨n, rfl⟩ := EventLine.isPrefixOf_suspendedBreakpoint hp
      refine ⟨b.fTarget && decide (b.lineNumber = n), ?_, ?_⟩
      · rw [if_pos hp, EventLine.text, handleLineHit, behindLastSpace_hit]
        exact bind_eq_ok.mpr ⟨n, parseIntOrThrow_eq_ok.mpr (parseInt_ofInt n), rfl⟩
      · intro hit
        rw [Bool.and_eq_true, decide_eq_true_iff] at hit
        unfold EventLine.Names
        cases hk : b.kind with
        | watchpoint f v => exact absurd hk (hb f v)
        | _ => exact hit.2.symm
    · exact ⟨false, if_neg hp, fun h => absurd h Bool.false_ne_true⟩
  cases hk : b.kind with
  | watchpoint functionName variableName =>
    refine ⟨_, by rw [handleEvent, hk], ?_⟩
    intro hit
    rw [Bool.and_eq_true] at hit
    obtain ⟨write, f, v, rfl⟩ := EventLine.isPrefixOf_suspendedWatch hit.1
    obtain ⟨-, h⟩ := hit
    rw [handleWatchHit, split_suspendedWatch] at h
    cases hc : aroundColons (f.val ++ (txt "::" ++ v.val)) with
    | none => simp [hc] at h
    | some names =>
      obtain ⟨fcn, var⟩ := names
      simp only [hc, Bool.and_eq_true, decide_eq_true_iff] at h
      obtain ⟨-, -, rfl, rfl⟩ := h
      unfold EventLine.Names
      rw [hk]
      exact aroundColons_eq_some hc
  | line =>
    obtain ⟨hit, h, hn⟩ := hlines (by simp [hk])
    exact ⟨hit, by rw [handleEvent, hk]; exact h, hn⟩
  | runToLine =>
    obtain ⟨hit, h, hn⟩ := hlines (by simp [hk])
    exact ⟨hit, by rw [handleEvent, hk]; exact h, hn⟩

end PDALineBreakpoint

namespace PDAThread

/-- Behind `handleEvent` alone no breakpoint is known, and a stepping thread is not
suspended. -/
theorem handleEvent_exclusive (t : PDAThread) (event : Text) :
    (t.handleEvent event).fBreakpoint = none ∧
      ¬ ((t.handleEvent event).fStepping = true ∧ (t.handleEvent event).fSuspended = true) := by
  simp only [handleEvent]
  split_ifs <;> exact ⟨rfl, by simp [setStepping, setSuspended, resumed, setError]⟩

theorem handleEvent_suspended (t : PDAThread) {event : Text}
    (h : (txt "suspended").isPrefixOf event = true) :
    (t.handleEvent event).fSuspended = true ∧ (t.handleEvent event).fStepping = false := by
  have hresumed : (txt "resumed").isPrefixOf event = false := by
    obtain ⟨rest, rfl⟩ := List.isPrefixOf_iff_prefix.mp h
    rfl
  simp [handleEvent, hresumed, h, setStepping, setSuspended]

/-- An error is kept or recorded at lines that are not recognised as resumed. -/
theorem handleEvent_fErrorEvent (t : PDAThread) (l : EventLine)
    (h : (t.handleEvent l.text).fErrorEvent ≠ none) :
    l.isError = true ∨ (t.fErrorEvent ≠ none ∧ l.recognisedResumed = false) := by
  unfold EventLine.isError EventLine.recognisedResumed
  simp only [handleEvent] at h
  by_cases hresumed : (txt "resumed").isPrefixOf l.text = true
  · right
    rw [if_pos hresumed] at h
    -- the three details clear the error
    by_cases hstep : (txt "step").isSuffixOf l.text = true
    · rw [if_pos hstep] at h
      exact absurd rfl h
    by_cases hclient : (txt "client").isSuffixOf l.text = true
    · rw [if_neg hstep, if_pos hclient] at h
      exact absurd rfl h
    by_cases hdrop : (txt "drop").isSuffixOf l.text = true
    · rw [if_neg hstep, if_neg hclient, if_pos hdrop] at h
      exact absurd rfl h
    rw [if_neg hstep, if_neg hclient, if_neg hdrop] at h
    exact ⟨h, by simp [hstep, hclient, hdrop]⟩
  · rw [if_neg hresumed] at h
    by_cases hsuspended : (txt "suspended").isPrefixOf l.text = true
    · rw [if_pos hsuspended] at h
      exact Or.inr ⟨h, by simp [hresumed]⟩
    rw [if_neg hsuspended] at h
    by_cases hstarted : l.text = txt "started"
    · rw [if_pos hstarted] at h
      exact Or.inr ⟨h, by simp [hresumed]⟩
    · left
      simp [hresumed, hsuspended, hstarted]

end PDAThread

/-- The last error line counts until a resumed line is recognised. -/
theorem ErrorSince.concat {ls : List EventLine} (l : EventLine)
    (h : l.isError = true ∨ (ErrorSince ls ∧ l.recognisedResumed = false)) :
    ErrorSince (ls ++ [l]) := by
  rcases h with herror | ⟨⟨before, e, behind, rfl, he, hbehind⟩, hl⟩
  · exact ⟨ls, l, [], rfl, herror, fun _ hm => nomatch hm⟩
  · refine ⟨before, e, behind ++ [l], by simp, he, ?_⟩
    intro l' hl'
    rcases List.mem_append.mp hl' with hb | hs
    · exact hbehind l' hb
    · rw [List.mem_singleton.mp hs]
      exact hl

namespace Dispatching

theorem notifyThread_cases (s : Dispatching) (id : ℕ) :
    (s.notifyThread id).target = s.target ∧ (s.notifyThread id).objects = s.objects ∧
      ((s.notifyThread id).thread = s.thread ∨
        (s.notifyThread id).thread = s.thread.suspendedBy id) := by
  unfold notifyThread
  split_ifs
  · exact ⟨rfl, rfl, Or.inr rfl⟩
  · exact ⟨rfl, rfl, Or.inl rfl⟩

/-- The listeners behind the thread let the target and the breakpoints be; at most they tell
the thread of hits. -/
theorem foldlM_behind {rest : List (EventListener ThreadListener)} {event : Text}
    {deferred : List ℕ} (htarget : .target ∉ rest) (hthread : .other .thread ∉ rest)
    {s t : Dispatching} (h : rest.foldlM (fun s l => s.hears event deferred l) s = .ok t) :
    t.target = s.target ∧ t.objects = s.objects ∧ (t.thread = s.thread ∨
      ∃ id, t.thread = s.thread.suspendedBy id ∧ (s.objects id).handleEvent event = .ok true) := by
  induction rest generalizing s with
  | nil =>
    obtain rfl := foldlM_nil_eq_ok.mp h
    exact ⟨rfl, rfl, Or.inl rfl⟩
  | cons l rest ih =>
    obtain ⟨u, hu, h⟩ := foldlM_cons_eq_ok.mp h
    have hrest := ih (fun hm => htarget (List.mem_cons_of_mem l hm))
      (fun hm => hthread (List.mem_cons_of_mem l hm)) h
    cases l with
    | target => exact absurd List.mem_cons_self htarget
    | other i =>
      cases i with
      | thread => exact absurd List.mem_cons_self hthread
      | otherThread i =>
        obtain rfl := Except.ok.inj hu
        exact hrest
      | breakpoint id =>
        obtain ⟨hit, hhit, hu⟩ := bind_eq_ok.mp hu
        obtain rfl := Except.ok.inj hu
        cases hit with
        | false => exact hrest
        | true =>
          obtain ⟨htarget', hobjects, hnotified⟩ := s.notifyThread_cases id
          obtain ⟨ht, ho, hlater⟩ := hrest
          simp only [if_true] at ht ho hlater
          refine ⟨ht.trans htarget', ho.trans hobjects, ?_⟩
          rw [hobjects] at hlater
          -- of several hits the last one is kept
          rcases hnotified with hn | hn
          · rw [hn] at hlater
            exact hlater
          · rw [hn] at hlater
            rcases hlater with hl | ⟨id', hl, hhit'⟩
            · exact Or.inr ⟨id, hl, hhit⟩
            · exact Or.inr ⟨id', hl, hhit'⟩

/-- A whole dispatch: the target, the thread, and hits of the breakpoints behind it. -/
theorem dispatch_cases {s t : Dispatching} {event : Text} {deferred : List ℕ}
    (hs : ThreadFirst s.target) (h : s.dispatch event deferred = .ok t) :
    s.target.handleEvent (deferred.map .breakpoint) none event = .ok t.target ∧
      (t.thread = s.thread.handleEvent event ∨
        ∃ id, t.thread = (s.thread.handleEvent event).suspendedBy id ∧
          (t.objects id).handleEvent event = .ok true) := by
  obtain ⟨rest, hl, htarget, hthread⟩ := hs
  rw [dispatch, hl] at h
  obtain ⟨u, hu, h⟩ := foldlM_cons_eq_ok.mp h
  obtain ⟨target, ht, hu⟩ := bind_eq_ok.mp hu
  obtain rfl := Except.ok.inj hu
  obtain ⟨v, hv, h⟩ := foldlM_cons_eq_ok.mp h
  obtain rfl := Except.ok.inj hv
  obtain ⟨htarget', hobjects, hheard⟩ := foldlM_behind htarget hthread h
  rw [hobjects, htarget']
  exact ⟨ht, hheard⟩

end Dispatching

namespace ThreadFirst

variable {s : DispatchedTarget ThreadListener}

theorem scheduled : ThreadFirst (.scheduled .thread) :=
  ⟨[], rfl, List.not_mem_nil, List.not_mem_nil⟩

theorem addEventListener (h : ThreadFirst s) {i : ThreadListener} (hi : i ≠ .thread) :
    ThreadFirst (s.addEventListener (.other i)) := by
  unfold DispatchedTarget.addEventListener
  split_ifs
  · exact h
  · obtain ⟨rest, hl, htarget, hthread⟩ := h
    refine ⟨rest ++ [.other i], by simp [hl], by simp [htarget], ?_⟩
    simp [hthread, hi.symm]

theorem removeEventListener (h : ThreadFirst s) {i : ThreadListener} (hi : i ≠ .thread) :
    ThreadFirst (s.removeEventListener (.other i)) := by
  obtain ⟨rest, hl, htarget, hthread⟩ := h
  refine ⟨rest.erase (.other i), ?_, fun hm => htarget (List.mem_of_mem_erase hm),
    fun hm => hthread (List.mem_of_mem_erase hm)⟩
  simp [DispatchedTarget.removeEventListener, hl, hi.symm]

theorem started (h : ThreadFirst s) (deferred : List ℕ) :
    ThreadFirst (s.started (deferred.map .breakpoint)) := by
  unfold DispatchedTarget.started
  induction deferred generalizing s with
  | nil => exact h
  | cons id deferred ih => exact ih (h.addEventListener (by simp))

/-- The thread keeps its place unless the target is terminated. -/
theorem handleEvent {t : DispatchedTarget ThreadListener} {deferred : List ℕ} {l : EventLine}
    (h : ThreadFirst s)
    (ht : s.handleEvent (deferred.map .breakpoint) none l.text = .ok t) :
    t.fTerminated = true ∨ ThreadFirst t := by
  unfold DispatchedTarget.handleEvent at ht
  by_cases hstarted : l.text = txt "started"
  · rw [if_pos hstarted] at ht
    obtain rfl := Except.ok.inj ht
    exact Or.inr (h.started deferred)
  rw [if_neg hstarted] at ht
  by_cases hterminated : l.text = txt "terminated"
  · rw [if_pos hterminated] at ht
    obtain rfl := Except.ok.inj ht
    exact Or.inl rfl
  rw [if_neg hterminated, if_neg (by simp [l.not_syntaxerror])] at ht
  obtain rfl := Except.ok.inj ht
  exact Or.inr h

end ThreadFirst

namespace Dispatching

/-- What holds between two actions: the thread has its place, and an error has its line. -/
structure Between (s : Dispatching) (ls : List EventLine) : Prop where
  place : s.target.fTerminated = true ∨ ThreadFirst s.target
  error : s.thread.fErrorEvent ≠ none → ErrorSince ls

/-- No listener throws at a line of the vocabulary: while the target is not terminated every
dispatch is completed. -/
theorem dispatch_completes (s : Dispatching) (l : EventLine) (deferred : List ℕ)
    (hrunning : s.target.isTerminated = false) : ∃ t, s.step (.dispatch l deferred) = some t := by
  have hhears (s : Dispatching) (i : EventListener ThreadListener) :
      ∃ t, s.hears l.text deferred i = .ok t := by
    cases i with
    | target =>
      have htarget : ∃ t, s.target.handleEvent (deferred.map .breakpoint) none l.text = .ok t := by
        simp only [DispatchedTarget.handleEvent, l.not_syntaxerror, Bool.false_eq_true, if_false]
        split_ifs
        · exact ⟨_, rfl⟩
        · exact ⟨_, rfl⟩
        · exact ⟨_, rfl⟩
      obtain ⟨t, ht⟩ := htarget
      exact ⟨_, bind_eq_ok.mpr ⟨t, ht, rfl⟩⟩
    | other i =>
      cases i with
      | thread => exact ⟨_, rfl⟩
      | otherThread i => exact ⟨_, rfl⟩
      | breakpoint id =>
        obtain ⟨hit, hok, -⟩ := (s.objects id).handleEvent_text l
        exact ⟨_, bind_eq_ok.mpr ⟨hit, hok, rfl⟩⟩
  have hloop (is : List (EventListener ThreadListener)) (s : Dispatching) :
      ∃ t, is.foldlM (fun s i => s.hears l.text deferred i) s = .ok t := by
    induction is generalizing s with
    | nil => exact ⟨s, rfl⟩
    | cons i is ih =>
      obtain ⟨u, hu⟩ := hhears s i
      obtain ⟨t, ht⟩ := ih u
      exact ⟨t, foldlM_cons_eq_ok.mpr ⟨u, hu, ht⟩⟩
  obtain ⟨t, ht⟩ := hloop s.target.fEventListeners s
  have hdispatch : s.dispatch l.text deferred = .ok t := ht
  exact ⟨t, by simp [step, hrunning, hdispatch]⟩

/-- Behind a dispatch the invariant holds, whatever the breakpoints were. -/
theorem threadInvariant_dispatch {s t : Dispatching} {l : EventLine} {deferred : List ℕ}
    {ls : List EventLine} (hs : s.Between ls) (h : s.step (.dispatch l deferred) = some t) :
    ThreadInvariant t (ls ++ [l]) ∧ t.Between (ls ++ [l]) := by
  rw [step] at h
  by_cases hrunning : s.target.isTerminated = true
  · rw [if_pos hrunning] at h
    cases h
  rw [if_neg hrunning] at h
  cases hd : s.dispatch l.text deferred with
  | error e =>
    rw [hd] at h
    cases h
  | ok u =>
    rw [hd] at h
    obtain rfl := Option.some.inj h
    have hplace : ThreadFirst s.target := by
      rcases hs.place with hterm | hfirst
      · simp [DispatchedTarget.isTerminated, hterm] at hrunning
      · exact hfirst
    obtain ⟨htarget, hthread⟩ := dispatch_cases hplace hd
    obtain ⟨hnone, hexclusive⟩ := s.thread.handleEvent_exclusive l.text
    have herror : u.thread.fErrorEvent ≠ none → ErrorSince (ls ++ [l]) := by
      intro he
      have hheard : (s.thread.handleEvent l.text).fErrorEvent ≠ none := by
        rcases hthread with hu | ⟨id, hu, -⟩
        · exact hu ▸ he
        · rw [hu] at he
          exact he
      apply ErrorSince.concat
      rcases s.thread.handleEvent_fErrorEvent l hheard with hl | ⟨hold, hl⟩
      · exact Or.inl hl
      · exact Or.inr ⟨hs.error hold, hl⟩
    refine ⟨⟨?_, ?_, herror⟩, hplace.handleEvent htarget, herror⟩
    · rcases hthread with hu | ⟨id, hu, -⟩
      · rw [hu]
        exact hexclusive
      · rw [hu]
        exact hexclusive
    · intro id hid
      rcases hthread with hu | ⟨id', hu, hhit⟩
      · rw [hu, hnone] at hid
        cases hid
      · obtain rfl : id' = id := by
          rw [hu] at hid
          exact Option.some.inj hid
        -- the breakpoint has answered, so the line is a hit and names it
        obtain ⟨hit, hok, hnames⟩ := (u.objects id').handleEvent_text l
        rw [hhit] at hok
        have hl := hnames (Except.ok.inj hok).symm
        have hsuspended := s.thread.handleEvent_suspended (EventLine.isPrefixOf_suspended hl)
        rw [hu]
        exact ⟨hsuspended.1, hsuspended.2, l, by simp, hl⟩

/-- Between two lines the thread is left alone, and keeps its place. -/
theorem between_step {s t : Dispatching} {a : ListenerAction} {ls : List EventLine}
    (hs : s.Between ls) (h : s.step a = some t) : t.Between (ls ++ dispatchedLines [a]) := by
  have hkept (target : DispatchedTarget ThreadListener)
      (hflag : target.fTerminated = s.target.fTerminated)
      (hfirst : ThreadFirst s.target → ThreadFirst target) :
      target.fTerminated = true ∨ ThreadFirst target := by
    rw [hflag]
    exact hs.place.imp_right hfirst
  cases a with
  | dispatch l deferred => exact (threadInvariant_dispatch hs h).2
  | install id =>
    obtain rfl := Option.some.inj h
    rw [show dispatchedLines [.install id] = [] from rfl, List.append_nil]
    refine ⟨hkept _ ?_ (fun hf => hf.addEventListener (by simp)), hs.error⟩
    rw [DispatchedTarget.addEventListener_frame]
  | remove id cleared =>
    obtain rfl := Option.some.inj h
    rw [show dispatchedLines [.remove id cleared] = [] from rfl, List.append_nil]
    exact ⟨hkept _ rfl (fun hf => hf.removeEventListener (by simp)), hs.error⟩
  | changed id enabled lineNumber =>
    obtain rfl := Option.some.inj h
    rw [show dispatchedLines [.changed id enabled lineNumber] = [] from rfl, List.append_nil]
    exact ⟨hs.place, hs.error⟩
  | getGlobals i =>
    obtain rfl := Option.some.inj h
    rw [show dispatchedLines [.getGlobals i] = [] from rfl, List.append_nil]
    refine ⟨hkept _ ?_ (fun hf => hf.addEventListener (by simp)), hs.error⟩
    rw [DispatchedTarget.addEventListener_frame]

theorem dispatchedLines_append (as bs : List ListenerAction) :
    dispatchedLines (as ++ bs) = dispatchedLines as ++ dispatchedLines bs :=
  List.filterMap_append

theorem between_run {objects : ℕ → PDALineBreakpoint} {as : List ListenerAction}
    {s : Dispatching} (h : run step (start objects) as = some s) :
    s.Between (dispatchedLines as) := by
  induction as using List.reverseRecOn generalizing s with
  | nil =>
    obtain rfl := Option.some.inj h
    exact ⟨Or.inr ThreadFirst.scheduled, fun he => absurd rfl he⟩
  | append_singleton as a ih =>
    rw [run_append] at h
    obtain ⟨u, hu, h⟩ := Option.bind_eq_some_iff.mp h
    obtain ⟨t, ht, h⟩ := Option.bind_eq_some_iff.mp h
    obtain rfl := Option.some.inj h
    rw [dispatchedLines_append]
    exact between_step (ih hu) ht

/-- Behind every dispatch of every run the fields of the thread agree. -/
theorem threadInvariant_run (objects : ℕ → PDALineBreakpoint) (as : List ListenerAction)
    (l : EventLine) (deferred : List ℕ) (s : Dispatching)
    (h : run step (start objects) (as ++ [.dispatch l deferred]) = some s) :
    ThreadInvariant s (dispatchedLines (as ++ [.dispatch l deferred])) := by
  rw [run_append] at h
  obtain ⟨u, hu, h⟩ := Option.bind_eq_some_iff.mp h
  obtain ⟨t, ht, h⟩ := Option.bind_eq_some_iff.mp h
  obtain rfl := Option.some.inj h
  rw [dispatchedLines_append]
  exact (threadInvariant_dispatch (between_run hu) ht).1

/-- A breakpoint of line 3, installed and hit: the thread names it. -/
def hitAtThree : List ListenerAction :=
  [.install 0, .dispatch .started [], .dispatch (.suspendedBreakpoint 3) []]

def lineThree : PDALineBreakpoint where
  kind := .line
  modelIdentifier := ID_PDA_DEBUG_MODEL
  resource := some (txt "/p/a.lua")
  enabled := true
  lineNumber := 3
  fTarget := false

theorem threadInvariant_hitAtThree :
    ∃ s, run step (start fun _ => lineThree) hitAtThree = some s ∧
      s.thread.fBreakpoint = some 0 ∧ ThreadInvariant s (dispatchedLines hitAtThree) := by
  refine ⟨_, rfl, rfl, ?_⟩
  exact threadInvariant_run (fun _ => lineThree) [.install 0, .dispatch .started []]
    (.suspendedBreakpoint 3) [] _ rfl

end Dispatching

end LuaIde
