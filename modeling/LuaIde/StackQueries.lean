import LuaIde.EventStream
import LuaIde.LockStep
import LuaIde.PdaModel
import LuaIde.PdaThread

/-! Threads of the IDE that build stack frames, others that send requests, and the event job,
against one ldb. A query is one request for the frame list and one for the globals of each
frame, and the lock covers a single request. -/
namespace LuaIde

open LineText Delimited Runs

/-- The first half of `PDAStackFrame.init`, as far as it can throw. -/
def PDAStackFrame.begins (data : Text) : Except JavaError Unit := do
  let strings := split '|' data
  let _ ← arrayAt strings 0
  let pc ← arrayAt strings 1
  let _ ← parseIntOrThrow pc
  let _ ← arrayAt strings 2
  return ()

/-- `PDAStackFrame.equals`, in one thread. -/
def PDAStackFrame.equals (a b : PDAStackFrame) : Bool :=
  decide (a.fFileName = b.fFileName ∧ a.fId = b.fId)

/-- Does `handleEvent` call `resumed`, which clears `fVariables`? -/
def PDAThread.clears (event : Text) : Bool :=
  (txt "resumed").isPrefixOf event &&
    ((txt "step").isSuffixOf event || (txt "client").isSuffixOf event ||
      (txt "drop").isSuffixOf event)

/-- A stack frame with its variables, and the stops in which ldb wrote the frame list and the
globals. -/
structure Fetched where
  frame : PDAStackFrame
  listed : ℕ
  globals : ℕ

/-- Where a thread stands in `getStackFrames`: outside, before its first reply, before the
reply to the `getglobals` of the frame in `data`, or before the `setVariables` of a frame.
`todo` are the texts of the frames behind. -/
inductive Query where
  | idle
  | asks
  | builds (listed : ℕ) (made : List Fetched) (data : Text) (todo : List Text)
  | stores (listed : ℕ) (made : List Fetched) (frame : Fetched) (todo : List Text)

namespace Query

/-- The requests a thread may send. -/
def sends : Query → Request → Bool
  | .idle, _ => true
  | .asks, .stackforide => true
  | .builds _ _ _ _, .getglobals => true
  | _, _ => false

/-- The stop of the frame list, for a query that has globals to read yet. -/
def reading : Query → Option ℕ
  | .builds listed _ _ _ => some listed
  | .stores listed _ _ (_ :: _) => some listed
  | _ => none

/-- The stop of the frame list, for a query that holds variables it has not stored yet. -/
def unstored : Query → Option ℕ
  | .stores listed _ _ _ => some listed
  | _ => none

end Query

/-- The IDE and ldb. `origins` has the stop in which ldb wrote each line of the replies,
`results` what the finished calls of `getStackFrames` returned. -/
structure Workbench where
  link : Link
  origins : List ℕ
  handledLines : ℕ
  thread : PDAThread
  fVariables : List Fetched
  queries : ℕ → Query
  results : List (List Fetched)

/-- A thread calls `getStackFrames`, prints a request, or stores the variables of a frame; ldb
receives a request or runs to a hook event; the thread in `sendRequest` reads its line; the
event job hands a line to the thread. -/
inductive WorkbenchAction where
  | query (b : ℕ)
  | send (b : ℕ) (q : Request)
  | consume
  | readLine
  | hook (e : HookEvent)
  | store (b : ℕ)
  | deliver

namespace Workbench

def start (lines : ScriptLines) : Workbench where
  link := .start lines
  origins := []
  handledLines := 0
  thread := .initial
  fVariables := []
  queries := fun _ => .idle
  results := []

/-- The stop ldb is in, or was in last. -/
def stop (s : Workbench) : ℕ := entries s.link.world.history

def setQuery (s : Workbench) (b : ℕ) (q : Query) : Workbench :=
  { s with queries := Function.update s.queries b q }

@[simp] theorem setQuery_self (s : Workbench) (b : ℕ) (q : Query) :
    (s.setQuery b q).queries b = q := Function.update_self ..

theorem setQuery_other (s : Workbench) (q : Query) {b c : ℕ} (h : c ≠ b) :
    (s.setQuery b q).queries c = s.queries c := Function.update_of_ne h ..

/-- The thread is inside of `sendRequest`. -/
def inRequest (s : Workbench) (b : ℕ) : Bool := (s.link.lock.map Prod.fst) == some b

/-- `PDAThread.setVariables`. -/
def setVariables (s : Workbench) (f : Fetched) : Workbench :=
  { s with fVariables := f :: s.fVariables.filter (fun g => !g.frame.equals f.frame) }

/-- The head of the loop of `getStackFrames`. The frame made last comes first. -/
def next (s : Workbench) (b listed : ℕ) (made : List Fetched) : List Text → Workbench
  | [] => { s.setQuery b .idle with results := s.results ++ [made] }
  | data :: todo =>
    match PDAStackFrame.begins data with
    | .ok _ => s.setQuery b (.builds listed made data todo)
    | .error _ => s.setQuery b .idle

/-- What a thread does with the line it got. -/
def replied (lastSegment : Text → Option Text) (s : Workbench) (b : ℕ) (line : Text)
    (origin : ℕ) : Workbench :=
  match s.queries b with
  | .asks => s.next b origin [] (split '#' line)
  | .builds listed made data todo =>
    match PDAStackFrame.init lastSegment (initGlobals (.line line)) todo.length data with
    | .ok frame => s.setQuery b (.stores listed made ⟨frame, listed, origin⟩ todo)
    | .error _ => s.setQuery b .idle
  | _ => s

def step (lastSegment : Text → Option Text) (s : Workbench) : WorkbenchAction → Option Workbench
  | .query b =>
    match s.queries b with
    | .idle =>
      -- a thread that waits for the line of a request is in no other call
      if s.inRequest b then none
      else if s.thread.fSuspended then some (s.setQuery b .asks)
      else some { s with results := s.results ++ [[]] }
    | _ => none
  | .send b q =>
    if (s.queries b).sends q then
      (s.link.step (.send b q)).map (fun link => { s with link := link })
    else none
  | .consume =>
    (s.link.step .consume).map (fun link =>
      -- the lines this receive has written are those of the stop ldb is in
      let written := (lines link.world.replies).length - (lines s.link.world.replies).length
      { s with link := link, origins := s.origins ++ List.replicate written s.stop })
  | .readLine =>
    match s.link.lock, (lines s.link.world.replies)[s.link.readLines]?,
      s.origins[s.link.readLines]? with
    | some (b, _), some line, some origin =>
      (s.link.step .readLine).map (fun link =>
        { s with link := link }.replied lastSegment b line origin)
    | _, _, _ => none
  | .hook e => (s.link.step (.hook e)).map (fun link => { s with link := link })
  -- `setVariables` and the next turn of the loop
  | .store b =>
    match s.queries b with
    | .stores listed made frame todo =>
      some ((s.setVariables frame).next b listed (frame :: made) todo)
    | _ => none
  | .deliver =>
    match (lines s.link.world.events)[s.handledLines]? with
    | some event => some { s with
        handledLines := s.handledLines + 1
        thread := s.thread.handleEvent event
        fVariables := if PDAThread.clears event then [] else s.fVariables }
    | none => none

end Workbench

/-- Stop number `k` was left for a step or a resume, and the first line that reports it is
event line number `n`. The line behind which they are counted is `started`. -/
def StopEnded (history : List Happening) (k n : ℕ) : Prop :=
  ∃ i source data, history[i]? = some (.handled source data) ∧
    (commandOf data = some .step ∨ commandOf data = some .resume) ∧
      entries (history.take i) = k ∧ n = 1 + ((history.take i).flatMap eventLines).length

namespace Workbench

/-- Each result is data of one stop, and the table has no variables of a stop whose `resumed`
event has been handled. -/
structure Consistent (s : Workbench) : Prop where
  results : ∀ frames ∈ s.results, ∃ k, ∀ f ∈ frames, f.listed = k ∧ f.globals = k
  cleared : ∀ k n, StopEnded s.link.world.history k n → n < s.handledLines →
    ∀ f ∈ s.fVariables, f.listed ≠ k ∧ f.globals ≠ k

end Workbench

/-- The condition on a step: ldb answers a request with one line or not at all, it is sent on
only while no query has globals to read, and the event that reports the end of a stop is not
handled while a query holds variables of that stop. -/
def keepsSnapshots (s : Workbench) : WorkbenchAction → Prop
  | .consume => ∀ L pending q rest, s.link.world.status = .waiting L pending →
      s.link.channel = q :: rest →
        (answered L s.link.world.state q ∨
          (receive .ide L pending (.data q.line) s.link.world).replies = s.link.world.replies) ∧
        (q = .step ∨ q = .resume → ∀ b, (s.queries b).reading = none)
  | .deliver => ∀ b k, (s.queries b).unstored = some k →
      ¬ StopEnded s.link.world.history k s.handledLines
  | _ => True

end LuaIde
