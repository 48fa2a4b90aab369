import LuaIde.PdaModel
import LuaIde.Requests

/-! The breakpoints of the IDE: `PDALineBreakpoint` with its subclasses, and the
notification handlers of `PDADebugTarget` that install and remove them. -/
namespace LuaIde

open LineText DecimalText

inductive BreakpointKind where
  | line
  | runToLine
  | watchpoint (functionName variableName : Text)
deriving DecidableEq

/-- `PDALineBreakpoint`. `fTarget` says whether that field is set; `resource` is the full
path of the marker's resource, or of the source file of a run-to-line breakpoint. -/
structure PDALineBreakpoint where
  kind : BreakpointKind
  modelIdentifier : Text
  resource : Option Text
  enabled : Bool
  lineNumber : CInt
  fTarget : Bool
deriving DecidableEq

def ID_PDA_DEBUG_MODEL : Text := txt "pda.debugModel"

/-- The parts of `PDADebugTarget` the handlers ask for, with the path of its program. -/
structure PDADebugTarget where
  fTerminated : Bool
  program : Option Text

namespace PDALineBreakpoint

def isRunToLineBreakpoint (b : PDALineBreakpoint) : Bool := decide (b.kind = .runToLine)

def isWatchpoint (b : PDALineBreakpoint) : Bool :=
  match b.kind with
  | .watchpoint _ _ => true
  | _ => false

/-- The constructor of `PDARunToLineBreakpoint` calls `setRegistered(false)`; all others are
known to the breakpoint manager. -/
def isRegistered (b : PDALineBreakpoint) : Bool := !b.isRunToLineBreakpoint

/-- The breakpoint behind a change of its marker. -/
def withAttributes (b : PDALineBreakpoint) (enabled : Bool) (lineNumber : CInt) :
    PDALineBreakpoint :=
  { b with enabled := enabled, lineNumber := lineNumber }

/-- The breakpoint manager lists it among those of this debugger. -/
def isManaged (b : PDALineBreakpoint) : Bool :=
  b.isRegistered && decide (b.modelIdentifier = ID_PDA_DEBUG_MODEL)

end PDALineBreakpoint

def PDADebugTarget.supportsBreakpoint (target : PDADebugTarget) (b : PDALineBreakpoint) : Bool :=
  !target.fTerminated && decide (b.modelIdentifier = ID_PDA_DEBUG_MODEL) &&
    match target.program, b.resource with
    | some program, some resource => decide (resource = program)
    | _, _ => false

/-- `PDADebugTarget.sendRequest` while ldb is stopped; `none` if there is no line to read
for it, and the caller is not heard of again. -/
def sendRequest (L : LuaState) (d : Ldb) (q : Request) : Option Ldb :=
  if '\n' ∈ cstr q.line then
    match handle .ide L d (cstr q.line) with
    | .ok r => if '\n' ∈ r.reply then some r.state else none
    | .error _ => none
  else none

namespace PDALineBreakpoint

/-- The request that `createRequest` sends. That of a watchpoint is commented out. -/
def createRequest (b : PDALineBreakpoint) : Option Request :=
  match b.kind with
  | .watchpoint _ _ => none
  | _ => some (.setBreak b.lineNumber)

def clearRequest (b : PDALineBreakpoint) : Option Request :=
  match b.kind with
  | .watchpoint functionName variableName => some (.watch functionName variableName)
  | _ => some (.clear b.lineNumber)

end PDALineBreakpoint

namespace PDALineBreakpoint

/-- The text behind the last blank, if that is not the first character. -/
def behindLastSpace (event : Text) : Option Text :=
  let behind := (event.reverse.takeWhile (fun c => decide (c ≠ ' '))).reverse
  if behind.length + 1 < event.length then some behind else none

/-- What is in front of the first `::` and what is behind it. -/
def aroundColons : Text → Option (Text × Text)
  | [] => none
  | c :: cs =>
    if c = ':' ∧ cs.head? = some ':' then some ([], cs.tail)
    else (aroundColons cs).map (fun fv => (c :: fv.1, fv.2))

/-- `handleHit` of a line breakpoint: whether it notifies the thread. -/
def handleLineHit (b : PDALineBreakpoint) (event : Text) : Except JavaError Bool :=
  match behindLastSpace event with
  | some line => do
    let lineNumber ← parseIntOrThrow line
    return b.fTarget && decide (b.lineNumber = lineNumber)
  | none => .ok false

/-- `handleHit` of a watchpoint. -/
def handleWatchHit (b : PDALineBreakpoint) (functionName variableName event : Text) : Bool :=
  match Delimited.split ' ' event with
  | [_, _, _, fv] =>
    match aroundColons fv with
    | some (fcn, var) =>
      b.fTarget && decide (fcn ≠ [] ∧ variableName = var ∧ functionName = fcn)
    | none => false
  | _ => false

/-- `handleEvent`: whether the breakpoint tells the thread that it was hit. -/
def handleEvent (b : PDALineBreakpoint) (event : Text) : Except JavaError Bool :=
  match b.kind with
  | .watchpoint functionName variableName =>
    .ok ((txt "suspended watch").isPrefixOf event &&
      b.handleWatchHit functionName variableName event)
  | _ =>
    if (txt "suspended breakpoint").isPrefixOf event then b.handleLineHit event else .ok false

end PDALineBreakpoint

/-- A request that may be missing. -/
def sendOptional (L : LuaState) (d : Ldb) (q : Option Request) : Option Ldb :=
  match q with
  | none => some d
  | some q => sendRequest L d q

namespace PDALineBreakpoint

def install (L : LuaState) (b : PDALineBreakpoint) (d : Ldb) :
    Option (PDALineBreakpoint × Ldb) := do
  let b := { b with fTarget := true }
  let d ← sendOptional L d b.createRequest
  return (b, d)

def remove (L : LuaState) (b : PDALineBreakpoint) (d : Ldb) : Option (PDALineBreakpoint × Ldb) := do
  let d ← sendOptional L d b.clearRequest
  return ({ b with fTarget := false }, d)

end PDALineBreakpoint

namespace PDADebugTarget

variable (target : PDADebugTarget) (managerEnabled : Bool) (L : LuaState)

def breakpointAdded (b : PDALineBreakpoint) (d : Ldb) : Option (PDALineBreakpoint × Ldb) :=
  if target.supportsBreakpoint b then
    if (b.enabled && managerEnabled) || !b.isRegistered then b.install L d else some (b, d)
  else some (b, d)

def breakpointRemoved (b : PDALineBreakpoint) (d : Ldb) : Option (PDALineBreakpoint × Ldb) :=
  if target.supportsBreakpoint b then b.remove L d else some (b, d)

def breakpointChanged (b : PDALineBreakpoint) (d : Ldb) : Option (PDALineBreakpoint × Ldb) :=
  if target.supportsBreakpoint b then
    if b.enabled && managerEnabled then breakpointAdded target managerEnabled L b d
    else breakpointRemoved target L b d
  else some (b, d)

/-- The body of the loops over `getBreakpoints(getModelIdentifier())`. -/
def ifManaged (handler : PDALineBreakpoint → Ldb → Option (PDALineBreakpoint × Ldb))
    (b : PDALineBreakpoint) (d : Ldb) : Option (PDALineBreakpoint × Ldb) :=
  if b.isManaged then handler b d else some (b, d)

def forManaged (handler : PDALineBreakpoint → Ldb → Option (PDALineBreakpoint × Ldb)) :
    List PDALineBreakpoint → Ldb → Option (List PDALineBreakpoint × Ldb)
  | [], d => some ([], d)
  | b :: bs, d => do
    let (b, d) ← ifManaged handler b d
    let (bs, d) ← forManaged handler bs d
    return (b :: bs, d)

def installDeferredBreakpoints (bs : List PDALineBreakpoint) (d : Ldb) :
    Option (List PDALineBreakpoint × Ldb) :=
  forManaged (breakpointAdded target managerEnabled L) bs d

/-- `breakpointManagerEnablementChanged`, when the manager has the new state already. -/
def breakpointManagerEnablementChanged (enabled : Bool) (bs : List PDALineBreakpoint) (d : Ldb) :
    Option (List PDALineBreakpoint × Ldb) :=
  forManaged (if enabled then breakpointAdded target enabled L else breakpointRemoved target L)
    bs d

end PDADebugTarget

/-- What the IDE is notified of: a breakpoint was added, or one to run to is installed; a
breakpoint was removed; its enablement, its line or something else about it was changed; the
breakpoint manager was enabled or disabled. -/
inductive Notification where
  | added (b : PDALineBreakpoint)
  | removed (i : ℕ)
  | changed (i : ℕ) (enabled : Bool) (lineNumber : CInt)
  | managerEnablement (enabled : Bool)

/-- The breakpoints of the IDE, and ldb. -/
structure Debugging where
  target : PDADebugTarget
  managerEnabled : Bool
  breakpoints : List PDALineBreakpoint
  ldb : Ldb

/-- A notification is handled behind the change it is about. -/
def Debugging.notify (s : Debugging) (L : LuaState) : Notification → Option Debugging
  | .added b => do
    let (b, d) ← s.target.breakpointAdded s.managerEnabled L b s.ldb
    return { s with breakpoints := s.breakpoints ++ [b], ldb := d }
  | .removed i => do
    let b ← s.breakpoints[i]?
    let (_, d) ← s.target.breakpointRemoved L b s.ldb
    return { s with breakpoints := s.breakpoints.eraseIdx i, ldb := d }
  | .changed i enabled lineNumber => do
    let b ← s.breakpoints[i]?
    let (b, d) ← s.target.breakpointChanged s.managerEnabled L
      (b.withAttributes enabled lineNumber) s.ldb
    return { s with breakpoints := s.breakpoints.set i b, ldb := d }
  | .managerEnablement enabled => do
    let (bs, d) ← s.target.breakpointManagerEnablementChanged L enabled s.breakpoints s.ldb
    return { s with managerEnabled := enabled, breakpoints := bs, ldb := d }

/-- The target connected to a fresh ldb, its deferred breakpoints installed. -/
def Debugging.started (target : PDADebugTarget) (managerEnabled : Bool) (lines : ScriptLines)
    (L : LuaState) (bs : List PDALineBreakpoint) : Option Debugging := do
  let (bs, d) ← target.installDeferredBreakpoints managerEnabled L bs (.initial lines)
  return { target := target, managerEnabled := managerEnabled, breakpoints := bs, ldb := d }

end LuaIde
