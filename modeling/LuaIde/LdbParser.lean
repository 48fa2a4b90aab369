import LuaIde.LdbReplies
import Mathlib.Logic.Function.Basic

/-! The command interpreter of ldb: receiving a command line, dispatching it, and the
reaction to it. `react` is one pass of the loop of `LuaDebugger::commandParser`,
`commandParser` the loop over what the peer sends. -/
namespace LuaIde

open LineText DecimalText Delimited

inductive DebuggerType where
  | ide
  | ldb
deriving DecidableEq

def STEPPING : ℤ := 1

def CONTINUING : ℤ := 2

/-- The globals of ldb. `lineEnded` belongs to the running call of `commandParser`: its
`line[159]` is zero. -/
structure Ldb where
  debuggerStates : ℤ
  allScriptsBreakpoints : Text → List CInt
  allScriptsLines : ScriptLines
  lineEnded : Bool

/-- ldb behind the loading of a script. -/
def Ldb.initial (allScriptsLines : ScriptLines) : Ldb where
  debuggerStates := STEPPING
  allScriptsBreakpoints := fun _ => []
  allScriptsLines := allScriptsLines
  lineEnded := false

namespace Ldb

def getBreakPointList (d : Ldb) (scriptName : Text) : List CInt :=
  d.allScriptsBreakpoints scriptName

def setBreakPointList (d : Ldb) (scriptName : Text) (lineNumber : CInt) : Ldb :=
  { d with
    allScriptsBreakpoints := Function.update d.allScriptsBreakpoints scriptName
      (d.allScriptsBreakpoints scriptName ++ [lineNumber]) }

/-- The loop of the clear command: the first element of that value goes. -/
def clearBreakPoint (d : Ldb) (scriptName : Text) (lineNumber : CInt) : Ldb :=
  { d with
    allScriptsBreakpoints := Function.update d.allScriptsBreakpoints scriptName
      ((d.getBreakPointList scriptName).erase lineNumber) }

end Ldb

/-- The branches of the dispatch. -/
inductive Command where
  | getGlobals
  | dataForIde
  | varForIde
  | stackForIde
  | suspend
  | list
  | setbreak
  | clrbreak
  | display
  | assign
  | step
  | resume
  | print
  | quit
  | help
  | notFound
deriving DecidableEq

/-- The chain of `strstr(pCmd, …) == pCmd` tests, in its order. -/
def dispatchTable : List (Text × Command) :=
  [(txt "getglobals", .getGlobals), (txt "data", .dataForIde), (txt "var", .varForIde),
   (txt "sta", .stackForIde), (txt "su", .suspend), (txt "l", .list), (txt "b", .setbreak),
   (txt "cl", .clrbreak), (txt "d", .display), (txt "a", .assign), (txt "ste", .step),
   (txt "co", .resume), (txt "resume", .resume), (txt "p", .print), (txt "q", .quit),
   (txt "help", .help)]

def dispatch (pCmd : Text) : Command :=
  match dispatchTable.find? (fun e => e.1.isPrefixOf pCmd) with
  | some e => e.2
  | none => .notFound

/-- What is copied to the array `line`, which has 160 characters. -/
def lineBuffer (data : Text) : Text := (cstr data).take 159

/-- `line[159]`, which `strncpy` leaves as it was, is set to zero for longer texts. -/
def Ldb.takeLine (dbg : DebuggerType) (d : Ldb) (data : Text) : Ldb :=
  { d with lineEnded := d.lineEnded || decide (dbg = .ide ∧ 160 < data.length) }

/-- A command that goes on at `line[159]` while nothing has been stored there. On the console
`getline` ends the line. -/
def unterminated (dbg : DebuggerType) (d : Ldb) (data : Text) : Prop :=
  dbg = .ide ∧ (lineBuffer data).length = 159 ∧ (d.takeLine dbg data).lineEnded = false ∧
    '\n' ∉ lineBuffer data

instance (dbg : DebuggerType) (d : Ldb) (data : Text) : Decidable (unterminated dbg d data) :=
  inferInstanceAs (Decidable (_ ∧ _ ∧ _ ∧ _))

theorem unterminated_ide (d : Ldb) (data : Text) :
    unterminated .ide d data ↔ (lineBuffer data).length = 159 ∧
      (d.lineEnded = false ∧ data.length ≤ 160) ∧ '\n' ∉ lineBuffer data := by
  simp [unterminated, Ldb.takeLine]

/-- The line up to a newline and a carriage return. -/
def commandLine (line : Text) : Text :=
  (line.takeWhile (fun c => decide (c ≠ '\n'))).takeWhile (fun c => decide (c ≠ '\r'))

/-- What handling one command line does: the globals of ldb behind it, the bytes
written to the command and event sockets, whether `keepGoing` was cleared, and the error that is
reported, in the reply or on the console. -/
structure Reaction where
  state : Ldb
  reply : Text
  events : Text
  leave : Bool
  report : Option Text

def Reaction.silent (d : Ldb) : Reaction := ⟨d, [], [], false, none⟩

/-- An error that goes to the console in both modes. -/
def Reaction.complaint (d : Ldb) (report : Text) : Reaction := ⟨d, [], [], false, some report⟩

/-- A line for the IDE. The console gets its own text instead. -/
def toIde (dbg : DebuggerType) (line : Text) : Text :=
  match dbg with
  | .ide => line ++ ['\n']
  | .ldb => []

def Reaction.answer (dbg : DebuggerType) (d : Ldb) (line : Text) : Reaction :=
  ⟨d, toIde dbg line, [], false, none⟩

/-- An error that is the answer. -/
def Reaction.refusal (dbg : DebuggerType) (d : Ldb) (line : Text) : Reaction :=
  ⟨d, toIde dbg line, [], false, some line⟩

/-- `strcat` in `drawStackTrace`, for one level. -/
def drawLevel (level : Level) : Except Fault Unit := do
  let ar := level.getinfo
  let cap := Buffers.declared.szDesc
  let szDesc ← strcat cap [] (ar.name.getD [])
  let szDesc ← strcat cap szDesc (txt ",")
  let szDesc ← strcat cap szDesc (ar.namewhat.getD [])
  let szDesc ← strcat cap szDesc (txt ",")
  let szDesc ← strcat cap szDesc (ar.what.getD [])
  let szDesc ← strcat cap szDesc (txt ",")
  let _ ← strcat cap szDesc ar.source
  return ()

/-- `LuaDebugger::drawStackTrace`, as far as it can fail. -/
def drawStackTrace (L : LuaState) : Except Fault Unit := L.levels.forM drawLevel

/-- What the display command reads of a global: `printf` and `strcmp` get its name. -/
def readName (skips : LuaValue → Bool) (_ : Unit) (k v : LuaValue) : Except Fault Unit :=
  if skips v then .ok () else notNull (tostring k) >>= fun _ => .ok ()

/-- The loop of the display command over the globals, as far as it can fail. -/
def listGlobals (L : LuaState) (skips : LuaValue → Bool) : Except Fault Unit :=
  let tbl := L.heap L.globals
  traverse tbl (L.cleared L.globals) (fun v => !skips v) (readName skips) (tbl.length + 1) 0 ()

/-- The globals the display command leaves out: `listGlobalVariables` the functions,
`listGlobalVariable` none. -/
def displaySkips (args : List Text) : LuaValue → Bool :=
  if args = [] then LuaValue.isFunction else fun _ => false

/-- The print command. Its texts go to the console. -/
def printCommand (L : LuaState) (which : Option Text) : Except Fault Unit := do
  let which ← token which
  if which = txt "trace" then drawStackTrace L else return ()

/-- What the print command says of a word it does not know. -/
def unknownPrint (which : Text) : Option Text :=
  if which = txt "stack" ∨ which = txt "trace" ∨ which = txt "breakpoints" then none
  else some (txt "Syntax error for print command. Don't know how to print " ++ which)

def noLineNumber : Text := txt "Syntax error, invalid or no line number"

/-- One command, given its first word and the words behind it. -/
def execute (dbg : DebuggerType) (L : LuaState) (d : Ldb) (pCmd : Text) (args : List Text) :
    Except Fault Reaction :=
  match dispatch pCmd with
  | .getGlobals => do return .answer dbg d (← getGlobals .declared L)
  | .dataForIde => do return .answer dbg d (← stackDumpForIde .declared L)
  | .varForIde => do
    let frameNumber := atoi (← token args[0]?)
    let val ← getLocalVarValue .declared L frameNumber.val args[1]?
    return if val = txt "notFound" then .refusal dbg d val else .answer dbg d val
  | .stackForIde => do return .answer dbg d (← ideStackTrace .declared L)
  | .suspend => .ok ⟨d, toIde dbg (txt "ok"), toIde dbg (txt "suspended client"), false, none⟩
  | .list => do
    Inspect.listCommand (d.allScriptsLines L.source) args
    return if Inspect.commandError args then .complaint d (txt "invalid command") else .silent d
  | .setbreak => do
    let lineNumber := atoi (← token args[0]?)
    if lineNumber.val = 0 then .ok (.complaint d noLineNumber)
    else .ok (.answer dbg (d.setBreakPointList L.source lineNumber)
      (txt "setting breakpoint at " ++ L.source ++ txt " line " ++ ofInt lineNumber.val))
  | .clrbreak => do
    let lineNumber := atoi (← token args[0]?)
    if lineNumber.val = 0 then .ok (.complaint d noLineNumber)
    else if lineNumber ∈ d.getBreakPointList L.source then
      .ok (.answer dbg (d.clearBreakPoint L.source lineNumber) (txt "ok clear"))
    else .ok (.silent d)
  | .display => do
    listGlobals L (displaySkips args)
    return .silent d
  | .assign => .ok (.complaint d (txt "assign command not implemented"))
  | .step =>
    -- the stream keeps its first line, so that the second write sends it again
    let resumed := toIde dbg (txt "resumed step")
    .ok ⟨{ d with debuggerStates := STEPPING }, toIde dbg (txt "ok"),
      resumed ++ (resumed ++ toIde dbg (txt "suspended step")), true, none⟩
  | .resume => .ok ⟨{ d with debuggerStates := CONTINUING }, toIde dbg (txt "ok resume"),
      toIde dbg (txt "resumed client"), true, none⟩
  | .print => do
    printCommand L args[0]?
    return { Reaction.silent d with report := args[0]?.bind unknownPrint }
  | .quit => .ok ⟨{ d with debuggerStates := CONTINUING }, [], [], true, none⟩
  | .help => .ok (.silent d)
  | .notFound => .ok (.refusal dbg d (txt "ERROR, command not found: " ++ pCmd))

/-- Without a character the line is left. In the branch of the socket that is tested behind the
reading already, and reported. -/
def emptyLine (dbg : DebuggerType) (d : Ldb) : Reaction :=
  match dbg with
  | .ide => .complaint d (txt "No command given")
  | .ldb => .silent d

/-- The part of the loop behind the reading of `data`. -/
def handle (dbg : DebuggerType) (L : LuaState) (d : Ldb) (data : Text) : Except Fault Reaction :=
  let line := lineBuffer data
  if line = [] then .ok (emptyLine dbg (d.takeLine dbg data))
  else if unterminated dbg d data then .error .uninitialised
  else
    match words ' ' (commandLine line) with
    | [] => .error .missingToken
    | pCmd :: args => execute dbg L (d.takeLine dbg data) pCmd args

/-- One result of `newSocket >> data`, or one line of the console. -/
inductive Recv where
  | data (piece : Text)
  | closed

/-- What a received piece makes of the command read so far. -/
inductive Intake where
  | more (pending : Option (Text × ℕ))
  | command (data : Text) (gaveUp : Bool)

/-- The inner receive loop. `pending` is the text without a newline so far and the value
of `count`. The sixth further piece clears `keepGoing`, whatever it brings. -/
def intake (pending : Option (Text × ℕ)) (piece : Text) : Intake :=
  match pending with
  | none =>
    if piece = [] then .more none
    else if '\n' ∈ piece then .command piece false
    else .more (some (piece, 0))
  | some (tmpstr, count) =>
    let data := tmpstr ++ piece
    if 5 ≤ count then .command data true
    else if '\n' ∈ data then .command data false
    else .more (some (data, count+1))

/-- Where ldb stands: the Lua program runs, the parser waits for input, or the process
has come to an undefined operation or an endless loop. -/
inductive Status where
  | running
  | waiting (L : LuaState) (pending : Option (Text × ℕ))
  | over (why : Fault)

def Status.isWaiting : Status → Bool
  | .waiting _ _ => true
  | _ => false

/-- What a fault leads to: an error raised by Lua leaves the hook for the innermost `lua_pcall`,
one of the script or that of `main`, which goes on with the Lua program. -/
def Status.afterFault : Fault → Status
  | .luaError => .running
  | why => .over why

theorem Status.afterFault_ne_waiting (why : Fault) (L : LuaState)
    (pending : Option (Text × ℕ)) : afterFault why ≠ .waiting L pending := by
  cases why <;> exact fun h => nomatch h

/-- What happened, for statements about runs. -/
inductive Happening where
  | entered (breakPoint : Option CInt)
  | handled (source : Text) (data : Text)

/-- The globals of ldb, everything it wrote, and the history. -/
structure Session where
  state : Ldb
  replies : Text
  events : Text
  history : List Happening

/-- ldb with what it is still to receive. `cinFail` is set when a console line did not
fit into `line`. -/
structure World extends Session where
  status : Status
  inputs : List Recv
  cinFail : Bool

/-- A command was handled, with this reaction. -/
def Session.perform (s : Session) (source data : Text) (r : Reaction) : Session where
  state := r.state
  replies := s.replies ++ r.reply
  events := s.events ++ r.events
  history := s.history ++ [.handled source data]

/-- The loop body of `commandParser` behind the reading of a command. -/
def react (dbg : DebuggerType) (L : LuaState) (w : World) (data : Text) (gaveUp : Bool) : World :=
  match handle dbg L w.state data with
  | .error why => { w with status := .afterFault why }
  | .ok r =>
    { w with
      toSession := w.toSession.perform L.source data r
      status := if r.leave ∨ gaveUp then .running else .waiting L none }

/-- One result of the read at the top of the loop. -/
def receive (dbg : DebuggerType) (L : LuaState) (pending : Option (Text × ℕ)) (r : Recv)
    (w : World) : World :=
  match dbg, r with
  | .ide, .closed => { w with status := .running }
  | .ide, .data piece =>
    match intake pending (cstr piece) with
    | .more pending => { w with status := .waiting L pending }
    | .command data gaveUp => react dbg L w data gaveUp
  | .ldb, .closed => { w with status := .over .endless }
  | .ldb, .data line =>
    if w.cinFail then { w with status := .over .endless }
    else react dbg L { w with cinFail := decide (159 < line.length) } line false

/-- The `while (keepGoing)` loop. When the input runs out the parser stays in it. -/
def parserLoop (dbg : DebuggerType) : List Recv → World → World
  | [], w => w
  | r :: rest, w =>
    match w.status with
    | .waiting L pending => parserLoop dbg rest (receive dbg L pending r w)
    | _ => { w with inputs := r :: rest }

/-- The two events at the entry. Both writes send the whole stream. -/
def entryEvents (dbg : DebuggerType) : Text :=
  toIde dbg (txt "resumed client") ++
    (toIde dbg (txt "resumed client") ++ toIde dbg (txt "suspended step"))

/-- `LuaDebugger::commandParser`, called because of a breakpoint or in stepping mode. -/
def commandParser (dbg : DebuggerType) (L : LuaState) (breakPoint : Option CInt) (w : World) :
    World :=
  parserLoop dbg w.inputs
    { w with
      state := { w.state with lineEnded := false }
      inputs := []
      events := w.events ++ entryEvents dbg
      status := .waiting L none
      history := w.history ++ [.entered breakPoint] }

/-- What `react` can do: come to a fault and leave the session as it is, or perform the command. -/
theorem react_cases (dbg : DebuggerType) (L : LuaState) (w : World) (data : Text) (gaveUp : Bool) :
    (∃ why, handle dbg L w.state data = .error why ∧
      react dbg L w data gaveUp = { w with status := .afterFault why }) ∨
      ∃ r, handle dbg L w.state data = .ok r ∧
        react dbg L w data gaveUp =
          { w with
            toSession := w.toSession.perform L.source data r
            status := if r.leave ∨ gaveUp then .running else .waiting L none } := by
  unfold react
  rcases handle dbg L w.state data with why | r
  · exact .inl ⟨why, rfl, rfl⟩
  · exact .inr ⟨r, rfl, rfl⟩

/-- What a received piece does to the session: nothing, or one command. -/
theorem receive_session (dbg : DebuggerType) (L : LuaState) (pending : Option (Text × ℕ))
    (r : Recv) (w : World) :
    (receive dbg L pending r w).toSession = w.toSession ∨
      ∃ data rx, handle dbg L w.state data = .ok rx ∧
        (receive dbg L pending r w).toSession = w.toSession.perform L.source data rx := by
  have hreact (w' : World) (hw : w'.toSession = w.toSession) (data : Text) (gaveUp : Bool) :
      (react dbg L w' data gaveUp).toSession = w.toSession ∨
        ∃ d rx, handle dbg L w.state d = .ok rx ∧
          (react dbg L w' data gaveUp).toSession = w.toSession.perform L.source d rx := by
    rcases react_cases dbg L w' data gaveUp with ⟨why, -, he⟩ | ⟨rx, hrx, he⟩
    · rw [he]
      exact .inl hw
    · rw [he, ← hw]
      exact .inr ⟨data, rx, hrx, rfl⟩
  cases dbg with
  | ide =>
    cases r with
    | closed => exact .inl rfl
    | data piece =>
      rcases hi : intake pending (cstr piece) with next | ⟨data, gaveUp⟩
      · simp only [receive, hi]
        exact .inl trivial
      · simp only [receive, hi]
        exact hreact w rfl data gaveUp
  | ldb =>
    cases r with
    | closed => exact .inl rfl
    | data line =>
      by_cases hc : w.cinFail
      · simp only [receive, hc, if_true]
        exact .inl trivial
      · simp only [receive, hc, Bool.false_eq_true, if_false]
        exact hreact { w with cinFail := decide (159 < line.length) } rfl line false

theorem receive_inputs (L : LuaState) (pending : Option (Text × ℕ)) (r : Recv) (w : World) :
    (receive .ide L pending r w).inputs = w.inputs := by
  cases r with
  | closed => rfl
  | data piece =>
    rcases hi : intake pending (cstr piece) with next | ⟨data, gaveUp⟩
    · simp only [receive, hi]
    · simp only [receive, hi]
      rcases react_cases .ide L w data gaveUp with ⟨why, -, he⟩ | ⟨r, -, he⟩
      · rw [he]
      · rw [he]

/-- What every command preserves, a received piece preserves. -/
theorem receive_invariant (dbg : DebuggerType) (P : Session → Prop)
    (hperform : ∀ s L data r, P s → handle dbg L s.state data = .ok r →
      P (s.perform L.source data r))
    (L : LuaState) (pending : Option (Text × ℕ)) (r : Recv) (w : World) (hw : P w.toSession) :
    P (receive dbg L pending r w).toSession := by
  rcases receive_session dbg L pending r w with he | ⟨data, rx, hrx, he⟩
  · rw [he]
    exact hw
  · rw [he]
    exact hperform _ L data rx hw hrx

/-- What every command preserves, the loop preserves. -/
theorem parserLoop_invariant (dbg : DebuggerType) (P : Session → Prop)
    (hperform : ∀ s L data r, P s → handle dbg L s.state data = .ok r →
      P (s.perform L.source data r))
    (inputs : List Recv) (w : World) (hw : P w.toSession) :
    P (parserLoop dbg inputs w).toSession := by
  induction inputs generalizing w with
  | nil => exact hw
  | cons r rest ih =>
    rcases hs : w.status with _ | ⟨L, pending⟩ | why
    · simp only [parserLoop, hs]
      exact hw
    · simp only [parserLoop, hs]
      exact ih _ (receive_invariant dbg P hperform L pending r w hw)
    · simp only [parserLoop, hs]
      exact hw

end LuaIde
