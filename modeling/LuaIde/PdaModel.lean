import LuaIde.DecimalText
import LuaIde.LdbReplies

/-! The Java side of the replies: how `PDAThread`, `PDAStackFrame` and `PDAVariable` take
them apart. Array accesses are checked, as Java checks them. -/
namespace LuaIde

open DecimalText Delimited

inductive JavaError where
  | arrayIndexOutOfBounds
  | numberFormat
  | nullPointer
  | debugException
deriving DecidableEq

/-- What `sendRequest` comes back with: a line, `null` at the end of the stream, or a
`DebugException`. -/
inductive Reply where
  | line (s : Text)
  | eof
  | failed

/-- `a[i]`. -/
def arrayAt {α : Type} (a : List α) (i : ℕ) : Except JavaError α :=
  match a[i]? with
  | some x => .ok x
  | none => .error .arrayIndexOutOfBounds

/-- `Integer.parseInt`. -/
def parseIntOrThrow (s : Text) : Except JavaError CInt :=
  match parseInt s with
  | some i => .ok i
  | none => .error .numberFormat

/-- `PDAVariable`, over the type of the variables its array `pdavars` holds. The other
fields are those the source sets; `none` is `null`. -/
structure PDAVariable (ν : Type) where
  fName : Text
  table : Bool
  global : Bool
  globalVal : Option Text
  val : Option Text
  pdavars : Option (List ν)
deriving DecidableEq

/-- An element of a table, which has no elements of its own. -/
abbrev TableElement := PDAVariable Empty

abbrev Variable := PDAVariable TableElement

/-- The constructor of `PDAVariable`. -/
def PDAVariable.new {ν : Type} (name : Text) : PDAVariable ν where
  fName := name
  table := false
  global := false
  globalVal := none
  val := none
  pdavars := none

structure PDAValue where
  fValue : Option Text
  vars : List TableElement
deriving DecidableEq

/-- An element made from a text like `x[1]=abc`. -/
def tableElement (s : Text) : Except JavaError TableElement := do
  let nameVal := split '=' s
  let name ← arrayAt nameVal 0
  let val ← arrayAt nameVal 1
  return { PDAVariable.new name with val := some val, table := true }

namespace PDAVariable

/-- `PDAVariable.init`: the elements of a table in a `var` reply. -/
def init (data : Text) : Except JavaError PDAValue := do
  let vars ← (split '|' data).mapM tableElement
  return { fValue := some (txt "table"), vars := vars }

def varRequest (frame : ℕ) (name : Text) : Text :=
  txt "var " ++ (ofInt frame ++ (txt " " ++ name))

/-- `PDAVariable.getValue` in the frame with that identifier. -/
def getValue (v : Variable) (frame : ℕ) (sendRequest : Text → Reply) :
    Except JavaError PDAValue :=
  if v.global ∧ v.table then
    .ok { fValue := some (txt "global table"), vars := v.pdavars.getD [] }
  else if v.global then .ok { fValue := v.globalVal, vars := [] }
  else if v.table then .ok { fValue := v.val, vars := [] }
  else
    match sendRequest (varRequest frame v.fName) with
    | .line value => if '|' ∈ value then init value else .ok { fValue := some value, vars := [] }
    | .eof => .error .nullPointer
    | .failed => .error .debugException

end PDAVariable

/-- The counting pass of `PDAStackFrame.init`; `doCount` is off inside of a table. -/
def countGlobals : Bool → List Text → ℕ
  | _, [] => 0
  | doCount, s :: strings =>
    (if doCount then 1 else 0) +
      countGlobals (if s = startGlobalTable then false
        else if s = endGlobalTable then true else doCount) strings

/-- The `while (true)` loop over the elements of a table, with the strings behind it. -/
def tableElements : List Text → Except JavaError (List TableElement × List Text)
  | [] => .error .arrayIndexOutOfBounds
  | curLine :: strings =>
    if curLine = endGlobalTable then .ok ([], strings)
    else do
      let e ← tableElement curLine
      let (es, rest) ← tableElements strings
      return (e :: es, rest)

/-- A global that is no table. -/
def globalVarOf (name val : Text) : Variable :=
  { PDAVariable.new name with globalVal := some val, global := true }

/-- A global that is a table. -/
def tableVar (name : Text) (array : List TableElement) : Variable :=
  { (PDAVariable.new name : Variable) with table := true, global := true, pdavars := some array }

/-- One global from the strings that are left, with the strings behind it. The name of a
table is looked up in the second string behind its start marker. -/
def globalVar : List Text → Except JavaError (Variable × List Text)
  | [] => .error .arrayIndexOutOfBounds
  | curLine :: strings => do
    let nameVal := split '=' curLine
    let first ← arrayAt nameVal 0
    if curLine = startGlobalTable then
      let ahead ← arrayAt strings 1
      let name ← arrayAt (split '[' ahead) 0
      let (array, rest) ← tableElements strings
      return (tableVar name array, rest)
    else
      let val ← arrayAt nameVal 1
      return (globalVarOf first val, strings)

/-- The consuming loop, once for each counted global. -/
def globalVars : ℕ → List Text → Except JavaError (List Variable)
  | 0, _ => .ok []
  | n+1, strings => do
    let (v, rest) ← globalVar strings
    let vs ← globalVars n rest
    return v :: vs

/-- The two labels between locals and globals. -/
def labelVars : List Variable :=
  [globalVarOf [] [], globalVarOf (txt "GLOBAL") (txt "VARIABLES")]

/-- The second half of `PDAStackFrame.init`, with the data of the first one. A failed
request is caught, and the old data are taken for the globals. -/
def initGlobals (reply : Reply) (data : Text) : Except JavaError (List Variable) :=
  match reply with
  | .eof => .error .nullPointer
  | .failed => do return labelVars ++ (← decode data)
  | .line data => do return labelVars ++ (← decode data)
where
  decode (data : Text) : Except JavaError (List Variable) :=
    let strings := split '|' data
    globalVars (countGlobals true strings) strings

/-- `PDAStackFrame`, with the variables it registers for itself in its thread. -/
structure PDAStackFrame where
  fName : Text
  fPC : CInt
  fFileName : Option Text
  fId : ℕ
  vars : List Variable
deriving DecidableEq

/-- `PDAStackFrame.init`. `lastSegment` is that of Eclipse's `Path`, `globals` what its
second half makes of the reply to `getglobals`. -/
def PDAStackFrame.init (lastSegment : Text → Option Text)
    (globals : Text → Except JavaError (List Variable)) (id : ℕ) (data : Text) :
    Except JavaError PDAStackFrame := do
  let strings := split '|' data
  let fileName ← arrayAt strings 0
  let pc ← arrayAt strings 1
  let fPC ← parseIntOrThrow pc
  let fName ← arrayAt strings 2
  let locals := (strings.drop 3).map PDAVariable.new
  let globalVars ← globals data
  match lastSegment fileName with
  -- `setVariables` puts the frame into a hash table, which asks for its `hashCode`
  | none => .error .nullPointer
  | some segment =>
    return { fName := fName, fPC := fPC, fFileName := some segment, fId := id,
             vars := locals ++ globalVars }

/-- The frames of `getStackFrames`, in the order in which the loop makes them. -/
def frameLoop (lastSegment : Text → Option Text)
    (globals : ℕ → Text → Except JavaError (List Variable)) :
    List Text → Except JavaError (List PDAStackFrame)
  | [] => .ok []
  | data :: frames => do
    let frame ← PDAStackFrame.init lastSegment (globals frames.length) frames.length data
    let rest ← frameLoop lastSegment globals frames
    return frame :: rest

/-- `PDAThread.getStackFrames` of a suspended thread: the last frame made comes first.
`globals` says what each frame, known by its identifier, gets for its globals. -/
def getStackFrames (lastSegment : Text → Option Text)
    (globals : ℕ → Text → Except JavaError (List Variable)) (reply : Reply) :
    Except JavaError (List PDAStackFrame) :=
  match reply with
  | .line framesData => do return (← frameLoop lastSegment globals (split '#' framesData)).reverse
  | .eof => .ok []
  | .failed => .error .debugException

end LuaIde
