import LuaIde.LuaState

/-! The reply builders of ldb: `getGlobals`, `getLocalVarValue`, `ideStackTrace` and
`stackDumpForIde`. Every `strcat` and `sprintf` is checked against the capacity of the
array it writes to; the capacities are a parameter, so that the same code can be read
with the declared arrays and with unbounded ones. Behind them is what ldb looks up in the
lines it keeps of the scripts. -/
namespace LuaIde

open LineText DecimalText

/-- Why a piece of ldb does not come to its end: a write outside an array, a read of what
was never written, a null pointer handed to a C string function (one that `strtok` returned, or
another), an error raised by Lua, a loop that runs on. -/
inductive Fault where
  | overflow
  | uninitialised
  | missingToken
  | nullPointer
  | luaError
  | endless
deriving DecidableEq

/-- Array sizes, `none` for an array taken as unbounded. -/
structure Buffers where
  number : Option ℕ
  str : Option ℕ
  value : Option ℕ
  printed : Option ℕ
  buf : Option ℕ
  tmpbuf : Option ℕ
  val : Option ℕ
  data : Option ℕ
  szDesc : Option ℕ

/-- The arrays as declared. -/
def Buffers.declared : Buffers where
  number := some 4
  str := some 2048
  value := some 64
  printed := some 80
  buf := some 80
  tmpbuf := some 200
  val := some 8096
  data := some 1024
  szDesc := some 256

def Buffers.unbounded : Buffers := ⟨none, none, none, none, none, none, none, none, none⟩

/-- A string of length `n` and its terminating zero lie inside the array. -/
def fits (cap : Option ℕ) (n : ℕ) : Bool :=
  match cap with
  | none => true
  | some c => decide (n < c)

def strcat (cap : Option ℕ) (dst src : Text) : Except Fault Text :=
  if fits cap (dst.length + src.length) then .ok (dst ++ src) else .error .overflow

def sprintf (cap : Option ℕ) (s : Text) : Except Fault Text := strcat cap [] s

def notNull (p : Option Text) : Except Fault Text :=
  match p with
  | none => .error .nullPointer
  | some s => .ok s

/-- The same for what `strtok` returned. -/
def token (p : Option Text) : Except Fault Text :=
  match p with
  | none => .error .missingToken
  | some s => .ok s

theorem notNull_eq_ok {p : Option Text} {t : Text} : notNull p = .ok t ↔ p = some t := by
  cases p with
  | none => simp [notNull]
  | some s => simp [notNull]

theorem token_eq_ok {p : Option Text} {t : Text} : token p = .ok t ↔ p = some t := by
  cases p with
  | none => simp [token]
  | some s => simp [token]

/-- `lua_tostring` on a traversal key. -/
def tostring : LuaValue → Option Text
  | .string s => some (cstr s)
  | .number n => some n.text
  | _ => none

/-- The search of `findindex` for a string, as the position a traversal goes on from. The node
of a cleared entry is found too. -/
def findString (tbl : Table) (cleared : Cleared tbl) (s : Text) : Except Fault ℕ :=
  match tbl.findIdx? (fun e => decide (e.1 = .string s)) with
  | some j => .ok (j+1)
  | none =>
    match cleared s with
    | some j => .ok j
    | none => .error .luaError

/-- The position `lua_next` goes on from after the key at position `i`. A number that was
`read` with `lua_tostring` is converted in place, and the string is looked up. -/
def nextPosition (tbl : Table) (cleared : Cleared tbl) (read : Bool) (key : LuaValue) (i : ℕ) :
    Except Fault ℕ :=
  match read, key with
  | true, .number n => findString tbl cleared n.text
  | _, _ => .ok (i+1)

/-- A `while (lua_next(L, -2))` loop. `touched` says whether the body calls
`lua_tostring` on the key. A loop with more passes than entries never ends. -/
def traverse {σ : Type} (tbl : Table) (cleared : Cleared tbl) (touched : LuaValue → Bool)
    (body : σ → LuaValue → LuaValue → Except Fault σ) : ℕ → ℕ → σ → Except Fault σ
  | 0, _, _ => .error .endless
  | fuel+1, i, s =>
    match tbl[i]? with
    | none => .ok s
    | some (key, value) => do
      let s ← body s key value
      let j ← nextPosition tbl cleared (touched value) key i
      traverse tbl cleared touched body fuel j s

/-- `LuaDebugger::printIt` into an array of the caller. -/
def printIt (b : Buffers) (v : LuaValue) : Except Fault Text := sprintf b.printed v.printIt

/-- The body of the two loops over a table value: `name[key]=value|` at the end of `dst`. -/
def appendElement (b : Buffers) (cap : Option ℕ) (dst name : Text) (key value : LuaValue) :
    Except Fault Text := do
  let dst ← strcat cap dst (← sprintf b.buf (name ++ txt "["))
  let dst ← strcat cap dst (← sprintf b.buf (← printIt b key))
  let dst ← strcat cap dst (← sprintf b.buf (txt "]="))
  let dst ← strcat cap dst (← sprintf b.buf (← printIt b value))
  strcat cap dst (txt "|")

def startGlobalTable : Text := txt "startglobaltable=startglobaltable"

def endGlobalTable : Text := txt "endglobaltable=endglobaltable"

/-- One element of a global table; lines with a line end in them are left out. -/
def globalElement (b : Buffers) (name : Text) (val : Text) (e : LuaValue × LuaValue) :
    Except Fault Text := do
  let tmpbuf ← appendElement b b.tmpbuf [] name e.1 e.2
  if '\n' ∈ tmpbuf ∨ '\r' ∈ tmpbuf then .ok val else strcat b.val val tmpbuf

/-- `name=value|` at the end of `val`. -/
def appendPair (b : Buffers) (val : Text) (name : Option Text) (text : Text) :
    Except Fault Text := do
  let value ← sprintf b.value text
  let val ← strcat b.val val (← notNull name)
  let val ← strcat b.val val (txt "=")
  let val ← strcat b.val val value
  strcat b.val val (txt "|")

/-- The body of the loop of `getGlobals`. -/
def globalEntry (b : Buffers) (L : LuaState) (val : Text) (key value : LuaValue) :
    Except Fault Text :=
  let name := tostring key
  match value with
  | .function => .ok val
  | .number n => appendPair b val name n.text
  | .string s => appendPair b val name ((cstr s).take 63)
  | .boolean _ =>
    -- `lua_toboolean(L, i)` with i = 1 reads the first stack slot
    let slot := L.slot [.table L.globals, key, value] 1
    appendPair b val name (if slot.toboolean then txt "true" else txt "false")
  | .table ref => do
    let val ← strcat b.val val (startGlobalTable ++ txt "|")
    let val ← (L.heap ref).foldlM (fun val e => do globalElement b (← notNull name) val e) val
    strcat b.val val (endGlobalTable ++ txt "|")
  | v => do
    let value ← sprintf b.value (txt "type " ++ v.typename ++ txt " = not yet displayable")
    -- `val[0] = '\0'` drops what earlier globals wrote
    strcat b.val [] value

/-- `LuaDebugger::getGlobals`. The name is read for every global but functions. -/
def getGlobals (b : Buffers) (L : LuaState) : Except Fault Text :=
  let tbl := L.heap L.globals
  traverse tbl (L.cleared L.globals) (fun v => !v.isFunction) (globalEntry b L) (tbl.length + 1) 0
    []

/-- `lua_number2str(value, lua_tonumber(L, -1))`: always the value on top of the stack. -/
def topNumber (L : LuaState) : Text :=
  match L.stack.getLast? with
  | some (.number n) => n.text
  | some (.string s) => ((L.str2d s).map LuaNumber.text).getD (txt "0")
  | _ => txt "0"

/-- The text `stackDumpForIde` appends for one stack slot. -/
def dataText (L : LuaState) : LuaValue → Text
  | .string s => cstr s
  | .boolean b => if b then txt "true" else txt "false"
  | .number _ => topNumber L
  | v => v.typename

/-- `LuaDebugger::stackDumpForIde`. -/
def stackDumpForIde (b : Buffers) (L : LuaState) : Except Fault Text :=
  L.stack.foldlM (fun results v => do
    let results ← strcat b.data results (dataText L v)
    strcat b.data results (txt "|")) []

/-- The function name of a level in the stack text. -/
def functionName (ar : DebugInfo) : Text :=
  match ar.name with
  | some name => name
  | none =>
    match ar.namewhat with
    | some namewhat => if namewhat.length = 0 then txt "main" else namewhat
    | none =>
      match ar.what with
      | some what => what
      | none => ar.source

def appendLocal (b : Buffers) (str : Text) (local' : Text × LuaValue) : Except Fault Text :=
  if local'.1 ≠ temporaryName then do
    let str ← strcat b.str str local'.1
    strcat b.str str (txt "|")
  else .ok str

/-- The body of the loop of `ideStackTrace`. -/
def appendLevel (b : Buffers) (L : LuaState) (str : Text) (level : Level) : Except Fault Text := do
  let ar := level.getinfo
  let str ← strcat b.str str ar.source
  let str ← strcat b.str str (txt "|")
  let number ← sprintf b.number (ofInt ar.currentline.val)
  let str ← strcat b.str str number
  let str ← strcat b.str str (txt "|")
  let str ← strcat b.str str (functionName ar)
  let str ← strcat b.str str (txt "|")
  let str ← (L.getlocals level).foldlM (appendLocal b) str
  strcat b.str str (txt "#")

/-- `LuaDebugger::ideStackTrace`: from the caller of all down to level 0. -/
def ideStackTrace (b : Buffers) (L : LuaState) : Except Fault Text :=
  L.levels.reverse.foldlM (appendLevel b L) []

/-- The search loop of `getLocalVarValue`: the first local of that name, with the
number `lua_getlocal` knows it by. -/
def findLocal (var : Option Text) : ℕ → List (Text × LuaValue) →
    Except Fault (Option (ℕ × Text × LuaValue))
  | _, [] => .ok none
  | i, (name, value) :: rest => do
    let v ← token var
    if v = name then .ok (some (i, name, value)) else findLocal var (i+1) rest

/-- The text for the local number `i`, which is on top of the stack. -/
def localValue (b : Buffers) (L : LuaState) (i : ℕ) (name : Text) (v : LuaValue) :
    Except Fault Text :=
  match v with
  | .number n => do strcat b.val [] (← sprintf b.value n.text)
  | .string s => do strcat b.val [] (← sprintf b.value ((cstr s).take 63))
  | .boolean _ => do
    -- `lua_toboolean(L, i)` after `i++`: the slot behind the one of the local
    let slot := L.slot [v] (i+1)
    strcat b.val [] (← sprintf b.value (if slot.toboolean then txt "true" else txt "false"))
  | .table ref =>
    (L.heap ref).foldlM (fun val e => appendElement b b.val val name e.1 e.2) []
  | v => do
    let text := txt "type " ++ v.typename ++ txt " not yet displayable"
    strcat b.val [] (← sprintf b.value text)

/-- `LuaDebugger::getLocalVarValue`. -/
def getLocalVarValue (b : Buffers) (L : LuaState) (nLevel : ℤ) (var : Option Text) :
    Except Fault Text := do
  let val ← strcat b.val [] (txt "notFound")
  match L.getstack nLevel with
  | none => .ok val
  | some level =>
    match ← findLocal var 1 (L.getlocals level) with
    | none => .ok val
    | some (i, name, value) => localValue b L i name value

/-- `allScriptsLines`. -/
abbrev ScriptLines := Text → List Text

namespace Inspect

/-- `LuaDebugger::getFileLine`, on the lines of the script. -/
def getFileLine (list : List Text) (index : ℤ) : Except Fault Text :=
  if list.length = 0 then .ok (txt "lines not available")
  else if 1 ≤ index then
    match list[(index - 1).toNat]? with
    | some line => .ok line
    | none => .error .uninitialised
  else .error .uninitialised

/-- An index into a list that is not empty has to be that of a line. -/
theorem getFileLine_cases (list : List Text) (index : ℤ) :
    if list = [] ∨ (1 ≤ index ∧ index ≤ list.length) then ∃ line, getFileLine list index = .ok line
    else getFileLine list index = .error .uninitialised := by
  rw [getFileLine]
  by_cases hempty : list = []
  · simp [hempty]
  · have hpos := List.length_pos_of_ne_nil hempty
    have hlen : list.length ≠ 0 := Nat.ne_of_gt hpos
    simp only [hempty, hlen, false_or, if_false]
    by_cases hfirst : 1 ≤ index
    · rw [if_pos hfirst]
      cases hline : list[(index - 1).toNat]? with
      | none =>
        have hend := List.getElem?_eq_none_iff.mp hline
        rw [if_neg (by omega)]
      | some line =>
        have hlt := (List.getElem?_eq_some_iff.mp hline).1
        rw [if_pos (by omega)]
        exact ⟨line, rfl⟩
    · rw [if_neg hfirst, if_neg (fun h => hfirst h.1)]

theorem getFileLine_isOk (list : List Text) (index : ℤ) :
    (∃ line, getFileLine list index = .ok line) ↔
      list = [] ∨ (1 ≤ index ∧ index ≤ list.length) := by
  have h := getFileLine_cases list index
  split_ifs at h with hin
  · exact iff_of_true h hin
  · rw [h]
    exact iff_of_false (fun ⟨_, hl⟩ => nomatch hl) hin

/-- The loop of the list command. -/
def listLines (list : List Text) (firstLine lastLine : ℤ) : Except Fault Unit :=
  (List.range (lastLine + 1 - firstLine).toNat).foldlM (fun _ (i : ℕ) => do
    let _ ← getFileLine list (firstLine + i)
    return ()) ()

/-- `commandError` of the list command: a first or a last line that `atoi` reads as 0. -/
def commandError (args : List Text) : Prop :=
  ∃ pLine ∈ args.take 2, (atoi pLine).val = 0

instance (args : List Text) : Decidable (commandError args) :=
  inferInstanceAs (Decidable (∃ pLine ∈ args.take 2, (atoi pLine).val = 0))

/-- The list command, over the lines of the stopped script. -/
def listCommand (list : List Text) (args : List Text) : Except Fault Unit :=
  let firstLine := ((args[0]?.map atoi).map CInt.val).getD 1
  let numScriptLines : ℤ := list.length
  if firstLine = 0 then .ok ()
  else
    match args[1]? with
    | none =>
      listLines list firstLine
        (if firstLine + 5 < numScriptLines then firstLine + 5 else numScriptLines)
    | some pLine =>
      let lastLine := (atoi pLine).val
      if numScriptLines < lastLine then listLines list firstLine numScriptLines
      else if lastLine = 0 then .ok ()
      else listLines list firstLine lastLine

end Inspect

end LuaIde
