import LuaIde.DecimalText

/-! The stopped Lua state as ldb sees it through the Lua API: values, registers,
globals and the call stack with the names `lua_getinfo` and `lua_getlocal` give. -/
namespace LuaIde

open LineText DecimalText

/-- A Lua number, known to the debugger only through `lua_number2str` ("%.14g"). -/
structure LuaNumber where
  text : Text
  ne_nil : text ≠ []
  chars : ∀ c ∈ text, c.isAlphanum = true ∨ c ∈ ['+', '-', '.', '#']
  short : text.length < 64
deriving DecidableEq

inductive LuaValue where
  | nil
  | boolean (b : Bool)
  | lightuserdata
  | number (n : LuaNumber)
  | string (s : Text)
  | table (ref : ℕ)
  | function
  | userdata
  | thread
deriving DecidableEq

namespace LuaValue

/-- `lua_typename(L, lua_type(L, i))`. -/
def typename : LuaValue → Text
  | nil => txt "nil"
  | boolean _ => txt "boolean"
  | lightuserdata => txt "userdata"
  | number _ => txt "number"
  | string _ => txt "string"
  | table _ => txt "table"
  | function => txt "function"
  | userdata => txt "userdata"
  | thread => txt "thread"

def isFunction : LuaValue → Bool
  | function => true
  | _ => false

/-- `!l_isfalse`. -/
def toboolean : LuaValue → Bool
  | nil => false
  | boolean b => b
  | _ => true

/-- The text `printIt` copies out: numbers, the first 63 bytes of a C string, and
the type name of everything else. -/
def printIt : LuaValue → Text
  | number n => n.text
  | string s => (cstr s).take 63
  | v => v.typename.take 63

end LuaValue

/-- The `lua_Debug` fields ldb reads. `none` is a null pointer. -/
structure DebugInfo where
  source : Text
  currentline : CInt
  linedefined : CInt
  name : Option Text
  namewhat : Option Text
  what : Option Text

/-- An activation record of a Lua function. `called` is what `getfuncname` finds,
`active` are the active local variables in register order, `temporaries` the other
registers of the record. -/
structure LuaFrame where
  source : Text
  currentline : CInt
  linedefined : CInt
  called : Option (Text × Text)
  active : List (Text × LuaValue)
  temporaries : List LuaValue

/-- A level of the call stack. A lost tail call has no record of its own. -/
inductive Level where
  | lua (f : LuaFrame)
  | c (called : Option (Text × Text)) (temporaries : List LuaValue)
  | tail

abbrev Table := List (LuaValue × LuaValue)

/-- The string keys of entries that were set to nil and whose nodes are still in the table: how
many entries lie in front of the node. -/
abbrev Cleared (tbl : Table) := Text → Option (Fin (tbl.length + 1))

/-- What ldb can read while a line hook runs. The hooked function is a Lua function
and level 0 of the stack. A table is its entries in `lua_next` order, `base` are the
values below the first activation record, and `str2d` converts numeric strings. -/
structure LuaState where
  hooked : LuaFrame
  callers : List Level
  globals : ℕ
  heap : ℕ → Table
  cleared : (ref : ℕ) → Cleared (heap ref)
  base : List LuaValue
  str2d : Text → Option LuaNumber

def temporaryName : Text := txt "(*temporary)"

namespace Level

/-- `lua_getinfo(L, "lnuS", &ar)`. -/
def getinfo : Level → DebugInfo
  | lua f =>
    { source := f.source
      currentline := f.currentline
      linedefined := f.linedefined
      name := f.called.map Prod.fst
      namewhat := some ((f.called.map Prod.snd).getD [])
      what := some (if f.linedefined = 0 then txt "main" else txt "Lua") }
  | c called _ =>
    { source := txt "=[C]"
      currentline := saturate (-1)
      linedefined := saturate (-1)
      name := called.map Prod.fst
      namewhat := some ((called.map Prod.snd).getD [])
      what := some (txt "C") }
  | tail =>
    { source := txt "=(tail call)"
      currentline := saturate (-1)
      linedefined := saturate (-1)
      name := some []
      namewhat := some []
      what := some (txt "tail") }

end Level

namespace LuaFrame

/-- The variables `lua_getlocal` enumerates: active ones first, then temporaries. -/
def locals (f : LuaFrame) : List (Text × LuaValue) :=
  f.active ++ f.temporaries.map (fun v => (temporaryName, v))

end LuaFrame

namespace LuaState

def levels (L : LuaState) : List Level := Level.lua L.hooked :: L.callers

/-- `lua_getstack`: a negative level is taken for a lost tail call. -/
def getstack (L : LuaState) (n : ℤ) : Option Level :=
  if n < 0 then some Level.tail else L.levels[n.toNat]?

/-- What `lua_getlocal` enumerates at a level; at a lost tail call it looks into the
record below all others. -/
def getlocals (L : LuaState) : Level → List (Text × LuaValue)
  | Level.lua f => f.locals
  | Level.c _ temporaries => temporaries.map (fun v => (temporaryName, v))
  | Level.tail => L.base.map (fun v => (temporaryName, v))

/-- The registers of the hooked function, stack slots 1 to `lua_gettop`. -/
def stack (L : LuaState) : List LuaValue := L.hooked.locals.map Prod.snd

/-- `index2adr` for a positive index, after some values were pushed. -/
def slot (L : LuaState) (pushed : List LuaValue) (i : ℕ) : LuaValue :=
  match i with
  | 0 => LuaValue.nil
  | i+1 => ((L.stack ++ pushed)[i]?).getD LuaValue.nil

/-- `ar->source` and `ar->currentline` in the hook. -/
def source (L : LuaState) : Text := L.hooked.source

def currentline (L : LuaState) : CInt := L.hooked.currentline

end LuaState

theorem LuaNumber.not_mem (n : LuaNumber) {c : Char} (hc : c.isAlphanum = false)
    (hs : c ∉ ['+', '-', '.', '#']) : c ∉ n.text := by
  intro h
  rcases n.chars c h with hn | hn
  · simp [hc] at hn
  · exact hs hn

theorem LuaNumber.oneLine (n : LuaNumber) : OneLine n.text :=
  ⟨n.not_mem (by decide) (by decide), n.not_mem (by decide) (by decide)⟩

theorem LuaValue.length_printIt (v : LuaValue) : v.printIt.length < 64 := by
  cases v with
  | number n => exact n.short
  | _ => simp only [LuaValue.printIt, List.length_take]; omega

theorem LuaValue.oneLine_typename (v : LuaValue) : OneLine v.typename := by
  cases v <;> simp [typename, txt, OneLine]

/-- The number that is one digit. -/
def digit (d : Fin 10) : LuaNumber where
  text := [Nat.digitChar d.val]
  ne_nil := List.cons_ne_nil _ _
  chars := by
    have h : ∀ d : Fin 10, (Nat.digitChar d.val).isAlphanum = true := by decide
    intro c hc
    rw [List.mem_singleton.mp hc]
    exact Or.inl (h d)
  short := by simp

/-- The main chunk of a script stopped at a line, without locals and globals. -/
def LuaState.mainChunk (source : Text) (line : CInt) : LuaState where
  hooked :=
    { source := source
      currentline := line
      linedefined := 0
      called := none
      active := []
      temporaries := [] }
  callers := []
  globals := 0
  heap := fun _ => []
  cleared := fun _ _ => none
  base := []
  str2d := fun _ => none

/-- The same stop with these locals. -/
def LuaState.withLocals (L : LuaState) (locals : List (Text × LuaValue)) : LuaState :=
  { L with hooked := { L.hooked with active := locals } }

/-- The same stop with these globals, none of them cleared. -/
def LuaState.withGlobals (L : LuaState) (tbl : Table) : LuaState :=
  { L with heap := fun _ => tbl, cleared := fun _ _ => none }

end LuaIde
