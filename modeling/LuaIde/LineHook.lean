import LuaIde.LuaProto
import LuaIde.Stretches

/-! The line hook of the virtual machine: how `luaV_execute`, `luaD_precall`, `luaD_poscall`
and `luaD_pcall` move the saved program counter, and for which instructions `traceexec` calls
the hook. What the instructions compute is left open. -/
namespace LuaIde

open LineText DecimalText

/-- A `CallInfo`: of a Lua function, with its prototype, or of a C function. `id` numbers the
activations. -/
structure Activation where
  func : Option Proto
  savedpc : ℕ
  id : ℕ

/-- A C function of the interpreter in the middle of its work, with the value of `allowhook`
it puts back: `luaD_callhook`, `GCTM` or `luaD_pcall`. -/
inductive Pending where
  | callhook
  | gctm (oldah : Bool)
  | pcall (old_allowhooks : Bool)

def Pending.isPcall : Pending → Bool
  | .pcall _ => true
  | _ => false

def Pending.isHook : Pending → Bool
  | .callhook => true
  | _ => false

/-- Such a function, and the number of callers of the activation it runs for. -/
structure Waiting where
  pending : Pending
  depth : ℕ

/-- What the threads of control did: an activation began, an activation read a word of its
code, as an instruction or as the operand of one, and the hook ran for an activation. -/
inductive Entry where
  | enter (id : ℕ) (f : Proto) (allowhook : Bool)
  | word (id pos : ℕ) (executed : Bool)
  | hook (id : ℕ) (f : Proto) (currentline : CInt)

/-- `lua_State` with the local `pc` of `luaV_execute`. Both program counters are the number of
words of the running function in front of them. -/
structure Thread where
  ci : Activation
  callers : List Activation
  savedpc : ℕ
  pc : ℕ
  allowhook : Bool
  waiting : List Waiting
  fresh : ℕ
  log : List Entry

namespace Thread

/-- A thread on which `main` has set the hook, with `LUA_MASKLINE`. -/
def start : Thread where
  ci := { func := none, savedpc := 0, id := 0 }
  callers := []
  savedpc := 0
  pc := 0
  allowhook := true
  waiting := []
  fresh := 1
  log := []

/-- A C function runs for the innermost activation. -/
def busy (L : Thread) : Bool := L.waiting.any (fun w => w.depth = L.callers.length)

/-- It is the hook. -/
def hooked (L : Thread) : Bool :=
  L.waiting.head?.any (fun w => w.pending.isHook && w.depth = L.callers.length)

/-- `currentline` of the innermost activation, with the store of `currentpc`. -/
def getinfo (L : Thread) (f : Proto) : Thread × CInt :=
  ({ L with ci := { L.ci with savedpc := L.savedpc } }, getline f (L.savedpc-1))

/-- `luaD_callhook` up to the first statement of `HookRoutine`. -/
def callhook (L : Thread) (f : Proto) : Thread :=
  if L.allowhook then
    let (L, line) := L.getinfo f
    { L with
      allowhook := false
      waiting := ⟨.callhook, L.callers.length⟩ :: L.waiting
      log := L.log ++ [.hook L.ci.id f line] }
  else L

/-- `traceexec` behind the fetch of the instruction in front of `pc`. -/
def traceexec (L : Thread) (f : Proto) : Thread :=
  let oldpc := L.savedpc
  let npc := L.pc-1
  let L := { L with savedpc := L.pc }
  if npc = 0 ∨ L.pc ≤ oldpc ∨ getline f npc ≠ getline f (oldpc-1) then L.callhook f else L

/-- `luaD_precall` for a Lua function or a C function. -/
def precall (L : Thread) (func : Option Proto) : Thread :=
  { L with
    ci := { func := func, savedpc := 0, id := L.fresh }
    callers := { L.ci with savedpc := L.savedpc } :: L.callers
    savedpc := if func.isSome then 0 else L.savedpc
    pc := if func.isSome then 0 else L.pc
    fresh := L.fresh+1
    log := L.log ++ (func.map (fun f => Entry.enter L.fresh f L.allowhook)).toList }

/-- The words that belong to the `OP_CLOSURE` in front of `pc`. -/
def pseudo (f : Proto) (pc : ℕ) : Option ℕ := do
  let i ← f.code[pc-1]?
  let p ← f.p[GETARG_Bx i]?
  if GET_OPCODE i = some .OP_CLOSURE then some p.nups else none

/-- Back to the activation for which `luaD_pcall` waits. -/
def unwind (L : Thread) : Option Thread :=
  match L.waiting.dropWhile (fun w => !w.pending.isPcall) with
  | ⟨.pcall old_allowhooks, depth⟩ :: waiting =>
    match (L.ci :: L.callers).drop (L.callers.length-depth) with
    | ci :: callers =>
      some { L with
        ci := ci
        callers := callers
        savedpc := ci.savedpc
        pc := ci.savedpc
        allowhook := old_allowhooks
        waiting := waiting }
    | [] => none
  | _ => none

end Thread

/-- What the interpreter does next. -/
inductive VmStep where
  /-- the next instruction of the running Lua function -/
  | fetch
  /-- the instruction moves `pc` -/
  | jump (pc : ℕ)
  /-- the words behind an `OP_CLOSURE`, and its `Protect` -/
  | closure
  | call (func : Option Proto)
  | tailcall (f : Proto)
  | ret
  | hookReturn
  | gctm
  | gctmReturn
  | pcall
  | pcallReturn
  | throw

open Thread in
/-- One step. `none` where the interpreter cannot take it: a Lua function does nothing while
a C function runs for it, and it makes its calls with `pc` saved. -/
def vmStep (L : Thread) : VmStep → Option Thread
  | .fetch =>
    match L.ci.func with
    | some f =>
      if L.busy = false ∧ L.pc < f.code.length then
        some (traceexec { L with
          pc := L.pc+1
          log := L.log ++ [.word L.ci.id L.pc true] } f)
      else none
    | none => none
  | .jump pc =>
    if L.busy = false ∧ L.ci.func.isSome ∧ L.savedpc ≠ 0 then some { L with pc := pc } else none
  | .closure =>
    match L.ci.func.bind (fun f => pseudo f L.pc) with
    | some nup =>
      if L.busy = false ∧ L.savedpc ≠ 0 ∧ L.pc = L.savedpc then
        some { L with
          pc := L.pc+nup
          savedpc := L.pc+nup
          log := L.log ++ (List.range' L.pc nup).map (fun pos => .word L.ci.id pos false) }
      else none
    | none => none
  | .call func =>
    if L.ci.func.isSome → L.pc = L.savedpc then some (L.precall func) else none
  | .tailcall f =>
    if L.busy = false ∧ L.ci.func.isSome ∧ L.pc = L.savedpc then
      some { L.precall (some f) with callers := L.callers }
    else none
  | .ret =>
    match L.callers with
    | ci :: callers =>
      if L.busy = false then
        some { L with ci := ci, callers := callers, savedpc := ci.savedpc, pc := ci.savedpc }
      else none
    | [] => none
  | .hookReturn =>
    match L.waiting with
    | ⟨.callhook, depth⟩ :: waiting =>
      if depth = L.callers.length then some { L with allowhook := true, waiting := waiting }
      else none
    | _ => none
  | .gctm =>
    if L.ci.func.isSome → L.pc = L.savedpc then
      some { L with
        allowhook := false
        waiting := ⟨.gctm L.allowhook, L.callers.length⟩ :: L.waiting }
    else none
  | .gctmReturn =>
    match L.waiting with
    | ⟨.gctm oldah, depth⟩ :: waiting =>
      if depth = L.callers.length then some { L with allowhook := oldah, waiting := waiting }
      else none
    | _ => none
  | .pcall =>
    -- it is called by a C function or by the hook
    if L.ci.func.isNone ∨ L.hooked then
      some { L with waiting := ⟨.pcall L.allowhook, L.callers.length⟩ :: L.waiting }
    else none
  | .pcallReturn =>
    match L.waiting with
    | ⟨.pcall _, depth⟩ :: waiting =>
      if depth = L.callers.length then some { L with waiting := waiting } else none
    | _ => none
  | .throw => L.unwind

end LuaIde
