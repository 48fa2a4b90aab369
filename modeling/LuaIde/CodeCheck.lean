import LuaIde.LuaProto

/-! The code checker of `ldebug.c`: `symbexec` reads the code of a function once from its
start, checks every instruction on the way and notes the last one that changed a register. -/
namespace LuaIde

open OpCode

/-- `check`. -/
def check (x : Prop) [Decidable x] : Option Unit := if x then some () else none

def LUA_MULTRET : ℤ := -1

def MAXSTACK : ℕ := 250

/-- `GET_OPCODE` of the word at a position of the code. -/
def opAt (pt : Proto) (pc : ℕ) : Option OpCode := pt.code[pc]?.bind GET_OPCODE

/-- An `OP_SETLIST` whose count is the next word. -/
def setlistCount (d : Instruction) : Bool :=
  GET_OPCODE d = some OP_SETLIST ∧ GETARG_C d = 0

def precheck (pt : Proto) : Bool :=
  pt.maxstacksize ≤ MAXSTACK ∧ pt.upvalues.length ≤ pt.nups ∧
    (pt.lineinfo.length = pt.code.length ∨ pt.lineinfo.length = 0) ∧
      pt.code.getLast?.bind GET_OPCODE = some OP_RETURN

def luaG_checkopenop (i : Instruction) : Bool :=
  match GET_OPCODE i with
  | some OP_CALL | some OP_TAILCALL | some OP_RETURN | some OP_SETLIST => GETARG_B i = 0
  | _ => false

/-- `checkopenop`. -/
def checkopenop (pt : Proto) (pc : ℕ) : Bool := pt.code[pc+1]?.any luaG_checkopenop

def checkArgMode (pt : Proto) (r : ℕ) : OpArgMask → Bool
  | .OpArgN => r = 0
  | .OpArgU => true
  | .OpArgR => r < pt.maxstacksize
  | .OpArgK => if ISK r then INDEXK r < pt.k.length else r < pt.maxstacksize

/-- The first `switch` of the loop body. -/
def checkOperands (pt : Proto) (pc : ℕ) (i : Instruction) (op : OpCode) : Option Unit :=
  match (luaP_opmodes op).m with
  | .iABC => do
    check (checkArgMode pt (GETARG_B i) (luaP_opmodes op).b)
    check (checkArgMode pt (GETARG_C i) (luaP_opmodes op).c)
  | .iABx => check ((luaP_opmodes op).b = .OpArgK → GETARG_Bx i < pt.k.length)
  | .iAsBx =>
    if (luaP_opmodes op).b = .OpArgR then do
      let dest : ℤ := pc+1+GETARG_sBx i
      check (0 ≤ dest ∧ dest < pt.code.length)
      -- cannot jump to a setlist count
      check (0 < dest → ¬ pt.code[(dest-1).toNat]?.any setlistCount)
    else some ()

/-- The checks of a test: a jump follows it. -/
def checkTest (pt : Proto) (pc : ℕ) (op : OpCode) : Option Unit :=
  if (luaP_opmodes op).t then check (pc+2 < pt.code.length ∧ opAt pt (pc+1) = some OP_JMP)
  else some ()

/-- `OP_JMP`: where the code is traced, a jump forward is taken. -/
def symbJump (lastpc reg pc last : ℕ) (i : Instruction) : ℕ × ℕ :=
  let dest : ℤ := pc+1+GETARG_sBx i
  if reg ≠ NO_REG ∧ pc < dest ∧ dest ≤ lastpc then (dest.toNat-1, last) else (pc, last)

/-- The second `switch` of the loop body: the position it leaves, and the last instruction
that changed `reg`. -/
def checkOp (pt : Proto) (lastpc reg pc last : ℕ) (i : Instruction) (op : OpCode) :
    Option (ℕ × ℕ) :=
  let a := GETARG_A i
  match op with
  | OP_LOADBOOL => do
    check (GETARG_C i = 0 ∨ pc+2 < pt.code.length)
    some (pc, last)
  | OP_LOADNIL => some (pc, if a ≤ reg ∧ reg ≤ GETARG_B i then pc else last)
  | OP_GETUPVAL | OP_SETUPVAL => do
    check (GETARG_B i < pt.nups)
    some (pc, last)
  | OP_GETGLOBAL | OP_SETGLOBAL => do
    check (pt.k[GETARG_Bx i]?.any Constant.ttisstring)
    some (pc, last)
  | OP_SELF => do
    check (a+1 < pt.maxstacksize)
    some (pc, if reg = a+1 then pc else last)
  | OP_CONCAT => do
    check (GETARG_B i < GETARG_C i)
    some (pc, last)
  | OP_TFORLOOP => do
    check (1 ≤ GETARG_C i)
    check (a+2+GETARG_C i < pt.maxstacksize)
    some (pc, if a+2 ≤ reg then pc else last)
  | OP_FORLOOP | OP_FORPREP => do
    check (a+3 < pt.maxstacksize)
    some (symbJump lastpc reg pc last i)
  | OP_JMP => some (symbJump lastpc reg pc last i)
  | OP_CALL | OP_TAILCALL => do
    check (GETARG_B i ≠ 0 → a+GETARG_B i-1 < pt.maxstacksize)
    let c : ℤ := GETARG_C i-1
    check (if c = LUA_MULTRET then checkopenop pt pc = true
      else c ≠ 0 → a+c-1 < pt.maxstacksize)
    some (pc, if a ≤ reg then pc else last)
  | OP_RETURN => do
    let b : ℤ := GETARG_B i-1
    check (0 < b → a+b-1 < pt.maxstacksize)
    some (pc, last)
  | OP_SETLIST => do
    check (0 < GETARG_B i → a+GETARG_B i < pt.maxstacksize)
    some (if GETARG_C i = 0 then pc+1 else pc, last)
  | OP_CLOSURE => do
    let f ← pt.p[GETARG_Bx i]?
    check (pc+f.nups < pt.code.length)
    check (∀ j < f.nups, opAt pt (pc+(j+1)) = some OP_GETUPVAL ∨ opAt pt (pc+(j+1)) = some OP_MOVE)
    some (if reg ≠ NO_REG then pc+f.nups else pc, last)
  | OP_VARARG => do
    check (pt.is_vararg &&& VARARG_ISVARARG ≠ 0 ∧ pt.is_vararg &&& VARARG_NEEDSARG = 0)
    let b : ℤ := GETARG_B i-1
    check (b = LUA_MULTRET → checkopenop pt pc = true)
    check (a+b-1 < pt.maxstacksize)
    some (pc, last)
  | _ => some (pc, last)

/-- The loop body at `pc`. -/
def symbStep (pt : Proto) (lastpc reg pc last : ℕ) : Option (ℕ × ℕ) := do
  let i ← pt.code[pc]?
  let op ← GET_OPCODE i
  check (GETARG_A i < pt.maxstacksize)
  checkOperands pt pc i op
  checkTest pt pc op
  let last := if (luaP_opmodes op).a ∧ GETARG_A i = reg then pc else last
  checkOp pt lastpc reg pc last i op

/-- The loop, which moves on by a word at least each time. -/
def symbLoop (pt : Proto) (lastpc reg : ℕ) : ℕ → ℕ → ℕ → Option ℕ
  | 0, _, last => some last
  | fuel+1, pc, last =>
    if pc < lastpc then
      (symbStep pt lastpc reg pc last).bind fun (pc, last) =>
        symbLoop pt lastpc reg fuel (pc+1) last
    else some last

/-- 0 where a check fails. -/
def symbexec (pt : Proto) (lastpc reg : ℕ) : Instruction :=
  if precheck pt then
    match symbLoop pt lastpc reg lastpc 0 (pt.code.length-1) with
    | some last => pt.code.getD last 0
    | none => 0
  else 0

def luaG_checkcode (pt : Proto) : Bool := symbexec pt pt.code.length NO_REG ≠ 0

theorem luaG_checkcode_iff (pt : Proto) : luaG_checkcode pt = true ↔
    precheck pt = true ∧ ∃ last,
      symbLoop pt pt.code.length NO_REG pt.code.length 0 (pt.code.length-1) = some last ∧
        pt.code.getD last 0 ≠ 0 := by
  have hne : luaG_checkcode pt = true ↔ symbexec pt pt.code.length NO_REG ≠ 0 := by
    rw [luaG_checkcode, decide_eq_true_eq]
  rw [hne, symbexec]
  split_ifs with hpre
  · cases symbLoop pt pt.code.length NO_REG pt.code.length 0 (pt.code.length-1) with
    | none => simp
    | some last => simp [hpre]
  · simp [hpre]

end LuaIde
