import LuaIde.DecimalText
import Mathlib.Data.BitVec

/-! Function prototypes and the instructions of the virtual machine: `lobject.h`, `lopcodes.h`
and the table of `lopcodes.c`. -/
namespace LuaIde

open LineText DecimalText

/-- An instruction word. -/
abbrev Instruction := BitVec 32

inductive OpCode where
  | OP_MOVE | OP_LOADK | OP_LOADBOOL | OP_LOADNIL | OP_GETUPVAL
  | OP_GETGLOBAL | OP_GETTABLE
  | OP_SETGLOBAL | OP_SETUPVAL | OP_SETTABLE
  | OP_NEWTABLE | OP_SELF
  | OP_ADD | OP_SUB | OP_MUL | OP_DIV | OP_MOD | OP_POW | OP_UNM | OP_NOT | OP_LEN
  | OP_CONCAT | OP_JMP | OP_EQ | OP_LT | OP_LE | OP_TEST | OP_TESTSET
  | OP_CALL | OP_TAILCALL | OP_RETURN
  | OP_FORLOOP | OP_FORPREP | OP_TFORLOOP | OP_SETLIST | OP_CLOSE | OP_CLOSURE | OP_VARARG
deriving DecidableEq

namespace OpCode

/-- The opcodes in the order of their numbers. -/
def all : List OpCode :=
  [OP_MOVE, OP_LOADK, OP_LOADBOOL, OP_LOADNIL, OP_GETUPVAL, OP_GETGLOBAL, OP_GETTABLE,
    OP_SETGLOBAL, OP_SETUPVAL, OP_SETTABLE, OP_NEWTABLE, OP_SELF, OP_ADD, OP_SUB, OP_MUL, OP_DIV,
    OP_MOD, OP_POW, OP_UNM, OP_NOT, OP_LEN, OP_CONCAT, OP_JMP, OP_EQ, OP_LT, OP_LE, OP_TEST,
    OP_TESTSET, OP_CALL, OP_TAILCALL, OP_RETURN, OP_FORLOOP, OP_FORPREP, OP_TFORLOOP, OP_SETLIST,
    OP_CLOSE, OP_CLOSURE, OP_VARARG]

end OpCode

/-- `NUM_OPCODES`. -/
def NUM_OPCODES : ℕ := OpCode.all.length

/-- `enum OpMode`. -/
inductive OpMode where
  | iABC | iABx | iAsBx
deriving DecidableEq

/-- `enum OpArgMask`. -/
inductive OpArgMask where
  | OpArgN | OpArgU | OpArgR | OpArgK
deriving DecidableEq

/-- A row of `luaP_opmodes`: is it a test, does it set register A, the modes of B and C. -/
structure OpModes where
  t : Bool
  a : Bool
  b : OpArgMask
  c : OpArgMask
  m : OpMode

section
open OpCode OpArgMask OpMode

/-- `luaP_opmodes`. -/
def luaP_opmodes : OpCode → OpModes
  | OP_MOVE => ⟨false, true, OpArgR, OpArgN, iABC⟩
  | OP_LOADK => ⟨false, true, OpArgK, OpArgN, iABx⟩
  | OP_LOADBOOL => ⟨false, true, OpArgU, OpArgU, iABC⟩
  | OP_LOADNIL => ⟨false, true, OpArgR, OpArgN, iABC⟩
  | OP_GETUPVAL => ⟨false, true, OpArgU, OpArgN, iABC⟩
  | OP_GETGLOBAL => ⟨false, true, OpArgK, OpArgN, iABx⟩
  | OP_GETTABLE => ⟨false, true, OpArgR, OpArgK, iABC⟩
  | OP_SETGLOBAL => ⟨false, false, OpArgK, OpArgN, iABx⟩
  | OP_SETUPVAL => ⟨false, false, OpArgU, OpArgN, iABC⟩
  | OP_SETTABLE => ⟨false, false, OpArgK, OpArgK, iABC⟩
  | OP_NEWTABLE => ⟨false, true, OpArgU, OpArgU, iABC⟩
  | OP_SELF => ⟨false, true, OpArgR, OpArgK, iABC⟩
  | OP_ADD | OP_SUB | OP_MUL | OP_DIV | OP_MOD | OP_POW => ⟨false, true, OpArgK, OpArgK, iABC⟩
  | OP_UNM | OP_NOT | OP_LEN => ⟨false, true, OpArgR, OpArgN, iABC⟩
  | OP_CONCAT => ⟨false, true, OpArgR, OpArgR, iABC⟩
  | OP_JMP => ⟨false, false, OpArgR, OpArgN, iAsBx⟩
  | OP_EQ | OP_LT | OP_LE => ⟨true, false, OpArgK, OpArgK, iABC⟩
  | OP_TEST | OP_TESTSET => ⟨true, true, OpArgR, OpArgU, iABC⟩
  | OP_CALL | OP_TAILCALL => ⟨false, true, OpArgU, OpArgU, iABC⟩
  | OP_RETURN => ⟨false, false, OpArgU, OpArgN, iABC⟩
  | OP_FORLOOP | OP_FORPREP => ⟨false, true, OpArgR, OpArgN, iAsBx⟩
  | OP_TFORLOOP => ⟨true, false, OpArgN, OpArgU, iABC⟩
  | OP_SETLIST => ⟨false, false, OpArgU, OpArgU, iABC⟩
  | OP_CLOSE => ⟨false, false, OpArgN, OpArgN, iABC⟩
  | OP_CLOSURE => ⟨false, true, OpArgU, OpArgN, iABx⟩
  | OP_VARARG => ⟨false, true, OpArgU, OpArgN, iABC⟩

end

/-- The `size` bits of an instruction word above bit `pos`. -/
def Instruction.field (pos size : ℕ) (i : Instruction) : ℕ := (i >>> pos).toNat % 2 ^ size

/-- `none` stands for the numbers from `NUM_OPCODES` on. -/
def GET_OPCODE (i : Instruction) : Option OpCode := OpCode.all[Instruction.field 0 6 i]?

def GETARG_A (i : Instruction) : ℕ := Instruction.field 6 8 i

def GETARG_C (i : Instruction) : ℕ := Instruction.field 14 9 i

def GETARG_B (i : Instruction) : ℕ := Instruction.field 23 9 i

def GETARG_Bx (i : Instruction) : ℕ := Instruction.field 14 18 i

/-- `MAXARG_Bx >> 1`. -/
def MAXARG_sBx : ℕ := 131071

def GETARG_sBx (i : Instruction) : ℤ := (GETARG_Bx i : ℤ) - MAXARG_sBx

/-- `MAXARG_A`, a register number no function uses. -/
def NO_REG : ℕ := 255

/-- The bit that makes an operand the index of a constant. -/
def BITRK : ℕ := 256

/-- An operand B or C of nine bits is a constant. -/
def ISK (x : ℕ) : Bool := BITRK ≤ x

def INDEXK (r : ℕ) : ℕ := r - BITRK

/-- A constant of a prototype: a boolean is one byte and a number eight. Here and below a
string is `none` where the pointer is null. -/
inductive Constant where
  | nil
  | boolean (b : BitVec 8)
  | number (n : BitVec 64)
  | string (s : Option Text)
deriving DecidableEq

def Constant.ttisstring : Constant → Bool
  | .string _ => true
  | _ => false

structure LocVar where
  varname : Option Text
  startpc : ℕ
  endpc : ℕ
deriving DecidableEq

/-- `Proto`. The lengths of the vectors are those of the lists; the vector of lines may be
missing, and then its list is empty. -/
structure Proto where
  k : List Constant
  code : List Instruction
  p : List Proto
  lineinfo : List CInt
  locvars : List LocVar
  upvalues : List (Option Text)
  source : Text
  linedefined : ℕ
  lastlinedefined : ℕ
  nups : ℕ
  numparams : ℕ
  is_vararg : ℕ
  maxstacksize : ℕ

def VARARG_HASARG : ℕ := 1

def VARARG_ISVARARG : ℕ := 2

def VARARG_NEEDSARG : ℕ := 4

/-- `getline`. -/
def getline (f : Proto) (pc : ℕ) : CInt :=
  if f.lineinfo = [] then 0 else f.lineinfo.getD pc 0

end LuaIde
