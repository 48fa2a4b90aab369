import LuaIde.CodeCheck
import LuaIde.Decoding
import LuaIde.LuaZio

/-! Precompiled chunks: `ldump.c` and `lundump.c` on a platform with 32-bit integers and sizes
and the low byte of a number first. -/
namespace LuaIde

open LineText DecimalText Decoding

def byte (n : ℕ) : Char := Char.ofNat (n % 256)

/-- A number in memory. -/
def bytesOf (size n : ℕ) : Text := (List.range size).map (fun i => byte (n / 256 ^ i))

def ofBytes (s : Text) : ℕ := s.foldr (fun c n => c.toNat + 256 * n) 0

/-- The type tags a dumped constant can have. -/
def LUA_TNIL : ℕ := 0

def LUA_TBOOLEAN : ℕ := 1

def LUA_TNUMBER : ℕ := 3

def LUA_TSTRING : ℕ := 4

/-- `luaU_header`: the signature, version, format, byte order, the sizes of `int`, `size_t`,
`Instruction` and `lua_Number`, and that numbers are no integers. -/
def luaU_header : Text :=
  ['\x1b', 'L', 'u', 'a', '\x51', '\x00', '\x01', '\x04', '\x04', '\x04', '\x08', '\x00']

/-! ### `ldump.c`: the blocks that go to the writer -/

def DumpChar (y : ℕ) : List Text := [[byte y]]

def DumpInt (x : ℤ) : List Text := [bytesOf 4 (x % 2 ^ 32).toNat]

def DumpNumber (x : BitVec 64) : List Text := [bytesOf 8 x.toNat]

def DumpVector (words : List Text) : List Text := DumpInt words.length ++ [words.flatten]

def DumpString : Option Text → List Text
  | none => [bytesOf 4 0]
  | some s => [bytesOf 4 (s.length+1), s ++ ['\x00']]

def DumpCode (code : List Instruction) : List Text :=
  DumpVector (code.map (fun i => bytesOf 4 i.toNat))

/-- The body of the first loop of `DumpConstants`. -/
def DumpConstant : Constant → List Text
  | .nil => DumpChar LUA_TNIL
  | .boolean b => DumpChar LUA_TBOOLEAN ++ DumpChar b.toNat
  | .number n => DumpChar LUA_TNUMBER ++ DumpNumber n
  | .string s => DumpChar LUA_TSTRING ++ DumpString s

def DumpLocVar (v : LocVar) : List Text :=
  DumpString v.varname ++ (DumpInt v.startpc ++ DumpInt v.endpc)

def DumpDebug (strip : Bool) (lineinfo : List CInt) (locvars : List LocVar)
    (upvalues : List (Option Text)) : List Text :=
  let lineinfo := if strip then [] else lineinfo
  let locvars := if strip then [] else locvars
  let upvalues := if strip then [] else upvalues
  DumpVector (lineinfo.map (fun line => bytesOf 4 (line.val % 2 ^ 32).toNat)) ++
    (DumpInt locvars.length ++ (locvars.flatMap DumpLocVar ++
      (DumpInt upvalues.length ++ upvalues.flatMap DumpString)))

mutual

/-- `p` is the source of the function around it. -/
def DumpFunction (strip : Bool) (p : Option Text) : Proto → List Text
  | ⟨k, code, protos, lineinfo, locvars, upvalues, source, linedefined, lastlinedefined, nups,
      numparams, is_vararg, maxstacksize⟩ =>
    DumpString (if some source = p ∨ strip then none else some source) ++
      (DumpInt linedefined ++ (DumpInt lastlinedefined ++ (DumpChar nups ++
        (DumpChar numparams ++ (DumpChar is_vararg ++ (DumpChar maxstacksize ++
          (DumpCode code ++ (DumpInt k.length ++ (k.flatMap DumpConstant ++
            (DumpInt protos.length ++ (DumpFunctions strip source protos ++
              DumpDebug strip lineinfo locvars upvalues)))))))))))

/-- The second loop of `DumpConstants`. -/
def DumpFunctions (strip : Bool) (source : Text) : List Proto → List Text
  | [] => []
  | f :: fs => DumpFunction strip (some source) f ++ DumpFunctions strip source fs

end

/-- `DumpState` with what the writer has made of its data. -/
structure DumpState (δ : Type) where
  data : δ
  status : ℤ

/-- `DumpBlock`: nothing is written after an error. -/
def DumpBlock {δ : Type} (writer : δ → Text → δ × ℤ) (D : DumpState δ) (b : Text) : DumpState δ :=
  if D.status = 0 then
    let (data, status) := writer D.data b
    { data := data, status := status }
  else D

/-- `luaU_dump`. -/
def luaU_dump {δ : Type} (f : Proto) (writer : δ → Text → δ × ℤ) (data : δ) (strip : Bool) :
    DumpState δ :=
  (luaU_header :: DumpFunction strip none f).foldl (DumpBlock writer) { data := data, status := 0 }

/-! ### `lundump.c` -/

/-- `LoadState`: the name in error messages is kept apart, the rest is the stream. -/
abbrev Load (α : Type) := StateT Zio (Except Text) α

variable (name : Text)

/-- `error`. -/
def chunkError (why : Text) : Text := name ++ txt ": " ++ why ++ txt " in precompiled chunk"

def LoadError {α : Type} (why : Text) : Load α := fun _ => .error (chunkError name why)

def LoadBlock (size : ℕ) : Load Text := fun z =>
  let (b, r, z) := z.luaZ_read size
  if r ≠ 0 then .error (chunkError name (txt "unexpected end")) else .ok (b, z)

/-- The value of a `char`, which is signed. -/
def LoadChar : Load ℤ := do
  let b ← LoadBlock name 1
  let x : ℕ := ofBytes b % 256
  pure (if x < 128 then (x : ℤ) else (x : ℤ)-256)

def LoadByte : Load ℕ := do
  let x ← LoadChar name
  pure (x % 256).toNat

/-- A signed integer of four bytes. -/
def signed32 (b : Text) : ℤ :=
  let x : ℕ := ofBytes b % 2 ^ 32
  if x < 2 ^ 31 then (x : ℤ) else (x : ℤ)-2 ^ 32

def LoadInt : Load ℕ := do
  let b ← LoadBlock name 4
  let x := signed32 b
  if x < 0 then LoadError name (txt "bad integer") else pure x.toNat

def LoadNumber : Load (BitVec 64) := do
  let b ← LoadBlock name 8
  pure (BitVec.ofNat 64 (ofBytes b))

def LoadString : Load (Option Text) := do
  let b ← LoadBlock name 4
  let size := ofBytes b
  if size = 0 then pure none
  else do
    let s ← LoadBlock name size
    -- remove trailing '\0'
    pure (some (s.take (size-1)))

/-- A vector of words of four bytes. -/
def LoadVector {α : Type} (word : Text → α) : Load (List α) := do
  let n ← LoadInt name
  let b ← LoadBlock name (n * 4)
  pure ((List.range n).map (fun i => word ((b.drop (4 * i)).take 4)))

def LoadCode : Load (List Instruction) := LoadVector name (fun b => BitVec.ofNat 32 (ofBytes b))

/-- The body of the first loop of `LoadConstants`. -/
def LoadConstant : Load Constant := do
  let t ← LoadChar name
  if t = LUA_TNIL then pure .nil
  else if t = LUA_TBOOLEAN then do
    let b ← LoadChar name
    pure (.boolean (BitVec.ofNat 8 (b % 256).toNat))
  else if t = LUA_TNUMBER then do
    let x ← LoadNumber name
    pure (.number x)
  else if t = LUA_TSTRING then do
    let s ← LoadString name
    pure (.string s)
  else LoadError name (txt "bad constant")

def LoadLocVar : Load LocVar := do
  let varname ← LoadString name
  let startpc ← LoadInt name
  let endpc ← LoadInt name
  pure { varname := varname, startpc := startpc, endpc := endpc }

/-- `LoadFunction`, where the C stack has room for so many calls of it. The code does not count
them. -/
def LoadFunction : ℕ → Text → Load Proto
  | 0, _ => LoadError name (txt "C stack overflow")
  | depth+1, p => do
    let source ← LoadString name
    let source := source.getD p
    let linedefined ← LoadInt name
    let lastlinedefined ← LoadInt name
    let nups ← LoadByte name
    let numparams ← LoadByte name
    let is_vararg ← LoadByte name
    let maxstacksize ← LoadByte name
    let code ← LoadCode name
    let sizek ← LoadInt name
    let k ← times (LoadConstant name) sizek
    let sizep ← LoadInt name
    let protos ← times (LoadFunction depth source) sizep
    let lineinfo ← LoadVector name (fun b => saturate (signed32 b))
    let sizelocvars ← LoadInt name
    let locvars ← times (LoadLocVar name) sizelocvars
    let sizeupvalues ← LoadInt name
    let upvalues ← times (LoadString name) sizeupvalues
    let f : Proto :=
      { k := k, code := code, p := protos, lineinfo := lineinfo, locvars := locvars
        upvalues := upvalues, source := source, linedefined := linedefined
        lastlinedefined := lastlinedefined, nups := nups, numparams := numparams
        is_vararg := is_vararg, maxstacksize := maxstacksize }
    if luaG_checkcode f then pure f else LoadError name (txt "bad code")

def LoadHeader : Load Unit := do
  let s ← LoadBlock name luaU_header.length
  if s ≠ luaU_header then LoadError name (txt "bad header") else pure ()

/-- The name of the chunk in error messages. -/
def undumpName : Text → Text
  | '@' :: name => name
  | '=' :: name => name
  | '\x1b' :: _ => txt "binary string"
  | name => name

/-- `luaU_undump`. -/
def luaU_undump (depth : ℕ) (name : Text) : Load Proto := do
  LoadHeader (undumpName name)
  LoadFunction (undumpName name) depth (txt "=?")

end LuaIde
