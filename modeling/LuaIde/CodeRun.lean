import LuaIde.CodeCheck
import Mathlib.Logic.Relation

/-! What `luaV_execute` reads and writes for an instruction and where it goes on, and that in
code which the checker has accepted no run of it leaves the code or the vectors of the
function. -/
namespace LuaIde

open OpCode

/-- The places of a function that one instruction uses. -/
structure Uses where
  registers : List ℕ := []
  constants : List ℕ := []
  upvalues : List ℕ := []
  protos : List ℕ := []
  words : List ℕ := []

namespace Uses

def and (u v : Uses) : Uses where
  registers := u.registers ++ v.registers
  constants := u.constants ++ v.constants
  upvalues := u.upvalues ++ v.upvalues
  protos := u.protos ++ v.protos
  words := u.words ++ v.words

/-- `R(x)`. -/
def reg (x : ℕ) : Uses := { registers := [x] }

/-- `n` registers from `R(x)` on. -/
def regs (x n : ℕ) : Uses := { registers := List.range' x n }

/-- `RK(x)`. -/
def rk (x : ℕ) : Uses := if ISK x then { constants := [INDEXK x] } else reg x

end Uses

open Uses in
/-- What the instruction at `pc` uses; the values that an open call or `OP_VARARG` left on the
stack are not counted. -/
def uses (pt : Proto) (pc : ℕ) (i : Instruction) (op : OpCode) : Uses :=
  let a := GETARG_A i
  let b := GETARG_B i
  let c := GETARG_C i
  match op with
  | OP_MOVE | OP_UNM | OP_NOT | OP_LEN => (reg a).and (reg b)
  | OP_LOADK => (reg a).and { constants := [GETARG_Bx i] }
  | OP_LOADBOOL | OP_NEWTABLE => reg a
  | OP_LOADNIL => (reg b).and (regs a (b+1-a))
  | OP_GETUPVAL | OP_SETUPVAL => (reg a).and { upvalues := [b] }
  | OP_GETGLOBAL | OP_SETGLOBAL => (reg a).and { constants := [GETARG_Bx i] }
  | OP_GETTABLE => (reg a).and ((reg b).and (rk c))
  | OP_SETTABLE => (reg a).and ((rk b).and (rk c))
  | OP_SELF => (regs a 2).and ((reg b).and (rk c))
  | OP_ADD | OP_SUB | OP_MUL | OP_DIV | OP_MOD | OP_POW => (reg a).and ((rk b).and (rk c))
  | OP_CONCAT => (reg a).and (regs b (c+1-b))
  | OP_JMP => {}
  | OP_EQ | OP_LT | OP_LE => ((rk b).and (rk c)).and { words := [pc+1] }
  | OP_TEST => (reg a).and { words := [pc+1] }
  | OP_TESTSET => ((reg a).and (reg b)).and { words := [pc+1] }
  -- the function with its arguments, and its results
  | OP_CALL | OP_TAILCALL => (reg a).and ((regs a b).and (regs a (c-1)))
  | OP_RETURN => regs a (b-1)
  | OP_FORLOOP => regs a 4
  | OP_FORPREP => regs a 3
  -- the iterator and its two arguments are copied to where it is called
  | OP_TFORLOOP => ((regs a 6).and (regs (a+3) c)).and { words := [pc+1] }
  | OP_SETLIST => (regs a (b+1)).and { words := if c = 0 then [pc+1] else [] }
  | OP_CLOSE => reg a
  | OP_CLOSURE =>
    let nups := (pt.p[GETARG_Bx i]?.map Proto.nups).getD 0
    let captured := (List.range' (pc+1) nups).map (fun w => (pt.code.getD w 0))
    (reg a).and
      { protos := [GETARG_Bx i]
        words := List.range' (pc+1) nups
        upvalues := (captured.filter (fun d => GET_OPCODE d = some OP_GETUPVAL)).map GETARG_B
        registers := (captured.filter (fun d => GET_OPCODE d ≠ some OP_GETUPVAL)).map GETARG_B }
  | OP_VARARG => (reg a).and (regs a (b-1))

/-- Where the jump in the word at `pc` leads. -/
def jumpTarget (pt : Proto) (pc : ℕ) : ℤ := pc+1+GETARG_sBx (pt.code.getD pc 0)

/-- Where `luaV_execute` can go on in the function. -/
def nextPcs (pt : Proto) (pc : ℕ) (i : Instruction) : OpCode → List ℤ
  | OP_LOADBOOL => if GETARG_C i ≠ 0 then [pc+2] else [pc+1]
  | OP_JMP => [jumpTarget pt pc]
  | OP_EQ | OP_LT | OP_LE | OP_TEST | OP_TESTSET | OP_TFORLOOP => [jumpTarget pt (pc+1), pc+2]
  | OP_RETURN => []
  | OP_FORLOOP => [jumpTarget pt pc, pc+1]
  | OP_FORPREP => [jumpTarget pt pc]
  | OP_SETLIST => if GETARG_C i = 0 then [pc+2] else [pc+1]
  | OP_CLOSURE => [pc+1+(pt.p[GETARG_Bx i]?.map Proto.nups).getD 0]
  | _ => [pc+1]

/-- The instruction at a position, if the position is in the code and the instruction exists. -/
def fetch (pt : Proto) (pc : ℤ) : Option (ℕ × Instruction × OpCode) := do
  let n ← if 0 ≤ pc then some pc.toNat else none
  let i ← pt.code[n]?
  let op ← GET_OPCODE i
  some (n, i, op)

/-- One instruction of the function. -/
def CodeStep (pt : Proto) (pc pc' : ℤ) : Prop :=
  ∃ n i op, fetch pt pc = some (n, i, op) ∧ pc' ∈ nextPcs pt n i op

/-- The positions at which a call of the function executes instructions. -/
def Executed (pt : Proto) : ℤ → Prop := Relation.ReflTransGen (CodeStep pt) 0

/-- The places are inside the vectors of the function; `OP_TFORLOOP` may use two of the
additional registers each stack has above those of the function. -/
structure InBounds (pt : Proto) (op : OpCode) (u : Uses) : Prop where
  registers : ∀ r ∈ u.registers, r < pt.maxstacksize + if op = OP_TFORLOOP then 2 else 0
  constants : ∀ k ∈ u.constants, k < pt.k.length
  upvalues : ∀ v ∈ u.upvalues, v < pt.nups
  protos : ∀ p ∈ u.protos, p < pt.p.length
  words : ∀ w ∈ u.words, w < pt.code.length

/-- The count of an `OP_SETLIST` is not the last word, and no `OP_LOADBOOL` skips to one. The
checker does not see to it, the compiler does. -/
structure CountsPlaced (pt : Proto) : Prop where
  not_last : ∀ pc d, pt.code[pc]? = some d → setlistCount d = true → pc+2 < pt.code.length
  not_skipped_to : ∀ pc i d, pt.code[pc]? = some i → GET_OPCODE i = some OP_LOADBOOL →
    GETARG_C i ≠ 0 → pt.code[pc+1]? = some d → setlistCount d = false

/-! ### What the checks say -/

@[simp] theorem check_eq_some {x : Prop} [Decidable x] {u : Unit} : check x = some u ↔ x := by
  unfold check
  split_ifs with h
  · simp [h]
  · simp [h]

theorem check_bind_eq_some {α : Type} {x : Prop} [Decidable x] {k : Unit → Option α} {r : α} :
    (check x >>= k) = some r ↔ x ∧ k () = some r := by
  unfold check
  split_ifs with h
  · simp [h]
  · simp [h]

/-- An instruction that the loop has passed. -/
structure Checked (pt : Proto) (lastpc reg pc last : ℕ) (i : Instruction) (op : OpCode)
    (r : ℕ × ℕ) : Prop where
  word : pt.code[pc]? = some i
  opcode : GET_OPCODE i = some op
  a : GETARG_A i < pt.maxstacksize
  operands : checkOperands pt pc i op = some ()
  test : checkTest pt pc op = some ()
  op : ∃ last, checkOp pt lastpc reg pc last i op = some r

theorem checked_of_symbStep {pt : Proto} {lastpc reg pc last : ℕ} {r : ℕ × ℕ}
    (h : symbStep pt lastpc reg pc last = some r) :
    ∃ i op, Checked pt lastpc reg pc last i op r := by
  obtain ⟨i, hi, h⟩ := Option.bind_eq_some_iff.mp h
  obtain ⟨op, hop, h⟩ := Option.bind_eq_some_iff.mp h
  obtain ⟨ha, h⟩ := check_bind_eq_some.mp h
  obtain ⟨_, hoperands, h⟩ := Option.bind_eq_some_iff.mp h
  obtain ⟨_, htest, h⟩ := Option.bind_eq_some_iff.mp h
  exact ⟨i, op, hi, hop, ha, hoperands, htest, _, h⟩

theorem setlistCount_eq_false {i : Instruction} {op : OpCode} (hop : GET_OPCODE i = some op)
    (hne : op ≠ OP_SETLIST) : setlistCount i = false := by
  simp [setlistCount, hop, hne]

/-- Without a register to trace the loop passes over the counts of `OP_SETLIST` only. -/
theorem Checked.next {pt : Proto} {lastpc pc last : ℕ} {i : Instruction} {op : OpCode}
    {r : ℕ × ℕ} (h : Checked pt lastpc NO_REG pc last i op r) :
    r.1 = if setlistCount i then pc+1 else pc := by
  obtain ⟨last', hr⟩ := h.op
  by_cases hset : op = OP_SETLIST
  · subst hset
    obtain ⟨-, hr⟩ := check_bind_eq_some.mp hr
    rw [← Option.some.inj hr]
    simp [setlistCount, h.opcode]
  · rw [setlistCount_eq_false h.opcode hset, if_neg Bool.false_ne_true]
    cases op <;>
      simp [checkOp, symbJump, Option.bind_eq_some_iff] at hr hset ⊢ <;> grind

/-! ### The words the checker reads -/

/-- The loop goes from one word to the next, and passes over counts. -/
def ScanStep (pt : Proto) (pc pc' : ℕ) : Prop :=
  ∃ i, pt.code[pc]? = some i ∧ pc' = if setlistCount i then pc+2 else pc+1

def Scanned (pt : Proto) : ℕ → ℕ → Prop := Relation.ReflTransGen (ScanStep pt)

/-- The loop passes every word it comes to. -/
theorem checked_of_symbLoop {pt : Proto} {fuel pc last r : ℕ}
    (h : symbLoop pt pt.code.length NO_REG fuel pc last = some r)
    (hfuel : pt.code.length ≤ pc+fuel) {q : ℕ} (hq : Scanned pt pc q)
    (hlt : q < pt.code.length) :
    ∃ last i op s, Checked pt pt.code.length NO_REG q last i op s := by
  induction fuel generalizing pc last with
  | zero =>
    have hle (a b : ℕ) (hab : Scanned pt a b) : a ≤ b := by
      induction hab with
      | refl => exact le_refl _
      | tail _ hst ih =>
        obtain ⟨i, -, rfl⟩ := hst
        split_ifs <;> omega
    have := hle pc q hq
    omega
  | succ fuel ih =>
    rw [symbLoop] at h
    split_ifs at h with hpc
    · obtain ⟨⟨pc', last'⟩, hstep, hrest⟩ := Option.bind_eq_some_iff.mp h
      obtain ⟨i, op, hchecked⟩ := checked_of_symbStep hstep
      rcases hq.cases_head with rfl | ⟨next, ⟨j, hj, rfl⟩, hq⟩
      · exact ⟨last, i, op, _, hchecked⟩
      · -- the loop goes on where the scan does
        obtain rfl : i = j := Option.some.inj (hchecked.word.symm.trans hj)
        have hnext : pc' = if setlistCount i then pc+1 else pc := hchecked.next
        apply ih hrest
        · rw [hnext]
          split_ifs <;> omega
        · rw [hnext]
          split_ifs at hq ⊢ <;> exact hq
    · have hpq : pc ≤ q := by
        rcases hq.cases_head with rfl | ⟨next, ⟨j, hj, -⟩, -⟩
        · exact le_refl _
        · obtain ⟨hlt', -⟩ := List.getElem?_eq_some_iff.mp hj
          exact absurd hlt' hpc
      omega

/-- The code of a function that the checker accepted. -/
structure Accepted (pt : Proto) : Prop where
  nonempty : 0 < pt.code.length
  last : opAt pt (pt.code.length-1) = some OP_RETURN
  checked : ∀ pc, Scanned pt 0 pc → pc < pt.code.length →
    ∃ last i op r, Checked pt pt.code.length NO_REG pc last i op r

theorem accepted_of_checkcode {pt : Proto} (h : luaG_checkcode pt = true) : Accepted pt := by
  obtain ⟨hpre, r, hr, -⟩ := (luaG_checkcode_iff pt).mp h
  have hreturn : pt.code.getLast?.bind GET_OPCODE = some OP_RETURN := by
    simp only [precheck, decide_eq_true_eq] at hpre
    exact hpre.2.2.2
  have hpos : 0 < pt.code.length := by
    apply List.length_pos_of_ne_nil
    intro hnil
    rw [hnil] at hreturn
    cases hreturn
  refine ⟨hpos, ?_, ?_⟩
  · rw [opAt, ← List.getLast?_eq_getElem?]
    exact hreturn
  · intro pc hscan hlt
    exact checked_of_symbLoop hr (by omega) hscan hlt

/-- A position at which an instruction begins. -/
def Begins (pt : Proto) (pc : ℕ) : Prop := Scanned pt 0 pc ∧ pc < pt.code.length

/-- Every word that is not the count of an `OP_SETLIST` is scanned. -/
theorem scanned_or_count (pt : Proto) (pc : ℕ) (hpc : pc ≤ pt.code.length) :
    Scanned pt 0 pc ∨ ∃ q i, pc = q+1 ∧ Scanned pt 0 q ∧ pt.code[q]? = some i ∧
      setlistCount i = true := by
  induction pc with
  | zero => exact .inl Relation.ReflTransGen.refl
  | succ pc ih =>
    have hlt : pc < pt.code.length := hpc
    have hword : pt.code[pc]? = some pt.code[pc] := List.getElem?_eq_getElem hlt
    rcases ih hlt.le with hscan | ⟨q, i, rfl, hscan, hi, hset⟩
    · cases hset : setlistCount pt.code[pc] with
      | true => exact .inr ⟨pc, _, rfl, hscan, hword, hset⟩
      | false => exact .inl (hscan.tail ⟨_, hword, by rw [hset]; rfl⟩)
    · exact .inl (hscan.tail ⟨i, hi, by rw [hset]; rfl⟩)

/-- A jump leads to the beginning of an instruction. -/
theorem Checked.begins_jump {pt : Proto} {pc last : ℕ} {i : Instruction} {op : OpCode} {r : ℕ × ℕ}
    (hc : Checked pt pt.code.length NO_REG pc last i op r) (hm : (luaP_opmodes op).m = .iAsBx) :
    ∃ d : ℕ, jumpTarget pt pc = d ∧ Begins pt d := by
  have hb : (luaP_opmodes op).b = .OpArgR := by
    cases op <;> simp [luaP_opmodes] at hm ⊢
  have hoperands := hc.operands
  rw [checkOperands, hm] at hoperands
  simp only [hb, if_true, check_bind_eq_some, check_eq_some] at hoperands
  obtain ⟨⟨hlow, hhigh⟩, hcount⟩ := hoperands
  have htarget : jumpTarget pt pc = pc+1+GETARG_sBx i := by
    rw [jumpTarget, List.getD_eq_getElem?_getD, hc.word]
    rfl
  obtain ⟨d, hd⟩ := Int.eq_ofNat_of_zero_le hlow
  rw [hd] at hhigh hcount
  refine ⟨d, by rw [htarget, hd], ?_, by omega⟩
  rcases scanned_or_count pt d (by omega) with hscan | ⟨q, j, rfl, -, hj, hset⟩
  · exact hscan
  · have hprev : (((q+1 : ℕ) : ℤ)-1).toNat = q := by omega
    have hno := hcount (by omega)
    rw [hprev, hj] at hno
    exact absurd hset hno

section

variable {pt : Proto} (h : Accepted pt)
include h

/-- Only the last word has nothing behind it. -/
theorem Accepted.succ_lt {pc : ℕ} {i : Instruction} (hi : pt.code[pc]? = some i)
    (hop : GET_OPCODE i ≠ some OP_RETURN) : pc+1 < pt.code.length := by
  obtain ⟨hlt, -⟩ := List.getElem?_eq_some_iff.mp hi
  have hne : pc ≠ pt.code.length-1 := by
    rintro rfl
    have hlast := h.last
    rw [opAt, hi] at hlast
    exact hop hlast
  omega

theorem Accepted.begins_succ {pc : ℕ} (hpc : Scanned pt 0 pc) {op : OpCode}
    (hop : opAt pt pc = some op) (hset : op ≠ OP_SETLIST) (hret : op ≠ OP_RETURN) :
    Begins pt (pc+1) := by
  obtain ⟨i, hi, hi'⟩ := Option.bind_eq_some_iff.mp hop
  refine ⟨hpc.tail ⟨i, hi, ?_⟩, h.succ_lt hi ?_⟩
  · rw [setlistCount_eq_false hi' hset]
    rfl
  · rw [hi']
    simpa using hret

/-- Behind a test there is a jump, and an instruction behind that. -/
theorem Accepted.begins_test {pc last : ℕ} {i : Instruction} {op : OpCode} {r : ℕ × ℕ}
    (hpc : Scanned pt 0 pc) (hc : Checked pt pt.code.length NO_REG pc last i op r)
    (ht : (luaP_opmodes op).t = true) :
    (∃ d : ℕ, jumpTarget pt (pc+1) = d ∧ Begins pt d) ∧ Begins pt (pc+2) := by
  have htest := hc.test
  rw [checkTest, if_pos ht, check_eq_some] at htest
  have hop : opAt pt pc = some op := by rw [opAt, hc.word]; exact hc.opcode
  have hne : op ≠ OP_SETLIST ∧ op ≠ OP_RETURN := by
    cases op <;> simp [luaP_opmodes] at ht ⊢
  have hjump := h.begins_succ hpc hop hne.1 hne.2
  obtain ⟨last', j, op', r', hc'⟩ := h.checked _ hjump.1 hjump.2
  have hop' : op' = OP_JMP := by
    have h1 := htest.2
    rw [opAt, hc'.word] at h1
    exact Option.some.inj (hc'.opcode.symm.trans h1)
  refine ⟨hc'.begins_jump (by rw [hop']; rfl), ?_⟩
  exact h.begins_succ hjump.1 htest.2 (by decide) (by decide)

/-- The words behind an `OP_CLOSURE` are instructions too, and one follows them. -/
theorem Accepted.begins_closure {pc last : ℕ} {i : Instruction} {r : ℕ × ℕ}
    (hpc : Scanned pt 0 pc) (hc : Checked pt pt.code.length NO_REG pc last i OP_CLOSURE r) :
    ∃ f, pt.p[GETARG_Bx i]? = some f ∧
      (∀ j < f.nups, opAt pt (pc+(j+1)) = some OP_GETUPVAL ∨ opAt pt (pc+(j+1)) = some OP_MOVE) ∧
        ∀ j ≤ f.nups, Begins pt (pc+1+j) := by
  obtain ⟨last', hop⟩ := hc.op
  obtain ⟨f, hf, hop⟩ := Option.bind_eq_some_iff.mp hop
  obtain ⟨-, hop⟩ := check_bind_eq_some.mp hop
  obtain ⟨hwords, -⟩ := check_bind_eq_some.mp hop
  refine ⟨f, hf, hwords, ?_⟩
  intro j hj
  induction j with
  | zero =>
    have hopAt : opAt pt pc = some OP_CLOSURE := by rw [opAt, hc.word]; exact hc.opcode
    exact h.begins_succ hpc hopAt (by decide) (by decide)
  | succ j ih =>
    have hprev := ih (by omega)
    have heq : pc+(j+1) = pc+1+j := by omega
    have hword := hwords j (by omega)
    rw [heq] at hword
    rcases hword with hword | hword
    · exact h.begins_succ hprev.1 hword (by decide) (by decide)
    · exact h.begins_succ hprev.1 hword (by decide) (by decide)

/-- Where an instruction leads, an instruction begins. -/
theorem Accepted.begins_next (hcounts : CountsPlaced pt) {pc last : ℕ} {i : Instruction}
    {op : OpCode} {r : ℕ × ℕ} (hpc : Scanned pt 0 pc)
    (hc : Checked pt pt.code.length NO_REG pc last i op r) {next : ℤ}
    (hnext : next ∈ nextPcs pt pc i op) : ∃ d : ℕ, next = d ∧ Begins pt d := by
  have hop : opAt pt pc = some op := by rw [opAt, hc.word]; exact hc.opcode
  have hplain (hset : op ≠ OP_SETLIST) (hret : op ≠ OP_RETURN) (hn : next = pc+1) :
      ∃ d : ℕ, next = d ∧ Begins pt d :=
    ⟨pc+1, hn, h.begins_succ hpc hop hset hret⟩
  have htest (ht : (luaP_opmodes op).t = true)
      (hn : next ∈ [jumpTarget pt (pc+1), (pc : ℤ)+2]) : ∃ d : ℕ, next = d ∧ Begins pt d := by
    obtain ⟨hjump, hskip⟩ := h.begins_test hpc hc ht
    simp only [List.mem_cons, List.not_mem_nil, or_false] at hn
    rcases hn with rfl | rfl
    · exact hjump
    · exact ⟨pc+2, rfl, hskip⟩
  cases op with
  | OP_LOADBOOL =>
    simp only [nextPcs] at hnext
    split_ifs at hnext with hskip
    · rw [List.mem_singleton.mp hnext]
      obtain ⟨last', hcheck⟩ := hc.op
      obtain ⟨hlt, -⟩ := check_bind_eq_some.mp hcheck
      have hnextBegins := h.begins_succ hpc hop (by decide) (by decide)
      obtain ⟨d, hd⟩ : ∃ d, pt.code[pc+1]? = some d :=
        ⟨_, List.getElem?_eq_getElem hnextBegins.2⟩
      have hset := hcounts.not_skipped_to pc i d hc.word hc.opcode hskip hd
      exact ⟨pc+2, rfl, hnextBegins.1.tail ⟨d, hd, by rw [hset]; rfl⟩, hlt.resolve_left hskip⟩
    · exact hplain (by decide) (by decide) (List.mem_singleton.mp hnext)
  | OP_JMP | OP_FORPREP =>
    rw [List.mem_singleton.mp hnext]
    exact hc.begins_jump rfl
  | OP_FORLOOP =>
    simp only [nextPcs, List.mem_cons, List.not_mem_nil, or_false] at hnext
    rcases hnext with rfl | rfl
    · exact hc.begins_jump rfl
    · exact hplain (by decide) (by decide) rfl
  | OP_EQ | OP_LT | OP_LE | OP_TEST | OP_TESTSET | OP_TFORLOOP => exact htest rfl hnext
  | OP_RETURN => cases hnext
  | OP_SETLIST =>
    have hcount : setlistCount i = decide (GETARG_C i = 0) := by
      simp [setlistCount, hc.opcode]
    have hstep := hpc.tail ⟨i, hc.word, rfl⟩
    rw [hcount] at hstep
    simp only [nextPcs] at hnext
    split_ifs at hnext with hz
    · rw [List.mem_singleton.mp hnext]
      rw [if_pos (by simpa using hz)] at hstep
      exact ⟨pc+2, rfl, hstep, hcounts.not_last pc i hc.word (by rw [hcount]; simpa using hz)⟩
    · rw [List.mem_singleton.mp hnext]
      rw [if_neg (by simpa using hz)] at hstep
      exact ⟨pc+1, rfl, hstep, h.succ_lt hc.word (by rw [hc.opcode]; decide)⟩
  | OP_CLOSURE =>
    obtain ⟨f, hf, -, hbegins⟩ := h.begins_closure hpc hc
    rw [List.mem_singleton.mp hnext, hf]
    exact ⟨pc+1+f.nups, by simp, hbegins _ (le_refl _)⟩
  | _ => exact hplain (by decide) (by decide) (List.mem_singleton.mp hnext)

end

/-! ### Operands -/

section

variable {pt : Proto} {op : OpCode}

/-- The registers an opcode may use. -/
def limit (pt : Proto) (op : OpCode) : ℕ := pt.maxstacksize + if op = OP_TFORLOOP then 2 else 0

theorem inBounds_and {u v : Uses} :
    InBounds pt op (u.and v) ↔ InBounds pt op u ∧ InBounds pt op v := by
  constructor
  · intro h
    have hr := List.forall_mem_append.mp h.registers
    have hk := List.forall_mem_append.mp h.constants
    have hu := List.forall_mem_append.mp h.upvalues
    have hp := List.forall_mem_append.mp h.protos
    have hw := List.forall_mem_append.mp h.words
    exact ⟨⟨hr.1, hk.1, hu.1, hp.1, hw.1⟩, ⟨hr.2, hk.2, hu.2, hp.2, hw.2⟩⟩
  · rintro ⟨hu, hv⟩
    exact ⟨List.forall_mem_append.mpr ⟨hu.registers, hv.registers⟩,
      List.forall_mem_append.mpr ⟨hu.constants, hv.constants⟩,
      List.forall_mem_append.mpr ⟨hu.upvalues, hv.upvalues⟩,
      List.forall_mem_append.mpr ⟨hu.protos, hv.protos⟩,
      List.forall_mem_append.mpr ⟨hu.words, hv.words⟩⟩

theorem inBounds_reg {x : ℕ} (h : x < pt.maxstacksize) : InBounds pt op (.reg x) := by
  constructor <;> simp [Uses.reg]
  omega

theorem inBounds_regs {x n : ℕ} (h : n = 0 ∨ x+n ≤ limit pt op) :
    InBounds pt op (.regs x n) := by
  constructor <;> simp [Uses.regs]
  intro r hr hlt
  rw [limit] at h
  omega

theorem register_of_check {x : ℕ} (h : checkArgMode pt x .OpArgR = true) :
    x < pt.maxstacksize := by
  simpa [checkArgMode] using h

/-- The check of an operand that may be a constant. -/
theorem inBounds_rk {x : ℕ} (h : checkArgMode pt x .OpArgK = true) :
    InBounds pt op (.rk x) := by
  rw [checkArgMode] at h
  unfold Uses.rk
  split_ifs at h ⊢ with hk
  · constructor <;> simp_all
  · exact inBounds_reg (by simpa using h)

theorem inBounds_none : InBounds pt op {} := by
  constructor <;> simp

theorem inBounds_constant {x : ℕ} (h : x < pt.k.length) :
    InBounds pt op { constants := [x] } := by
  constructor <;> simp [h]

theorem inBounds_upvalue {x : ℕ} (h : x < pt.nups) : InBounds pt op { upvalues := [x] } := by
  constructor <;> simp [h]

theorem inBounds_word {x : ℕ} (h : x < pt.code.length) : InBounds pt op { words := [x] } := by
  constructor <;> simp [h]

/-- What the checks of the operands say of an instruction with two operands. -/
theorem Checked.operands_iABC {lastpc reg pc last : ℕ} {i : Instruction} {r : ℕ × ℕ}
    (hc : Checked pt lastpc reg pc last i op r) (hm : (luaP_opmodes op).m = .iABC) :
    checkArgMode pt (GETARG_B i) (luaP_opmodes op).b = true ∧
      checkArgMode pt (GETARG_C i) (luaP_opmodes op).c = true := by
  have h := hc.operands
  rw [checkOperands, hm] at h
  simpa only [check_bind_eq_some, check_eq_some] using h

theorem Checked.operands_iABx {lastpc reg pc last : ℕ} {i : Instruction} {r : ℕ × ℕ}
    (hc : Checked pt lastpc reg pc last i op r) (hm : (luaP_opmodes op).m = .iABx)
    (hb : (luaP_opmodes op).b = .OpArgK) : GETARG_Bx i < pt.k.length := by
  have h := hc.operands
  rw [checkOperands, hm] at h
  exact check_eq_some.mp h hb

end

/-- An instruction that was checked uses no place outside of the vectors of its function. -/
theorem Accepted.inBounds {pt : Proto} (h : Accepted pt) {pc last : ℕ} {i : Instruction}
    {op : OpCode} {r : ℕ × ℕ} (hpc : Scanned pt 0 pc)
    (hc : Checked pt pt.code.length NO_REG pc last i op r) :
    InBounds pt op (uses pt pc i op) := by
  have ha : InBounds pt op (.reg (GETARG_A i)) := inBounds_reg hc.a
  have hABC := hc.operands_iABC
  obtain ⟨last', hop⟩ := hc.op
  cases op with
  | OP_MOVE | OP_UNM | OP_NOT | OP_LEN =>
    exact inBounds_and.mpr ⟨ha, inBounds_reg (register_of_check (hABC rfl).1)⟩
  | OP_LOADK => exact inBounds_and.mpr ⟨ha, inBounds_constant (hc.operands_iABx rfl rfl)⟩
  | OP_LOADBOOL | OP_NEWTABLE | OP_CLOSE => exact ha
  | OP_LOADNIL =>
    have hb : GETARG_B i < pt.maxstacksize := register_of_check (hABC rfl).1
    exact inBounds_and.mpr ⟨inBounds_reg hb, inBounds_regs (by simp only [limit]; omega)⟩
  | OP_GETUPVAL | OP_SETUPVAL =>
    obtain ⟨hb, -⟩ := check_bind_eq_some.mp hop
    exact inBounds_and.mpr ⟨ha, inBounds_upvalue hb⟩
  | OP_GETGLOBAL | OP_SETGLOBAL =>
    exact inBounds_and.mpr ⟨ha, inBounds_constant (hc.operands_iABx rfl rfl)⟩
  | OP_GETTABLE =>
    have hb : GETARG_B i < pt.maxstacksize := register_of_check (hABC rfl).1
    exact inBounds_and.mpr ⟨ha, inBounds_and.mpr ⟨inBounds_reg hb, inBounds_rk (hABC rfl).2⟩⟩
  | OP_SETTABLE | OP_ADD | OP_SUB | OP_MUL | OP_DIV | OP_MOD | OP_POW =>
    exact inBounds_and.mpr ⟨ha, inBounds_and.mpr ⟨inBounds_rk (hABC rfl).1,
      inBounds_rk (hABC rfl).2⟩⟩
  | OP_SELF =>
    have hb : GETARG_B i < pt.maxstacksize := register_of_check (hABC rfl).1
    obtain ⟨ha1, -⟩ := check_bind_eq_some.mp hop
    exact inBounds_and.mpr ⟨inBounds_regs (by simp only [limit]; omega),
      inBounds_and.mpr ⟨inBounds_reg hb, inBounds_rk (hABC rfl).2⟩⟩
  | OP_CONCAT =>
    have hcReg : GETARG_C i < pt.maxstacksize := register_of_check (hABC rfl).2
    exact inBounds_and.mpr ⟨ha, inBounds_regs (by simp only [limit]; omega)⟩
  | OP_JMP => exact inBounds_none
  | OP_EQ | OP_LT | OP_LE =>
    exact inBounds_and.mpr ⟨inBounds_and.mpr ⟨inBounds_rk (hABC rfl).1, inBounds_rk (hABC rfl).2⟩,
      inBounds_word (by have := (h.begins_test hpc hc rfl).2.2; omega)⟩
  | OP_TEST =>
    exact inBounds_and.mpr ⟨ha, inBounds_word (by have := (h.begins_test hpc hc rfl).2.2; omega)⟩
  | OP_TESTSET =>
    have hb : GETARG_B i < pt.maxstacksize := register_of_check (hABC rfl).1
    exact inBounds_and.mpr ⟨inBounds_and.mpr ⟨ha, inBounds_reg hb⟩,
      inBounds_word (by have := (h.begins_test hpc hc rfl).2.2; omega)⟩
  | OP_CALL | OP_TAILCALL =>
    obtain ⟨hargs, hop⟩ := check_bind_eq_some.mp hop
    obtain ⟨hresults, -⟩ := check_bind_eq_some.mp hop
    refine inBounds_and.mpr ⟨ha, inBounds_and.mpr ⟨inBounds_regs ?_, inBounds_regs ?_⟩⟩
    · simp only [limit]
      omega
    · by_cases hopen : GETARG_C i = 0
      · omega
      · rw [LUA_MULTRET, if_neg (by omega)] at hresults
        simp only [limit]
        omega
  | OP_RETURN =>
    obtain ⟨hresults, -⟩ := check_bind_eq_some.mp hop
    exact inBounds_regs (by simp only [limit]; omega)
  | OP_FORLOOP | OP_FORPREP =>
    obtain ⟨ha3, -⟩ := check_bind_eq_some.mp hop
    exact inBounds_regs (by simp only [limit]; omega)
  | OP_TFORLOOP =>
    obtain ⟨hc1, hop⟩ := check_bind_eq_some.mp hop
    obtain ⟨hresults, -⟩ := check_bind_eq_some.mp hop
    refine inBounds_and.mpr ⟨inBounds_and.mpr ⟨inBounds_regs ?_, inBounds_regs ?_⟩,
      inBounds_word (by have := (h.begins_test hpc hc rfl).2.2; omega)⟩
    · simp only [limit, if_true]
      omega
    · simp only [limit, if_true]
      omega
  | OP_SETLIST =>
    obtain ⟨hitems, -⟩ := check_bind_eq_some.mp hop
    have hregs : InBounds pt OP_SETLIST (.regs (GETARG_A i) (GETARG_B i+1)) :=
      inBounds_regs (by have := hc.a; simp only [limit]; omega)
    refine inBounds_and.mpr ⟨hregs, ?_⟩
    split_ifs
    · exact inBounds_word (h.succ_lt hc.word (by rw [hc.opcode]; decide))
    · exact inBounds_none
  | OP_CLOSURE =>
    obtain ⟨f, hf, hwords, hbegins⟩ := h.begins_closure hpc hc
    have hproto : GETARG_Bx i < pt.p.length := (List.getElem?_eq_some_iff.mp hf).1
    -- what is captured was checked as an instruction
    have hcaptured (d : Instruction) (hd : d ∈ (List.range' (pc+1) f.nups).map
        (fun w => pt.code.getD w 0)) :
        (GET_OPCODE d = some OP_GETUPVAL → GETARG_B d < pt.nups) ∧
          (GET_OPCODE d ≠ some OP_GETUPVAL → GETARG_B d < pt.maxstacksize) := by
      obtain ⟨w, hw, rfl⟩ := List.mem_map.mp hd
      obtain ⟨j, hj, rfl⟩ := List.mem_range'.mp hw
      rw [Nat.one_mul]
      obtain ⟨hscan, hlt⟩ := hbegins j hj.le
      obtain ⟨last'', e, op, r', hc'⟩ := h.checked _ hscan hlt
      have heq : pc+(j+1) = pc+1+j := by omega
      have hop' := hwords j hj
      rw [heq, opAt, hc'.word] at hop'
      rw [List.getD_eq_getElem?_getD, hc'.word, Option.getD_some, hc'.opcode]
      have hop'' : op = OP_GETUPVAL ∨ op = OP_MOVE := by
        simpa [hc'.opcode] using hop'
      rcases hop'' with rfl | rfl
      · obtain ⟨l, hup⟩ := hc'.op
        exact ⟨fun _ => (check_bind_eq_some.mp hup).1, fun hne => absurd rfl hne⟩
      · exact ⟨fun heq => by simp at heq,
          fun _ => register_of_check (hc'.operands_iABC rfl).1⟩
    have hnups : (pt.p[GETARG_Bx i]?.map Proto.nups).getD 0 = f.nups := by rw [hf]; rfl
    simp only [uses, hnups]
    refine inBounds_and.mpr ⟨ha, ?_⟩
    constructor
    · intro x hx
      obtain ⟨d, hd, rfl⟩ := List.mem_map.mp hx
      obtain ⟨hd, hne⟩ := List.mem_filter.mp hd
      exact Nat.lt_of_lt_of_le ((hcaptured d hd).2 (by simpa using hne)) (Nat.le_add_right _ _)
    · simp
    · intro x hx
      obtain ⟨d, hd, rfl⟩ := List.mem_map.mp hx
      obtain ⟨hd, heq⟩ := List.mem_filter.mp hd
      exact (hcaptured d hd).1 (by simpa using heq)
    · simp [hproto]
    · intro w hw
      obtain ⟨j, hj, rfl⟩ := List.mem_range'.mp hw
      rw [Nat.one_mul]
      exact (hbegins j hj.le).2
  | OP_VARARG =>
    obtain ⟨-, hop⟩ := check_bind_eq_some.mp hop
    obtain ⟨-, hop⟩ := check_bind_eq_some.mp hop
    obtain ⟨hresults, -⟩ := check_bind_eq_some.mp hop
    exact inBounds_and.mpr ⟨ha, inBounds_regs (by simp only [limit]; omega)⟩

theorem fetch_of_checked {pt : Proto} {lastpc reg pc last : ℕ} {i : Instruction} {op : OpCode}
    {r : ℕ × ℕ} (hc : Checked pt lastpc reg pc last i op r) :
    fetch pt pc = some (pc, i, op) := by
  simp [fetch, hc.word, hc.opcode]

/-- In code that the checker accepted, with the counts of `OP_SETLIST` where the compiler puts
them, every position that a call of the function executes holds an instruction, which uses
no place outside of the vectors of the function. -/
theorem accepted_code_stays_inside (pt : Proto) (hcheck : luaG_checkcode pt = true)
    (hcounts : CountsPlaced pt) (pc : ℤ) (hpc : Executed pt pc) :
    ∃ n i op, fetch pt pc = some (n, i, op) ∧ InBounds pt op (uses pt n i op) := by
  have h := accepted_of_checkcode hcheck
  have hbegins : ∃ d : ℕ, pc = d ∧ Begins pt d := by
    induction hpc with
    | refl => exact ⟨0, rfl, Relation.ReflTransGen.refl, h.nonempty⟩
    | tail _ hstep ih =>
      obtain ⟨d, rfl, hscan, hlt⟩ := ih
      obtain ⟨n, i, op, hfetch, hnext⟩ := hstep
      obtain ⟨last, j, op', r, hc⟩ := h.checked d hscan hlt
      rw [fetch_of_checked hc] at hfetch
      obtain ⟨rfl, rfl, rfl⟩ : d = n ∧ j = i ∧ op' = op := by simpa using hfetch
      exact h.begins_next hcounts hscan hc hnext
  obtain ⟨d, rfl, hscan, hlt⟩ := hbegins
  obtain ⟨last, i, op, r, hc⟩ := h.checked d hscan hlt
  exact ⟨d, i, op, fetch_of_checked hc, h.inBounds hscan hc⟩

/-- Code without such counts has them in place. -/
theorem countsPlaced_of_none {pt : Proto} (h : pt.code.any setlistCount = false) :
    CountsPlaced pt := by
  have hnone (pc : ℕ) (d : Instruction) (hd : pt.code[pc]? = some d) : setlistCount d = false := by
    simpa using List.any_eq_false.mp h d (List.mem_of_getElem? hd)
  refine ⟨?_, ?_⟩
  · intro pc d hd hset
    rw [hnone pc d hd] at hset
    cases hset
  · intro pc i d _ _ _ hd
    exact hnone (pc+1) d hd

/-- `OP_LOADK`, `OP_JMP` back to it, `OP_RETURN`. -/
def endlessLoop : Proto where
  k := [.nil]
  code := [1, 2147434518, 8388638]
  p := []
  lineinfo := []
  locvars := []
  upvalues := []
  source := txt "@loop.lua"
  linedefined := 0
  lastlinedefined := 0
  nups := 0
  numparams := 0
  is_vararg := 0
  maxstacksize := 2

theorem accepted_code_stays_inside_endlessLoop :
    ∃ n i op, fetch endlessLoop 1 = some (n, i, op) ∧
      InBounds endlessLoop op (uses endlessLoop n i op) := by
  apply accepted_code_stays_inside endlessLoop (by decide +kernel)
    (countsPlaced_of_none (by decide +kernel))
  exact .single ⟨0, 1, .OP_LOADK, by decide +kernel, by decide +kernel⟩

/-- Without the condition: the last word is taken for a count, and the code is left. -/
example : luaG_checkcode { endlessLoop with code := [34, 8388638] } = true ∧
    nextPcs { endlessLoop with code := [34, 8388638] } 0 34 .OP_SETLIST = [2] := by
  decide +kernel

end LuaIde
