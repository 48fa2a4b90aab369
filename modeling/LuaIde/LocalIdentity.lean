import LuaIde.PdaModel
import LuaIde.Requests

/-! From a listed local to the register its value is read from: the request names the
local, ldb takes the words of the request and searches the record for the name. -/
namespace LuaIde

open LineText DecimalText Delimited

/-- The locals `ideStackTrace` lists, with the numbers `lua_getlocal` knows them by. -/
def listedLocals (ls : List (Text × LuaValue)) (n : ℕ) : List (ℕ × Text × LuaValue) :=
  match ls with
  | [] => []
  | (name, v) :: ls =>
    if name = temporaryName then listedLocals ls (n+1)
    else (n, name, v) :: listedLocals ls (n+1)

/-- The local the words of a `var` command make ldb answer for, and the number of the
record it is in. -/
def lookedUp (L : LuaState) (args : List Text) : Option (ℤ × ℕ × Text × LuaValue) := do
  let frameNumber ← args[0]?
  let var ← args[1]?
  let level ← L.getstack (atoi frameNumber).val
  let x ← firstLocal var 1 (L.getlocals level)
  return ((atoi frameNumber).val, x)

/-- The record and the local number whose value the text is made from. A boolean is read
at the stack slot behind the number of the local: a register of the hooked function, or
the pushed value if that is where the slot lies, or nothing. -/
def readFrom (L : LuaState) (record : ℤ) (n : ℕ) : LuaValue → Option (ℤ × ℕ)
  | .boolean _ =>
    if n < L.stack.length then some (0, n+1)
    else if n = L.stack.length then some (record, n)
    else none
  | _ => some (record, n)

/-- ldb replies to the request with a text made from that local of that record. -/
def readsLocal (L : LuaState) (d : Ldb) (request : Text) (k n : ℕ) : Prop :=
  ∃ r pCmd args name v, handle .ide L d (cstr (request ++ ['\n'])) = .ok r ∧
    r.reply = localText L n name v ++ ['\n'] ∧
    commandWords (cstr (request ++ ['\n'])) = pCmd :: args ∧
    lookedUp L args = some ((k : ℤ), n, name, v) ∧ readFrom L k n v = some ((k : ℤ), n)

theorem listedLocals_getElem {ls : List (Text × LuaValue)} {n i m : ℕ} {name : Text}
    {v : LuaValue} (h : (listedLocals ls n)[i]? = some (m, name, v)) :
    ∃ j, m = n + j ∧ ls[j]? = some (name, v) := by
  induction ls generalizing n i with
  | nil => simp [listedLocals] at h
  | cons x ls ih =>
    obtain ⟨a, w⟩ := x
    rw [listedLocals] at h
    split_ifs at h with ha
    · obtain ⟨j, rfl, hj⟩ := ih h
      exact ⟨j+1, by omega, hj⟩
    · cases i with
      | zero =>
        simp only [List.getElem?_cons_zero, Option.some.injEq, Prod.mk.injEq] at h
        obtain ⟨rfl, rfl, rfl⟩ := h
        exact ⟨0, rfl, rfl⟩
      | succ i =>
        obtain ⟨j, rfl, hj⟩ := ih h
        exact ⟨j+1, by omega, hj⟩

/-- The words of a `var` request that ldb takes for the name. -/
def nameWord (k : ℕ) (name : Text) : Option Text :=
  (wordsWithin (154 - (ofInt k).length) (name ++ ['\n']))[0]?

theorem nameWord_eq_iff (k : ℕ) (hk : k ≤ 2147483647) (name : Text) :
    nameWord k name = some name ↔
      name ≠ [] ∧ (∀ c ∈ name, plain c) ∧ (ofInt k).length + name.length ≤ 154 := by
  have hlen := ofInt_length_le ⟨k, by omega, by omega⟩
  simp only at hlen
  constructor
  · intro h
    obtain ⟨hne, hblank, hsub⟩ := mem_words ' ' _ name (List.mem_of_getElem? h)
    -- the line is cut at the line end, and before that at the end of the line buffer
    have hline := hsub.trans (List.takeWhile_prefix _).sublist
    have hbuffer := hline.trans (List.takeWhile_prefix _).sublist
    have hcstr := hbuffer.trans (List.take_prefix _ _).sublist
    refine ⟨hne, ?_, ?_⟩
    · intro c hc
      refine ⟨?_, ?_, ?_, ?_⟩
      · rintro rfl
        exact hblank hc
      · have hc' := List.mem_takeWhile_imp (hline.subset hc)
        simpa using hc'
      · have hc' := List.mem_takeWhile_imp (hsub.subset hc)
        simpa using hc'
      · rintro rfl
        exact zero_not_mem_cstr _ (hcstr.subset hc)
    · have hl := hbuffer.length_le
      rw [List.length_take] at hl
      omega
  · rintro ⟨hne, hplain, hle⟩
    rw [nameWord, wordsWithin_last _ name [] hplain hne (by omega)]
    rfl

/-- A name that is still the same behind the words of the request: no blank, no line end
and no zero byte in it, not empty, and short enough for `line` to hold it and to be ended. -/
def Survives (d : Ldb) (k : ℕ) (name : Text) : Prop :=
  name ≠ [] ∧ (∀ c ∈ name, plain c) ∧ (ofInt k).length + name.length ≤ 154 ∧
    ((ofInt k).length + name.length = 154 → d.lineEnded = true)

theorem plain_varRequest {k : ℕ} {name : Text} (h : ∀ c ∈ name, plain c) :
    '\x00' ∉ PDAVariable.varRequest k name ∧ '\n' ∉ PDAVariable.varRequest k name := by
  have hk := plain_ofInt k
  have hlit : ('\x00' ∉ txt "var " ∧ '\n' ∉ txt "var ") ∧ '\x00' ∉ txt " " ∧ '\n' ∉ txt " " := by
    decide
  simp only [PDAVariable.varRequest, List.mem_append, hlit, false_or]
  constructor
  · rintro (hc | hc)
    · exact (hk _ hc).2.2.2 rfl
    · exact (h _ hc).2.2.2 rfl
  · rintro (hc | hc)
    · exact (hk _ hc).2.1 rfl
    · exact (h _ hc).2.1 rfl

/-- The request is ended in `line` and its last word is the name. -/
theorem survives_iff (d : Ldb) (k : ℕ) (hk : k ≤ 2147483647) (name : Text) :
    (¬ unterminated .ide d (cstr (PDAVariable.varRequest k name ++ ['\n'])) ∧
      nameWord k name = some name) ↔ Survives d k name := by
  rw [nameWord_eq_iff k hk]
  have hlen : (PDAVariable.varRequest k name).length = 5 + (ofInt k).length + name.length := by
    simp only [PDAVariable.varRequest, List.length_append, txt]
    simp only [String.length_toList]
    have hlit : "var ".length = 4 ∧ " ".length = 1 := by decide
    omega
  constructor
  · rintro ⟨hend, hne, hplain, hle⟩
    obtain ⟨hz, hn⟩ := plain_varRequest (k := k) hplain
    rw [unterminated_line d hz hn, hlen] at hend
    refine ⟨hne, hplain, hle, fun hfull => ?_⟩
    by_contra hended
    exact hend ⟨by omega, by simpa using hended⟩
  · rintro ⟨hne, hplain, hle, hended⟩
    obtain ⟨hz, hn⟩ := plain_varRequest (k := k) hplain
    rw [unterminated_line d hz hn, hlen]
    refine ⟨fun hu => ?_, hne, hplain, hle⟩
    have hset := hended (by omega)
    rw [hu.2] at hset
    cases hset

/-- The `i`-th listed local is the one its variable is shown with, and the arrays have room
for its value. -/
def Identified (L : LuaState) (d : Ldb) (level : Level) (k n : ℕ) (name : Text) (v : LuaValue) :
    Prop :=
  Survives d k name ∧ (∀ x ∈ (L.getlocals level).take (n-1), x.1 ≠ name) ∧
    (∀ b, v = .boolean b → n = L.stack.length) ∧ localRoom .declared L n name v

theorem readFrom_eq_iff (L : LuaState) (k n : ℕ) (v : LuaValue) :
    readFrom L k n v = some ((k : ℤ), n) ↔ ∀ b, v = .boolean b → n = L.stack.length := by
  cases v with
  | boolean b =>
    simp only [readFrom, LuaValue.boolean.injEq, forall_eq']
    split_ifs with hlt he
    · constructor
      · intro h
        simp at h
      · omega
    · simp [he]
    · simp [he]
  | _ => simp [readFrom]

theorem words_varRequest (k : ℕ) (hk : k ≤ 2147483647) (name : Text) :
    commandWords (cstr (PDAVariable.varRequest k name ++ ['\n'])) = txt "var" :: ofInt k ::
      wordsWithin (154 - (ofInt k).length) (name ++ ['\n']) := by
  rw [commandWords_cstr]
  exact words_var ⟨k, by omega, by omega⟩ name

/-- What ldb replies to the request: the text `varText` gives for the name it found in it. -/
theorem reply_varRequest (L : LuaState) (d : Ldb) (k : ℕ) (hk : k ≤ 2147483647) (name t : Text) :
    (∃ r, handle .ide L d (cstr (PDAVariable.varRequest k name ++ ['\n'])) = .ok r ∧
        r.reply = t ++ ['\n']) ↔
      ¬ unterminated .ide d (cstr (PDAVariable.varRequest k name ++ ['\n'])) ∧
        varRoom .declared L k (nameWord k name) ∧ t = varText L k (nameWord k name) := by
  have hwords := words_varRequest k hk name
  have hatoi : (atoi (ofInt k)).val = k := by
    have h := atoi_ofInt ⟨k, by omega, by omega⟩
    exact congrArg CInt.val h
  have hd : dispatch (txt "var") = .varForIde := by decide
  have hne : lineBuffer (cstr (PDAVariable.varRequest k name ++ ['\n'])) ≠ [] := by
    intro hnil
    rw [commandWords, hnil] at hwords
    have hnone : words ' ' (commandLine []) = [] := by decide
    rw [hnone] at hwords
    cases hwords
  by_cases hu : unterminated .ide d (cstr (PDAVariable.varRequest k name ++ ['\n']))
  · simp [handle, hne, hu]
  · rw [handle_eq .ide L d _ hne hu, hwords]
    have hcompletes (d : Ldb) : completes L d .varForIde
        (ofInt k :: wordsWithin (154 - (ofInt k).length) (name ++ ['\n'])) ↔
          varRoom .declared L k (nameWord k name) := by
      simp [completes, hatoi, nameWord]
    have hanswer (d : Ldb) : answerText L d (txt "var")
        (ofInt k :: wordsWithin (154 - (ofInt k).length) (name ++ ['\n'])) =
          some (varText L k (nameWord k name)) := by
      simp [answerText, hd, hatoi, nameWord]
    simp only [execute_eq_ok, hd, hcompletes, hanswer, hu, not_false_eq_true, true_and, toIde,
      Option.map_some, Option.getD_some]
    constructor
    · rintro ⟨r, ⟨hroom, rfl⟩, hreply⟩
      exact ⟨hroom, (List.append_cancel_right hreply).symm⟩
    · rintro ⟨hroom, rfl⟩
      exact ⟨_, ⟨hroom, rfl⟩, rfl⟩

/-- The variable of the `i`-th listed local of record `k` shows that local, exactly when the
name is one word of the request, no earlier local of the record has it, a boolean is in the
last register, and there is room for the value. -/
theorem readsLocal_iff (L : LuaState) (d : Ldb) (k i n : ℕ) (level : Level) (name : Text)
    (v : LuaValue) (hk : k ≤ 2147483647) (hlevel : L.levels[k]? = some level)
    (hlisted : (listedLocals (L.getlocals level) 1)[i]? = some (n, name, v)) :
    readsLocal L d (PDAVariable.varRequest k name) k n ↔ Identified L d level k n name v := by
  obtain ⟨j, rfl, hj⟩ := listedLocals_getElem hlisted
  have hwords := words_varRequest k hk name
  have hatoi : (atoi (ofInt k)).val = k := by
    have h := atoi_ofInt ⟨k, by omega, by omega⟩
    exact congrArg CInt.val h
  have hstack : L.getstack k = some level := by
    rw [LuaState.getstack, if_neg (by omega), Int.toNat_natCast, hlevel]
  have hlook (args : List Text) (x : ℕ × Text × LuaValue) :
      lookedUp L (ofInt k :: args) = some ((k : ℤ), x) ↔
        ∃ var, args[0]? = some var ∧ firstLocal var 1 (L.getlocals level) = some x := by
    simp [lookedUp, hatoi, hstack, Option.bind_eq_some_iff]
  have hwanted (var : Text) :
      wantedLocal L k (some var) = firstLocal var 1 (L.getlocals level) := by
    simp [wantedLocal, hstack]
  have htake : 1 + j - 1 = j := by omega
  rw [Identified, htake, ← survives_iff d k hk]
  constructor
  · -- the number of the local found is `n`, so it is this local, found under this name
    rintro ⟨r, pCmd, args, name', v', hok, hreply, hargs, hfound, hread⟩
    obtain ⟨rfl, rfl⟩ := List.cons.inj (hwords.symm.trans hargs)
    obtain ⟨hend, hroom, -⟩ := (reply_varRequest L d k hk name _).mp ⟨r, hok, hreply⟩
    obtain ⟨var, hvar, hf⟩ := (hlook _ _).mp hfound
    obtain ⟨j', hjj, hget, rfl, hfirst⟩ := firstLocal_getElem hf
    obtain rfl : j = j' := by omega
    obtain ⟨rfl, rfl⟩ : name = var ∧ v = v' := by simpa using hj.symm.trans hget
    have hname : nameWord k name = some name := hvar
    rw [hname] at hroom
    exact ⟨⟨hend, hvar⟩, hfirst, (readFrom_eq_iff L k _ v).mp hread,
      hroom.2.2 _ _ _ ((hwanted name).trans hf)⟩
  · -- the first local of this name is the one that is listed, and its text has room
    rintro ⟨⟨hend, hword⟩, hfirst, hbool, hroom⟩
    have hf : firstLocal name 1 (L.getlocals level) = some (1 + j, name, v) :=
      firstLocal_of_getElem hj hfirst
    have htext : varText L k (nameWord k name) = localText L (1 + j) name v := by
      rw [hword, varText, hwanted, hf]
    have hfits : varRoom .declared L k (nameWord k name) := by
      refine ⟨by decide, fun _ _ => .inl (by simp [hword]), ?_⟩
      intro i' name' v' h
      rw [hword, hwanted, hf] at h
      obtain ⟨rfl, rfl, rfl⟩ : 1 + j = i' ∧ name = name' ∧ v = v' := by simpa using h
      exact hroom
    obtain ⟨r, hok, hreply⟩ := (reply_varRequest L d k hk name _).mpr ⟨hend, hfits, htext.symm⟩
    exact ⟨r, _, _, name, v, hok, hreply, hwords, (hlook _ _).mpr ⟨name, hword, hf⟩,
      (readFrom_eq_iff L k _ v).mpr hbool⟩

/-- `local x = "outer"; local x = "inner"`, stopped behind both. -/
def shadowing : LuaState :=
  (LuaState.mainChunk (txt "@a.lua") 3).withLocals
    [(txt "x", .string (txt "outer")), (txt "x", .string (txt "inner"))]

/-- The second of the two variables listed is answered from the first local. -/
theorem shadowing_misread :
    (listedLocals (shadowing.getlocals (.lua shadowing.hooked)) 1)[1]? =
        some (2, txt "x", .string (txt "inner")) ∧
      ¬ readsLocal shadowing (.initial fun _ => []) (PDAVariable.varRequest 0 (txt "x")) 0 2 := by
  refine ⟨by decide +kernel, ?_⟩
  rintro ⟨-, pCmd, args, name, v, -, -, hargs, hfound, -⟩
  have hwords : commandWords (cstr (PDAVariable.varRequest 0 (txt "x") ++ ['\n'])) =
      [txt "var", txt "0", txt "x"] := by decide +kernel
  have hlook : lookedUp shadowing [txt "0", txt "x"] =
      some (0, 1, txt "x", .string (txt "outer")) := by decide +kernel
  obtain ⟨rfl, rfl⟩ := List.cons.inj (hwords.symm.trans hargs)
  have hnumber := (hlook.symm.trans hfound)
  simp at hnumber

theorem readsLocal_outer :
    readsLocal shadowing (.initial fun _ => []) (PDAVariable.varRequest 0 (txt "x")) 0 1 := by
  apply (readsLocal_iff shadowing (.initial fun _ => []) 0 0 1 (.lua shadowing.hooked) (txt "x")
    (.string (txt "outer")) (by decide) rfl (by decide +kernel)).mpr
  refine ⟨⟨by decide, plain_of_all (by decide), by decide⟩, by simp, by simp, ?_⟩
  exact ⟨by decide, by decide⟩

end LuaIde
