import LuaIde.ReplyTexts
import Mathlib.Data.List.Range

/-! `errormessage`: the traceback ldb prints for a script that ends in an error, and the levels
`lua_getstack` finds for it. -/
namespace LuaIde

open LineText DecimalText CheckedFold

/-- The fields of `lua_Debug` that `errormessage` reads. -/
structure LuaDebug where
  short_src : Text
  currentline : ℤ
  namewhat : Text
  name : Text
  what : Text
  linedefined : ℤ

/-- `info_tailcall`. -/
def LuaDebug.tailcall : LuaDebug where
  short_src := txt "(tail call)"
  currentline := -1
  namewhat := []
  name := []
  what := txt "tail"
  linedefined := -1

/-- A call on the stack, with what `lua_getinfo` stores for it. -/
structure CallInfo where
  isLua : Bool
  tailcalls : ℕ
  info : LuaDebug

namespace CallInfo

/-- The calls that `lua_getstack` does not find any more. -/
def lost (ci : CallInfo) : ℕ := if ci.isLua then ci.tailcalls else 0

/-- All levels of a stack of calls, the innermost call first. -/
def levels (cis : List CallInfo) : List LuaDebug :=
  cis.flatMap (fun ci => ci.info :: List.replicate ci.lost .tailcall)

end CallInfo

namespace Traceback

/-- `lua_getstack` and the record of the level it has found. -/
def lua_getstack : List CallInfo → ℤ → Option LuaDebug
  | [], level => if level < 0 then some .tailcall else none
  | ci :: cis, level =>
    if level > 0 then lua_getstack cis (level - 1 - ci.lost)
    else if level = 0 then some ci.info
    else some .tailcall

/-- `%4d-  `. -/
def label (level : ℕ) : Text :=
  let digits := ofInt level
  List.replicate (4 - digits.length) ' ' ++ (digits ++ txt "-  ")

/-- The `switch (*ar.namewhat)`. -/
def functionText (ar : LuaDebug) : Text :=
  let short_src := cstr ar.short_src
  match (cstr ar.namewhat).head? with
  | some 'g' | some 'l' | some 'f' | some 'm' =>
    txt " in function \x60" ++ (cstr ar.name ++ txt "\x27")
  | _ =>
    match (cstr ar.what).head? with
    | some 'm' => txt " in main chunk"
    | some 'C' => short_src
    | _ => txt " in function <" ++ (short_src ++ (txt ":" ++ (ofInt ar.linedefined ++ txt ">")))

/-- What is pushed for a level behind its label. -/
def pushInfo (ar : LuaDebug) : List Text :=
  [cstr ar.short_src ++ txt ":"] ++
    (if ar.currentline > 0 then [ofInt ar.currentline ++ txt ":"] else []) ++ [functionText ar]

def levels1 : ℕ := 12
def levels2 : ℕ := 10

/-- `lua_concat(L, lua_gettop(L))` on a stack of strings. -/
def lua_concat (stack : List Text) : List Text := [stack.flatten]

/-- The inner loop, that looks for the last levels. -/
def skipLevels (cis : List CallInfo) : ℕ → ℕ → Except Fault ℕ
  | 0, _ => .error .endless
  | fuel + 1, level =>
    match lua_getstack cis (level + levels2) with
    | some _ => skipLevels cis fuel (level + 1)
    | none => .ok level

/-- The pushes for a level in the array `buff[10]` and behind it. -/
def pushLevel (stack : List Text) (level : ℕ) (ar : LuaDebug) : Except Fault (List Text) := do
  let buff ← sprintf (some 10) (label level)
  return lua_concat (stack ++ [buff] ++ pushInfo ar ++ [txt "\n"])

/-- The outer loop. `level` is its value in front of the test, that adds 1 to it. -/
def whileLevels (cis : List CallInfo) : ℕ → ℕ → Bool → List Text → Except Fault (List Text)
  | 0, _, _, _ => .error .endless
  | fuel + 1, level, firstpart, stack =>
    match lua_getstack cis level with
    | none => .ok stack
    | some ar =>
      let level := level + 1
      if level > levels1 ∧ firstpart then
        match lua_getstack cis (level + levels2) with
        | none => whileLevels cis fuel (level - 1) false stack
        | some _ => do
          let level ← skipLevels cis fuel level
          whileLevels cis fuel level false (stack ++ [txt "       ...\n"])
      else do
        let stack ← pushLevel stack (level - 1) ar
        whileLevels cis fuel level firstpart stack

/-- `printf` of a format without arguments. A conversion reads an argument that nobody has
passed. -/
def printf : Text → Except Fault Text
  | [] => .ok []
  | '\x00' :: _ => .ok []
  | '%' :: '%' :: s => do return '%' :: (← printf s)
  | '%' :: _ => .error .uninitialised
  | c :: s => do return c :: (← printf s)

/-- `LuaDebugger::OutputTop`. -/
def OutputTop (top : Text) : Except Fault Text := do
  return (← printf top) ++ txt "\n"

/-- `LuaDebugger::errormessage` with a string at index 1: what it prints. -/
def errormessage (fuel : ℕ) (cis : List CallInfo) (message : Text) : Except Fault Text := do
  let stack ← whileLevels cis fuel 1 true [message, txt "\n", txt "stack traceback:\n"]
  OutputTop (lua_concat stack).flatten

theorem lua_getstack_neg (cis : List CallInfo) {level : ℤ} (h : level < 0) :
    lua_getstack cis level = some .tailcall := by
  cases cis with
  | nil => rw [lua_getstack, if_pos h]
  | cons ci cis => rw [lua_getstack, if_neg (by omega), if_neg (by omega)]

/-- `lua_getstack` finds the levels of the stack, one by one. -/
theorem lua_getstack_eq (cis : List CallInfo) (level : ℕ) :
    lua_getstack cis level = (CallInfo.levels cis)[level]? := by
  induction cis generalizing level with
  | nil => simp [lua_getstack, CallInfo.levels]
  | cons ci cis ih =>
    have hcons : CallInfo.levels (ci :: cis) =
        ci.info :: (List.replicate ci.lost .tailcall ++ CallInfo.levels cis) := rfl
    rw [lua_getstack, hcons]
    cases level with
    | zero => simp
    | succ level =>
      rw [if_pos (by omega), List.getElem?_cons_succ]
      by_cases hlost : level < ci.lost
      · -- the level is one of a lost tail call
        rw [lua_getstack_neg cis (by omega), List.getElem?_append_left (by simpa using hlost)]
        simp [hlost]
      · have hcast : ((level + 1 : ℕ) : ℤ) - 1 - ci.lost = ((level - ci.lost : ℕ) : ℤ) := by omega
        rw [hcast, ih, List.getElem?_append_right (by simpa using hlost), List.length_replicate]

theorem lua_getstack_add (cis : List CallInfo) (level n : ℕ) :
    lua_getstack cis ((level : ℤ) + n) = (CallInfo.levels cis)[level + n]? := by
  rw [← lua_getstack_eq, Int.natCast_add]

/-- What the traceback shows for one thing it has selected. -/
inductive Entry where
  | level (n : ℕ)
  | ellipsis
deriving DecidableEq

/-- All levels but the first, or the first eleven of them and the last ten. -/
def selected (n : ℕ) : List Entry :=
  if n ≤ 23 then (List.range' 1 (n - 1)).map .level
  else (List.range' 1 11).map .level ++ .ellipsis :: (List.range' (n - 10) 10).map .level

/-- The number of a level, the ellipsis left out. -/
def Entry.number : Entry → Option ℕ
  | .level n => some n
  | .ellipsis => none

/-- The levels come in increasing order, none of them twice. -/
theorem selected_increasing (n : ℕ) : ((selected n).filterMap Entry.number).Pairwise (· < ·) := by
  have hnumbers (l : List ℕ) : (l.map Entry.level).filterMap Entry.number = l := by
    rw [List.filterMap_map]
    exact List.filterMap_some
  by_cases hn : n ≤ 23
  · rw [selected, if_pos hn, hnumbers]
    exact List.pairwise_lt_range'
  · rw [selected, if_neg hn, List.filterMap_append, List.filterMap_cons_none rfl, hnumbers,
      hnumbers, List.pairwise_append]
    refine ⟨List.pairwise_lt_range', List.pairwise_lt_range', ?_⟩
    intro i hi j hj
    rw [List.mem_range'_1] at hi hj
    omega

/-- The text behind the label of a level. -/
def described (levels : List LuaDebug) (n : ℕ) : Text :=
  (pushInfo (levels[n]?.getD .tailcall)).flatten

def entryText (levels : List LuaDebug) : Entry → Text
  | .level n => label n ++ (described levels n ++ txt "
")
  | .ellipsis => txt "       ...
"

/-- What the loop does for an entry. -/
def emit (levels : List LuaDebug) (stack : List Text) : Entry → Except Fault (List Text)
  | .level n => pushLevel stack n (levels[n]?.getD .tailcall)
  | .ellipsis => .ok (stack ++ [txt "       ...
"])

/-- The inner loop ends, ten levels in front of the end. -/
theorem skipLevels_eq (cis : List CallInfo) (fuel level : ℕ)
    (h : (CallInfo.levels cis).length ≤ level + 10 + fuel) :
    skipLevels cis (fuel + 1) level = .ok (max level ((CallInfo.levels cis).length - 10)) := by
  induction fuel generalizing level with
  | zero =>
    have hnone : (CallInfo.levels cis)[level + 10]? = none := List.getElem?_eq_none (by omega)
    have hmax : max level ((CallInfo.levels cis).length - 10) = level := by omega
    rw [skipLevels, levels2, lua_getstack_add, hnone, hmax]
  | succ fuel ih =>
    rw [skipLevels, levels2, lua_getstack_add]
    by_cases hlt : level + 10 < (CallInfo.levels cis).length
    · rw [List.getElem?_eq_getElem hlt]
      calc skipLevels cis (fuel + 1) (level + 1)
          = .ok (max (level + 1) ((CallInfo.levels cis).length - 10)) := ih (level + 1) (by omega)
        _ = .ok (max level ((CallInfo.levels cis).length - 10)) := by
          congr 1
          omega
    · have hmax : max level ((CallInfo.levels cis).length - 10) = level := by omega
      rw [List.getElem?_eq_none (by omega), hmax]

/-- A pass that prints its level. -/
theorem whileLevels_print {cis : List CallInfo} {fuel level : ℕ} {firstpart : Bool}
    {stack : List Text} (hlt : level < (CallInfo.levels cis).length)
    (hpart : ¬ (level + 1 > levels1 ∧ firstpart)) :
    whileLevels cis (fuel + 1) level firstpart stack =
      emit (CallInfo.levels cis) stack (.level level) >>=
        whileLevels cis fuel (level + 1) firstpart := by
  rw [whileLevels, lua_getstack_eq, emit, List.getElem?_eq_getElem hlt]
  simp only [if_neg hpart, Nat.add_sub_cancel, Option.getD_some]

theorem whileLevels_end {cis : List CallInfo} {fuel level : ℕ} {firstpart : Bool}
    {stack : List Text} (hge : (CallInfo.levels cis).length ≤ level) :
    whileLevels cis (fuel + 1) level firstpart stack = .ok stack := by
  rw [whileLevels, lua_getstack_eq, List.getElem?_eq_none hge]

/-- The second part of the loop prints all levels that are left. -/
theorem whileLevels_second (cis : List CallInfo) (rest fuel level : ℕ) (stack : List Text)
    (h : (CallInfo.levels cis).length = level + rest) (hfuel : rest < fuel) :
    whileLevels cis fuel level false stack =
      ((List.range' level rest).map Entry.level).foldlM (emit (CallInfo.levels cis)) stack := by
  induction rest generalizing fuel level stack with
  | zero =>
    obtain ⟨fuel, rfl⟩ : ∃ k, fuel = k + 1 := ⟨fuel - 1, by omega⟩
    rw [whileLevels_end (by omega)]
    rfl
  | succ rest ih =>
    obtain ⟨fuel, rfl⟩ : ∃ k, fuel = k + 1 := ⟨fuel - 1, by omega⟩
    rw [whileLevels_print (by omega) (by simp), List.range'_succ, List.map_cons, List.foldlM_cons]
    congr 1
    funext stack
    exact ih fuel (level + 1) stack (by omega) (by omega)

/-- The loop prints what is selected, when it has fuel enough. -/
theorem whileLevels_turn (cis : List CallInfo) (fuel : ℕ) (stack : List Text)
    (hlt : 12 < (CallInfo.levels cis).length)
    (hfuel : (CallInfo.levels cis).length < fuel) :
    whileLevels cis (fuel + 1) 12 true stack =
      (if (CallInfo.levels cis).length ≤ 23 then
          (List.range' 12 ((CallInfo.levels cis).length - 12)).map Entry.level
        else .ellipsis :: (List.range' ((CallInfo.levels cis).length - 10) 10).map
          Entry.level).foldlM (emit (CallInfo.levels cis)) stack := by
  rw [whileLevels, lua_getstack_eq, List.getElem?_eq_getElem hlt]
  simp only [levels1, levels2, lua_getstack_add]
  by_cases hn : (CallInfo.levels cis).length ≤ 23
  · rw [if_pos hn, List.getElem?_eq_none (by omega)]
    exact whileLevels_second cis _ fuel 12 stack (by omega) (by omega)
  · obtain ⟨fuel, rfl⟩ : ∃ k, fuel = k + 1 := ⟨fuel - 1, by omega⟩
    have hskip := skipLevels_eq cis fuel 13 (by omega)
    have hmax : max 13 ((CallInfo.levels cis).length - 10) =
        (CallInfo.levels cis).length - 10 := by omega
    rw [if_neg hn, List.getElem?_eq_getElem (by omega), List.foldlM_cons]
    simp only [hskip, hmax]
    exact whileLevels_second cis 10 (fuel + 1) _ _ (by omega) (by omega)

/-- The first part of the loop, by the levels in front of the turn. -/
theorem whileLevels_first (cis : List CallInfo) (ahead fuel level : ℕ) (stack : List Text)
    (hlevel : level + ahead = 12) (hfuel : (CallInfo.levels cis).length + ahead < fuel) :
    whileLevels cis (fuel + 1) level true stack =
      (if (CallInfo.levels cis).length ≤ 23 then
          (List.range' level ((CallInfo.levels cis).length - level)).map Entry.level
        else (List.range' level ahead).map Entry.level ++
          .ellipsis :: (List.range' ((CallInfo.levels cis).length - 10) 10).map
            Entry.level).foldlM (emit (CallInfo.levels cis)) stack := by
  induction ahead generalizing fuel level stack with
  | zero =>
    obtain rfl : level = 12 := by omega
    by_cases hlt : 12 < (CallInfo.levels cis).length
    · exact whileLevels_turn cis fuel stack hlt (by omega)
    · have h0 : (CallInfo.levels cis).length - 12 = 0 := by omega
      rw [whileLevels_end (by omega), if_pos (by omega), h0]
      rfl
  | succ ahead ih =>
    obtain ⟨fuel, rfl⟩ : ∃ k, fuel = k + 1 := ⟨fuel - 1, by omega⟩
    by_cases hlt : level < (CallInfo.levels cis).length
    · obtain ⟨rest, hrest⟩ : ∃ k, (CallInfo.levels cis).length - level = k + 1 :=
        ⟨(CallInfo.levels cis).length - level - 1, by omega⟩
      have hrest' : (CallInfo.levels cis).length - (level + 1) = rest := by omega
      have hnext (stack : List Text) := ih fuel (level + 1) stack (by omega) (by omega)
      rw [whileLevels_print hlt (by simp [levels1]; omega)]
      simp only [funext hnext, hrest, hrest', List.range'_succ, List.map_cons, List.cons_append]
      split_ifs <;> rfl
    · have h0 : (CallInfo.levels cis).length - level = 0 := by omega
      rw [whileLevels_end (by omega), if_pos (by omega), h0]
      rfl

/-- The loop emits what is selected. -/
theorem whileLevels_eq (cis : List CallInfo) (fuel : ℕ) (stack : List Text)
    (hfuel : (CallInfo.levels cis).length + 13 ≤ fuel) :
    whileLevels cis fuel 1 true stack =
      (selected (CallInfo.levels cis).length).foldlM (emit (CallInfo.levels cis)) stack := by
  obtain ⟨fuel, rfl⟩ : ∃ k, fuel = k + 1 := ⟨fuel - 1, by omega⟩
  exact whileLevels_first cis 11 fuel 1 stack rfl (by omega)

/-- The label of an entry fits into `buff`. -/
def Fits : Entry → Prop
  | .level n => n < 1000000
  | .ellipsis => True

theorem sprintf_label {n : ℕ} {buff : Text} :
    sprintf (some 10) (label n) = .ok buff ↔ n < 1000000 ∧ buff = label n := by
  have hdigits : (Nat.toDigits 10 n).length ≤ 6 ↔ n < 1000000 :=
    Nat.length_toDigits_le_iff (by omega) (by omega)
  have hlength : (label n).length = max 4 (Nat.toDigits 10 n).length + 3 := by
    have hof : ofInt (n : ℤ) = Nat.toDigits 10 n := rfl
    simp only [label, hof, List.length_append, List.length_replicate, txt]
    have h3 : "-  ".toList.length = 3 := rfl
    omega
  have hfits : fits (some 10) (label n).length = true ↔ n < 1000000 := by
    rw [fits, decide_eq_true_iff, ← hdigits, hlength]
    omega
  rw [sprintf_eq_ok, hfits]

/-- The stack behind an entry. -/
def emitted (levels : List LuaDebug) (stack : List Text) : Entry → List Text
  | .level n =>
    lua_concat (stack ++ [label n] ++ pushInfo (levels[n]?.getD .tailcall) ++ [txt "\n"])
  | .ellipsis => stack ++ [txt "       ...\n"]

theorem emit_eq_ok (levels : List LuaDebug) (stack st : List Text) (e : Entry) :
    emit levels stack e = .ok st ↔ Fits e ∧ st = emitted levels stack e := by
  cases e with
  | level n =>
    simp only [emit, pushLevel]
    rw [bind_eq_ok]
    constructor
    · rintro ⟨buff, hbuff, hst⟩
      obtain ⟨hn, rfl⟩ := sprintf_label.mp hbuff
      exact ⟨hn, (Except.ok.inj hst).symm⟩
    · rintro ⟨hn, rfl⟩
      exact ⟨label n, sprintf_label.mpr ⟨hn, rfl⟩, rfl⟩
  | ellipsis => simp [emit, Fits, emitted, eq_comm]

theorem flatten_emitted (levels : List LuaDebug) (stack : List Text) (e : Entry) :
    (emitted levels stack e).flatten = stack.flatten ++ entryText levels e := by
  cases e with
  | level n => simp [emitted, lua_concat, entryText, described]
  | ellipsis => simp [emitted, entryText]

theorem flatten_foldl_emitted (levels : List LuaDebug) (es : List Entry) (stack : List Text) :
    (es.foldl (emitted levels) stack).flatten =
      stack.flatten ++ es.flatMap (entryText levels) := by
  induction es generalizing stack with
  | nil => simp
  | cons e es ih => rw [List.foldl_cons, ih, flatten_emitted, List.flatMap_cons, List.append_assoc]

theorem foldlM_emit_eq_ok (levels : List LuaDebug) (es : List Entry) (stack st : List Text) :
    es.foldlM (emit levels) stack = .ok st ↔
      (∀ e ∈ es, Fits e) ∧ st = es.foldl (emitted levels) stack := by
  rw [foldlM_eq_ok (emit levels) (emitted levels) (fun _ => True) (fun _ e => Fits e)
    (fun s e t _ => emit_eq_ok levels s t e) (fun _ _ _ _ => trivial) es stack st trivial]
  apply and_congr_left'
  constructor
  · intro h e he
    obtain ⟨pre, post, hes⟩ := List.append_of_mem he
    exact h pre e post hes
  · intro h pre e post hes
    exact h e (by simp [hes])

/-- The labels of all selected levels fit when there are no more than a million levels: the
last level is always among them. -/
theorem fits_selected_iff (n : ℕ) : (∀ e ∈ selected n, Fits e) ↔ n ≤ 1000000 := by
  have hlevels (a k : ℕ) : (∀ e ∈ (List.range' a k).map Entry.level, Fits e) ↔
      (k = 0 ∨ a + k ≤ 1000000) := by
    simp only [List.forall_mem_map, List.mem_range'_1, Fits]
    constructor
    · intro h
      by_contra hn
      have hlast := h (a + k - 1) (by omega)
      omega
    · intro h i hi
      omega
  by_cases hn : n ≤ 23
  · rw [selected, if_pos hn, hlevels]
    omega
  · rw [selected, if_neg hn, List.forall_mem_append, List.forall_mem_cons, hlevels, hlevels]
    rw [and_iff_right (show Fits .ellipsis from trivial)]
    omega

/-- Every percent sign is one of a pair. -/
def paired : Text → Bool
  | [] => true
  | '%' :: '%' :: s => paired s
  | '%' :: _ => false
  | _ :: s => paired s

/-- The text with one percent sign for each pair. -/
def halved : Text → Text
  | [] => []
  | '%' :: '%' :: s => '%' :: halved s
  | c :: s => c :: halved s

theorem cstr_cons_of_ne {c : Char} (h : c ≠ '\x00') (s : Text) : cstr (c :: s) = c :: cstr s := by
  simp [cstr, h]

theorem cstr_cons_zero (s : Text) : cstr ('\x00' :: s) = [] := by simp [cstr]

theorem paired_cons_of_ne {c : Char} (h : c ≠ '%') (s : Text) : paired (c :: s) = paired s := by
  rw [paired]
  · exact fun _ he _ => h he
  · exact h

theorem paired_percent {s : Text} (h : ∀ u, s = '%' :: u → False) : paired ('%' :: s) = false := by
  rw [paired]
  exact h

theorem halved_cons {c : Char} {s : Text} (h : ∀ u, c = '%' → s = '%' :: u → False) :
    halved (c :: s) = c :: halved s := by
  rw [halved]
  exact h

theorem halved_cons_of_ne {c : Char} (h : c ≠ '%') (s : Text) :
    halved (c :: s) = c :: halved s :=
  halved_cons (fun _ he _ => h he)

theorem map_cons_eq_ok {c : Char} {x : Except Fault Text} {P : Prop} {v : Text}
    (h : ∀ u, x = .ok u ↔ P ∧ u = v) (t : Text) :
    (do return c :: (← x)) = .ok t ↔ P ∧ t = c :: v := by
  rw [bind_eq_ok]
  simp only [h]
  constructor
  · rintro ⟨u, ⟨hP, rfl⟩, ht⟩
    exact ⟨hP, (Except.ok.inj ht).symm⟩
  · rintro ⟨hP, rfl⟩
    exact ⟨v, ⟨hP, rfl⟩, rfl⟩

/-- `printf` prints the text up to its end as a C string, with the pairs halved, or reads an
argument that is not there. -/
theorem printf_eq_ok (s t : Text) :
    printf s = .ok t ↔ paired (cstr s) ∧ t = halved (cstr s) := by
  fun_induction printf s generalizing t with
  | case1 => simp [cstr, paired, halved, eq_comm]
  | case2 s => simp [cstr_cons_zero, paired, halved, eq_comm]
  | case3 s ih =>
    rw [cstr_cons_of_ne (by decide), cstr_cons_of_ne (by decide), paired, halved]
    exact map_cons_eq_ok ih t
  | case4 s h =>
    -- a percent sign with something else behind it, be it the end
    have hfalse : paired (cstr ('%' :: s)) = false := by
      rw [cstr_cons_of_ne (by decide)]
      cases s with
      | nil => rfl
      | cons d s =>
        by_cases h0 : d = '\x00'
        · rw [h0, cstr_cons_zero]
          rfl
        · rw [cstr_cons_of_ne h0]
          apply paired_percent
          intro u hu
          exact h s (by rw [(List.cons.inj hu).1])
    simp [hfalse]
  | case5 c s h1 h2 h3 ih =>
    rw [cstr_cons_of_ne h1, paired_cons_of_ne h3, halved_cons_of_ne h3]
    exact map_cons_eq_ok ih t

/-- No pair goes across a character that is no percent sign. -/
theorem paired_append_cons {c : Char} (hc : c ≠ '%') (s t : Text) :
    paired (s ++ c :: t) = (paired s && paired t) := by
  fun_induction paired s with
  | case1 => simp [paired_cons_of_ne hc]
  | case2 s ih => simpa [paired] using ih
  | case3 s h =>
    rw [List.cons_append, Bool.false_and]
    apply paired_percent
    intro u hu
    cases s with
    | nil => exact hc (List.cons.inj hu).1
    | cons d s => exact h s (by rw [(List.cons.inj hu).1])
  | case4 d s h1 h2 ih => rw [List.cons_append, paired_cons_of_ne h2, ih]

theorem halved_append_cons {c : Char} (hc : c ≠ '%') (s t : Text) :
    halved (s ++ c :: t) = halved s ++ c :: halved t := by
  fun_induction halved s with
  | case1 => simp [halved_cons_of_ne hc]
  | case2 s ih => simpa [halved] using ih
  | case3 d s h ih =>
    rw [List.cons_append, List.cons_append, ← ih]
    apply halved_cons
    intro u hd hu
    cases s with
    | nil => exact hc (List.cons.inj hu).1
    | cons e s => exact h s hd (by rw [(List.cons.inj hu).1])

theorem paired_append_of_not_mem {s : Text} (hs : '%' ∉ s) (t : Text) :
    paired (s ++ t) = paired t := by
  induction s with
  | nil => rfl
  | cons c s ih =>
    rw [List.cons_append, paired_cons_of_ne (fun h => hs (h ▸ List.mem_cons_self)),
      ih (fun h => hs (List.mem_cons_of_mem _ h))]

theorem halved_append_of_not_mem {s : Text} (hs : '%' ∉ s) (t : Text) :
    halved (s ++ t) = s ++ halved t := by
  induction s with
  | nil => rfl
  | cons c s ih =>
    rw [List.cons_append, halved_cons_of_ne (fun h => hs (h ▸ List.mem_cons_self)),
      ih (fun h => hs (List.mem_cons_of_mem _ h)), List.cons_append]

/-- `printf` prints all of the text, with the pairs halved, exactly when there is neither a
zero nor a percent sign on its own in it. -/
theorem printf_eq_halved (s : Text) :
    printf s = .ok (halved s) ↔ '\x00' ∉ s ∧ paired s := by
  rw [printf_eq_ok]
  by_cases hz : '\x00' ∈ s
  · -- the zero ends what is printed
    obtain ⟨a, b, rfl, ha⟩ := List.eq_append_cons_of_mem hz
    have hcut : cstr (a ++ '\x00' :: b) = a := by
      rw [cstr_append ha]
      simp [cstr]
    have hne : halved (a ++ '\x00' :: b) ≠ halved a := by
      rw [halved_append_cons (by decide)]
      simp
    simp [hcut, hne]
  · rw [cstr_eq_self hz]
    simp [hz]

/-- An entry as it is printed. -/
def printedEntry (levels : List LuaDebug) : Entry → Text
  | .level n => label n ++ (halved (described levels n) ++ txt "\n")
  | .ellipsis => txt "       ...\n"

/-- `errormessage` ends, and it prints the message, the heading, and a line for each level of
the selection under the number of the level. -/
def PrintsTraceback (cis : List CallInfo) (message : Text) : Prop :=
  ∃ enough, ∀ fuel ≥ enough, errormessage fuel cis message =
    .ok (halved message ++ (txt "\nstack traceback:\n" ++
      ((selected (CallInfo.levels cis).length).flatMap (printedEntry (CallInfo.levels cis)) ++
        txt "\n")))

/-- The text on the stack at the end. -/
def tracebackText (levels : List LuaDebug) (message : Text) : Text :=
  message ++ (txt "\nstack traceback:\n" ++
    (selected levels.length).flatMap (entryText levels))

theorem percent_not_mem_label (n : ℕ) : '%' ∉ label n := by
  have hdigits : '%' ∉ ofInt n := not_mem_ofInt (by decide) (by decide)
  simp [label, hdigits, txt]

theorem paired_flatMap (levels : List LuaDebug) (es : List Entry) :
    paired (es.flatMap (entryText levels)) ↔ ∀ n, .level n ∈ es → paired (described levels n) := by
  induction es with
  | nil => simp [paired]
  | cons e es ih =>
    rw [List.flatMap_cons]
    cases e with
    | level n =>
      have hcut : paired (entryText levels (.level n) ++ es.flatMap (entryText levels)) =
          (paired (described levels n) && paired (es.flatMap (entryText levels))) := by
        rw [entryText, List.append_assoc, paired_append_of_not_mem (percent_not_mem_label n),
          List.append_assoc]
        exact paired_append_cons (by decide) _ _
      rw [hcut, Bool.and_eq_true, ih]
      simp
    | ellipsis =>
      rw [entryText, paired_append_of_not_mem (by decide), ih]
      simp

theorem halved_flatMap (levels : List LuaDebug) (es : List Entry) :
    halved (es.flatMap (entryText levels)) = es.flatMap (printedEntry levels) := by
  induction es with
  | nil => rfl
  | cons e es ih =>
    rw [List.flatMap_cons, List.flatMap_cons, ← ih]
    cases e with
    | level n =>
      rw [entryText, printedEntry, List.append_assoc,
        halved_append_of_not_mem (percent_not_mem_label n), List.append_assoc, List.append_assoc,
        List.append_assoc]
      congr 1
      exact halved_append_cons (by decide) _ _
    | ellipsis => rw [entryText, printedEntry, halved_append_of_not_mem (by decide)]

theorem halved_tracebackText (levels : List LuaDebug) (message : Text) :
    halved (tracebackText levels message) = halved message ++ (txt "\nstack traceback:\n" ++
      (selected levels.length).flatMap (printedEntry levels)) := by
  rw [tracebackText, ← halved_flatMap, ← halved_append_of_not_mem (by decide)]
  exact halved_append_cons (by decide) _ _

theorem paired_tracebackText (levels : List LuaDebug) (message : Text) :
    paired (tracebackText levels message) ↔ paired message ∧
      ∀ n, .level n ∈ selected levels.length → paired (described levels n) := by
  have hcut : paired (tracebackText levels message) = (paired message &&
      paired (txt "\nstack traceback:\n" ++
        (selected levels.length).flatMap (entryText levels))) :=
    paired_append_cons (by decide) _ _
  rw [hcut, Bool.and_eq_true, paired_append_of_not_mem (by decide), paired_flatMap]

theorem zero_not_mem_functionText (ar : LuaDebug) : '\x00' ∉ functionText ar := by
  have hint (i : ℤ) : '\x00' ∉ ofInt i := not_mem_ofInt (by decide) (by decide)
  simp only [functionText]
  split
  all_goals try split
  all_goals simp [txt, zero_not_mem_cstr, hint]

theorem zero_not_mem_entryText (levels : List LuaDebug) (e : Entry) :
    '\x00' ∉ entryText levels e := by
  have hint (i : ℤ) : '\x00' ∉ ofInt i := not_mem_ofInt (by decide) (by decide)
  cases e with
  | level n =>
    have hpush (ar : LuaDebug) : '\x00' ∉ (pushInfo ar).flatten := by
      simp only [pushInfo]
      split_ifs <;> simp [txt, zero_not_mem_cstr, hint, zero_not_mem_functionText]
    simp [entryText, label, described, hpush, hint, txt]
  | ellipsis => simp [entryText, txt]

/-- A zero in the traceback comes from the message. -/
theorem zero_mem_tracebackText (levels : List LuaDebug) (message : Text) :
    '\x00' ∈ tracebackText levels message ↔ '\x00' ∈ message := by
  have hentries : '\x00' ∉ (selected levels.length).flatMap (entryText levels) := by
    rw [List.mem_flatMap]
    rintro ⟨e, -, he⟩
    exact zero_not_mem_entryText levels e he
  simp [tracebackText, hentries, txt]

/-- `errormessage` as one expression, for all fuel that is enough. -/
theorem errormessage_eq_ok (cis : List CallInfo) (message : Text) {fuel : ℕ}
    (hfuel : (CallInfo.levels cis).length + 13 ≤ fuel) (out : Text) :
    errormessage fuel cis message = .ok out ↔
      (CallInfo.levels cis).length ≤ 1000000 ∧
        ∃ t, printf (tracebackText (CallInfo.levels cis) message) = .ok t ∧
          t ++ txt "\n" = out := by
  simp only [errormessage, whileLevels_eq cis fuel _ hfuel, bind_eq_ok, foldlM_emit_eq_ok,
    fits_selected_iff, OutputTop]
  have hstack : (lua_concat ((selected (CallInfo.levels cis).length).foldl
      (emitted (CallInfo.levels cis)) [message, txt "\n", txt "stack traceback:\n"])).flatten =
        tracebackText (CallInfo.levels cis) message := by
    simp only [lua_concat, List.flatten_singleton, flatten_foldl_emitted, tracebackText]
    simp [txt]
  constructor
  · rintro ⟨stack, ⟨hn, rfl⟩, t, ht, hout⟩
    rw [hstack] at ht
    exact ⟨hn, t, ht, Except.ok.inj hout⟩
  · rintro ⟨hn, t, ht, rfl⟩
    exact ⟨_, ⟨hn, rfl⟩, t, by rw [hstack, ht], rfl⟩

/-- The traceback is printed exactly when the labels fit into `buff` and the text is no format
of its own for `printf`. -/
theorem printsTraceback_iff (cis : List CallInfo) (message : Text) :
    PrintsTraceback cis message ↔ (CallInfo.levels cis).length ≤ 1000000 ∧ '\x00' ∉ message ∧
      paired message ∧ ∀ n, .level n ∈ selected (CallInfo.levels cis).length →
        paired (described (CallInfo.levels cis) n) := by
  let levels := CallInfo.levels cis
  have hprintf : printf (tracebackText levels message) =
      .ok (halved message ++ (txt "\nstack traceback:\n" ++
        (selected levels.length).flatMap (printedEntry levels))) ↔
      '\x00' ∉ message ∧ paired message ∧
        ∀ n, .level n ∈ selected levels.length → paired (described levels n) := by
    rw [← halved_tracebackText, printf_eq_halved, zero_mem_tracebackText, paired_tracebackText]
  rw [← hprintf]
  constructor
  · rintro ⟨enough, h⟩
    obtain ⟨hn, t, ht, hout⟩ := (errormessage_eq_ok cis message (le_max_right _ _) _).mp
      (h (max enough (levels.length + 13)) (le_max_left _ _))
    refine ⟨hn, ?_⟩
    rw [ht]
    rw [← List.append_assoc, ← List.append_assoc, List.append_cancel_right_eq,
      List.append_assoc] at hout
    rw [hout]
  · rintro ⟨hn, hp⟩
    refine ⟨levels.length + 13, fun fuel hfuel => ?_⟩
    apply (errormessage_eq_ok cis message hfuel _).mpr
    refine ⟨hn, _, hp, ?_⟩
    simp only [List.append_assoc, levels]

/-- A call of `errormessage` from a function that so many tail calls have been lost in. -/
def afterTailcalls (lost : ℕ) : List CallInfo :=
  [⟨false, 0, ⟨txt "[C]", -1, [], [], txt "C", -1⟩⟩,
    ⟨true, lost, ⟨txt "t.lua", 1, [], [], txt "Lua", 1⟩⟩]

/-- A label of seven digits, and a message with a conversion that has no argument. -/
theorem traceback_not_printed :
    ¬ PrintsTraceback (afterTailcalls 999999) (txt "t.lua:1: stop") ∧
      ¬ PrintsTraceback (afterTailcalls 0) (txt "t.lua:1: %s") := by
  have hlength (lost : ℕ) : (CallInfo.levels (afterTailcalls lost)).length = lost + 2 := by
    simp [CallInfo.levels, afterTailcalls, CallInfo.lost]
  constructor
  · rw [printsTraceback_iff, hlength]
    intro h
    omega
  · rw [printsTraceback_iff]
    intro h
    exact absurd h.2.2.1 (by decide)

end Traceback

end LuaIde
