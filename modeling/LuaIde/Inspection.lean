import LuaIde.CommandReplies
import LuaIde.LuaApi

/-! The commands of ldb that look at a stopped program, as programs over the Lua API: what
they leave on the stack of the hooked function. -/
namespace LuaIde

open LineText DecimalText Delimited CheckedFold CheckedState

namespace Inspect

variable (b : Buffers) (L : LuaState)

/-- `lua_number2str` and `sprintf("%.63s")` into an array `value`. -/
def formatted : LuaValue → Except Fault Text
  | .number n => sprintf b.value n.text
  | .string s => sprintf b.value ((cstr s).take 63)
  | _ => .ok []

/-- A loop over the table on top of the stack: the entries are handed on, and no key is read
with `lua_tostring`. -/
def overTable {σ : Type} (entry : σ → LuaValue × LuaValue → Except Fault σ) (ref : ℕ) (s : σ) :
    Api σ := do
  let fuel := ((← get).heap ref).length + 1
  whileNext (fun s => do
    let key ← lua_index (-2)
    let value ← lua_index (-1)
    let s ← entry s (key, value)
    lua_pop 1
    return s) fuel s

/-- The text `getGlobals` puts together for a global. -/
def globalText (name : Option Text) (val : Text) : LuaValue → Api Text
  | .number n => appendPair b val name n.text
  | .string s => appendPair b val name ((cstr s).take 63)
  | .boolean _ => do
    let slot ← lua_toboolean 1
    appendPair b val name (if slot then txt "true" else txt "false")
  | .table ref => do
    lua_pushnil
    let val ← strcat b.val val (startGlobalTable ++ txt "|")
    let val ← overTable (fun val e => do globalElement b (← notNull name) val e) ref val
    strcat b.val val (endGlobalTable ++ txt "|")
  | v => do
    let value ← sprintf b.value (txt "type " ++ v.typename ++ txt " = not yet displayable")
    strcat b.val [] value

/-- A loop over the globals. Of those that `skips` does not leave out the key is read. -/
def overGlobals {σ : Type} (skips : LuaValue → Bool)
    (entry : σ → Option Text → LuaValue → Api σ) (s : σ) : Api σ := do
  lua_pushglobals L
  lua_pushnil
  let fuel := ((← get).heap L.globals).length + 1
  let s ← whileNext (fun s => do
    let value ← lua_index (-1)
    if skips value then
      lua_pop 1
      return s
    else
      let name ← lua_tostring (-2)
      let s ← entry s name value
      lua_pop 1
      return s) fuel s
  lua_pop 1
  return s

/-- `LuaDebugger::getGlobals`. -/
def getGlobals : Api Text :=
  overGlobals L LuaValue.isFunction (fun val name value => globalText b name val value) []

/-- `lua_number2str(value, lua_tonumber(L, -1))`. -/
def topText : Api Text := do
  match ← lua_index (-1) with
  | .number n => return n.text
  | .string s => return ((L.str2d s).map LuaNumber.text).getD (txt "0")
  | _ => return txt "0"

/-- The text for the stack slot number `i`. -/
def slotText (i : ℕ) : Api Text := do
  match ← lua_index i with
  | .string s => return cstr s
  | .boolean v => return if v then txt "true" else txt "false"
  | .number _ => topText L
  | v => return v.typename

/-- `LuaDebugger::stackDumpForIde`. -/
def stackDumpForIde : Api Text := do
  let top := (← get).stack.length
  (List.range top).foldlM (fun results i => do
    let text ← slotText L (i+1)
    let results ← strcat b.data results text
    strcat b.data results (txt "|")) []

/-- `LuaDebugger::stackDump`, from the top down to the console. -/
def stackDump : Api Unit := do
  let top := (← get).stack.length
  (List.range top).reverse.foldlM (fun _ i => do
    let _ ← slotText L (i+1)
    return ()) ()

/-- The text `getLocalVarValue` puts together for the variable on top of the stack. -/
def localText (i : ℕ) (name : Text) : LuaValue → Api Text
  | .number n => do strcat b.val [] (← sprintf b.value n.text)
  | .string s => do strcat b.val [] (← sprintf b.value ((cstr s).take 63))
  | .boolean _ => do
    let slot ← lua_toboolean i
    strcat b.val [] (← sprintf b.value (if slot then txt "true" else txt "false"))
  | .table ref => do
    lua_pushnil
    overTable (fun val e => appendElement b b.val val name e.1 e.2) ref []
  | v => do
    let text := txt "type " ++ v.typename ++ txt " not yet displayable"
    strcat b.val [] (← sprintf b.value text)

/-- A loop over the local variables of a level. -/
def overLocals {σ : Type} (nLevel : ℤ) (body : σ → ℕ → Text → Api (ForInStep σ)) (s : σ) :
    Api σ := do
  let fuel := ((← get).localsAt L nLevel).length + 1
  whileLocal L nLevel body fuel 1 s

/-- `LuaDebugger::getLocalVarValue`. -/
def getLocalVarValue (nLevel : ℤ) (var : Option Text) : Api Text := do
  let val ← strcat b.val [] (txt "notFound")
  match L.getstack nLevel with
  | none => return val
  | some _ =>
    overLocals L nLevel (fun val i name => do
      let v ← token var
      if v = name then
        let val ← localText b i name (← lua_index (-1))
        lua_pop 1
        return .done val
      else
        lua_pop 1
        return .yield val) val

/-- The body of the loop of `ideStackTrace`. -/
def appendLevel (str : Text) (nLevel : ℕ) : Api Text := do
  match L.getstack nLevel with
  | none => return str
  | some level =>
    let ar := level.getinfo
    let str ← strcat b.str str ar.source
    let str ← strcat b.str str (txt "|")
    let number ← sprintf b.number (ofInt ar.currentline.val)
    let str ← strcat b.str str number
    let str ← strcat b.str str (txt "|")
    let str ← strcat b.str str (functionName ar)
    let str ← strcat b.str str (txt "|")
    let str ← overLocals L nLevel (fun str _ name => do
      let str ← (if name ≠ temporaryName then do
        let str ← strcat b.str str name
        strcat b.str str (txt "|")
      else .ok str : Except Fault Text)
      lua_pop 1
      return .yield str) str
    strcat b.str str (txt "#")

/-- `LuaDebugger::ideStackTrace`: from the last level there is down to level 0. -/
def ideStackTrace : Api Text :=
  (List.range L.levels.length).reverse.foldlM (appendLevel b L) []

/-- `LuaDebugger::listLocalVariables` and `listLocalVariable`. -/
def listLocals (var : Option Text) : Api Unit :=
  overLocals L 0 (fun _ _ name => do
    if var = none ∨ var = some name then
      let _ ← formatted b (← lua_index (-1))
    lua_pop 1
    return .yield ()) ()

/-- `LuaDebugger::listGlobalVariables`. The name goes to `printf`, which takes no null pointer
for a `%s`. -/
def listGlobalVariables : Api Unit :=
  overGlobals L LuaValue.isFunction (fun _ name value => do
    let _ ← formatted b value
    let _ ← notNull name
    return ()) ()

/-- `LuaDebugger::listGlobalVariable`. -/
def listGlobalVariable (var : Text) : Api Unit :=
  overGlobals L (fun _ => false) (fun _ name value => do
    let name ← notNull name
    if name = var then
      let _ ← formatted b value
      match value with
      | .table ref => do
        lua_pushnil
        overTable (fun _ e => do
          let _ ← printIt b e.1
          let _ ← printIt b e.2
          return ()) ref ()
      | _ => return ()
    else return ()) ()

end Inspect

open Inspect in
/-- The branches of `commandParser` that look at the program, with the line they answer with. -/
def inspect (L : LuaState) (list : List Text) (pCmd : Text) (args : List Text) :
    Api (Option Text) :=
  match dispatch pCmd with
  | .getGlobals => do return some (← Inspect.getGlobals .declared L)
  | .dataForIde => do return some (← Inspect.stackDumpForIde .declared L)
  | .varForIde => do
    let frameNumber := atoi (← token args[0]?)
    return some (← Inspect.getLocalVarValue .declared L frameNumber.val args[1]?)
  | .stackForIde => do return some (← Inspect.ideStackTrace .declared L)
  | .display => do
    match args with
    | [] =>
      listLocals .declared L none
      Inspect.listGlobalVariables .declared L
    | varName :: _ =>
      listLocals .declared L (some varName)
      Inspect.listGlobalVariable .declared L varName
    return none
  | .print => do
    let which ← token args[0]?
    if which = txt "stack" then stackDump L
    else if which = txt "trace" then drawStackTrace L
    return none
  | .list => do
    listCommand list args
    return none
  | _ => return none

section Restores

variable {b : Buffers} {L : LuaState}

/-- Going over the table on top of the stack leaves it there. -/
theorem overTable_ends {σ : Type} (entry : σ → LuaValue × LuaValue → Except Fault σ) (s : Machine)
    (ref : ℕ) (x : σ) : Ends (Inspect.overTable entry ref x) (s.atKey ref ⟨.nil, none⟩)
      ((s.heap ref).foldlM entry x) (s.push (.table ref)) := by
  refine Ends.step (Ends.reads _) ?_
  refine (whileNext_ends (fun _ => false) (fun y k v => entry y (k, v)) ?_ _ x).congr
    fun y => traverse_unread _ _ _ x y
  intro y i k v _
  refine Ends.step (lua_index_ends _ _) (Ends.step (lua_index_ends _ _) ?_)
  exact (Ends.lift _ _).leaves fun z => lua_pop_ends 1 z _

/-- The loop over the globals, with the entries it makes of those it reads. -/
theorem overGlobals_ends {σ : Type} {skips : LuaValue → Bool}
    {entry : σ → Option Text → LuaValue → Api σ}
    (result : σ → LuaValue → LuaValue → Except Fault σ)
    (hskip : ∀ x k v, skips v = true → result x k v = .ok x)
    (hentry : ∀ x k v key, skips v = false →
      Ends (entry x (tostring k) v) ((Machine.hooked L).atEntry L.globals key v) (result x k v)
        ((Machine.hooked L).atEntry L.globals key v))
    (x : σ) : Ends (Inspect.overGlobals L skips entry x) (Machine.hooked L)
      (traverse (L.heap L.globals) (L.cleared L.globals) (fun v => !skips v) result
        ((L.heap L.globals).length + 1) 0 x)
      (Machine.hooked L) := by
  refine Ends.step (Ends.modifies _ _) (Ends.step (Ends.modifies _ _) ?_)
  rw [Machine.push_nil]
  refine Ends.step (Ends.reads _) ?_
  refine (whileNext_ends (fun v => !skips v) result ?_ _ x).leaves
    fun y => lua_pop_ends 1 y _
  intro y i k v _
  refine Ends.step (lua_index_ends _ _) ?_
  rw [Machine.at_value]
  cases hs : skips v with
  -- the key of a global that is left out is not read
  | true =>
    rw [if_pos rfl, hskip y k v hs]
    exact lua_pop_ends 1 y _
  | false =>
    rw [if_neg Bool.false_ne_true]
    refine Ends.step (lua_tostring_key k v i) ?_
    exact (hentry y k v _ hs).leaves fun z => lua_pop_ends 1 z _

/-- `getGlobals` leaves the stack as it was, and writes what its text says. -/
theorem getGlobals_ends :
    Ends (Inspect.getGlobals b L) (Machine.hooked L) (getGlobals b L) (Machine.hooked L) := by
  refine overGlobals_ends (globalEntry b L) ?_ ?_ []
  · intro val k v hv
    cases v <;> first | rfl | cases hv
  · intro val k v key hv
    set s := (Machine.hooked L).atEntry L.globals key v with hs
    cases v with
    | function => cases hv
    | number n | string t => exact Ends.lift _ s
    | boolean v =>
      refine Ends.step (Ends.step (lua_index_ends 1 s) (Ends.returns _ s)) ?_
      rw [hs, at_first L L.globals key k]
      exact Ends.lift _ _
    | table ref =>
      refine Ends.step (Ends.modifies _ s) (Ends.bind (Ends.lift _ _) fun val' _ => ?_)
      refine Ends.bind (overTable_ends _ ((Machine.hooked L).atKey L.globals key) ref val')
        fun val'' _ => ?_
      exact Ends.lift _ _
    | _ => exact Ends.bind (Ends.lift _ s) fun value _ => Ends.lift _ s

theorem topText_ends : Ends (Inspect.topText L) (Machine.hooked L) (.ok (topNumber L))
    (Machine.hooked L) := by
  have htop : (Machine.hooked L).at (-1) = L.stack.getLast?.getD .nil := by
    have hstack : (Machine.hooked L).at (-1) =
        (((Machine.hooked L).stack[0]?).map Slot.value).getD .nil := rfl
    rw [hstack, ← List.getElem?_map, ← List.head?_eq_getElem?, ← hooked_values L,
      List.getLast?_reverse]
  refine Ends.step (lua_index_ends _ _) ?_
  rw [htop, topNumber]
  rcases L.stack.getLast? with _ | ⟨_ | _ | _ | _ | _ | _ | _ | _ | _⟩ <;>
    exact Ends.returns _ _

theorem slotText_ends (i : ℕ) : Ends (Inspect.slotText L (i+1)) (Machine.hooked L)
    (.ok (dataText L (L.slot [] (i+1)))) (Machine.hooked L) := by
  refine Ends.step (lua_index_ends _ _) ?_
  rw [at_hooked]
  cases L.slot [] (i+1) with
  | number n => exact topText_ends
  | _ => exact Ends.returns _ _

theorem slots_eq (L : LuaState) :
    (List.range L.stack.length).map (fun i => L.slot [] (i+1)) = L.stack := by
  apply List.ext_getElem
  · simp
  · intro i hi hi'
    simp [LuaState.slot, hi']

/-- `stackDumpForIde` reads the slots one after the other. -/
theorem stackDumpForIde_ends : Ends (Inspect.stackDumpForIde b L) (Machine.hooked L)
    (stackDumpForIde b L) (Machine.hooked L) := by
  have htop : (Machine.hooked L).stack.length = L.stack.length := by simp [Machine.hooked]
  let append (results : Text) (v : LuaValue) : Except Fault Text := do
    let results ← strcat b.data results (dataText L v)
    strcat b.data results (txt "|")
  have hdump : stackDumpForIde b L = (List.range L.stack.length).foldlM
      (fun results i => append results (L.slot [] (i+1))) [] := by
    calc stackDumpForIde b L = L.stack.foldlM append [] := rfl
      _ = ((List.range L.stack.length).map (fun i => L.slot [] (i+1))).foldlM append [] := by
        rw [slots_eq]
      _ = _ := List.foldlM_map
  refine Ends.step (Ends.reads _) ?_
  rw [htop, hdump]
  refine Ends.foldlM (fun results i => ?_) _ _
  refine Ends.step (slotText_ends i) (Ends.bind (Ends.lift _ _) fun results' _ => ?_)
  exact Ends.lift _ _

theorem stackDump_ends : Ends (Inspect.stackDump L) (Machine.hooked L) (.ok ())
    (Machine.hooked L) := by
  refine Ends.step (Ends.reads _) ?_
  have h (is : List ℕ) : is.foldlM (fun _ _ => .ok ()) () = (.ok () : Except Fault Unit) :=
    foldlM_checks_eq_ok.mpr fun _ _ => rfl
  rw [← h]
  exact Ends.foldlM (fun _ i => Ends.step (slotText_ends i) (Ends.returns () _)) _ ()

/-- The text for the local variable number `i`, which lies on top of the stack. -/
theorem localText_ends (i : ℕ) (name : Text) (v : LuaValue) :
    Ends (Inspect.localText b (i+1) name v) ((Machine.hooked L).push v)
      (localValue b L i name v) ((Machine.hooked L).push v) := by
  set s := (Machine.hooked L).push v with hs
  cases v with
  | number n | string t =>
    exact Ends.bind (Ends.lift _ s) fun value _ => Ends.lift _ s
  | boolean v =>
    refine Ends.step (Ends.step (lua_index_ends _ s) (Ends.returns _ s)) ?_
    rw [hs, at_pushed]
    exact Ends.bind (Ends.lift _ _) fun value _ => Ends.lift _ _
  | table ref =>
    exact Ends.step (Ends.modifies _ s) (overTable_ends _ (Machine.hooked L) ref [])
  | _ => exact Ends.bind (Ends.lift _ s) fun value _ => Ends.lift _ s

/-- A loop over the local variables of a level there is. -/
theorem overLocals_ends {σ : Type} {nLevel : ℤ} {level : Level}
    (hlevel : L.getstack nLevel = some level) {body : σ → ℕ → Text → Api (ForInStep σ)}
    {result : σ → ℕ → Text → LuaValue → Except Fault (ForInStep σ)}
    (hbody : ∀ x i name v,
      Ends (body x (i+1) name) ((Machine.hooked L).push v) (result x (i+1) name v)
        (Machine.hooked L))
    (x : σ) : Ends (Inspect.overLocals L nLevel body x) (Machine.hooked L)
      (forLocals result 1 (L.getlocals level) x) (Machine.hooked L) := by
  refine Ends.step (Ends.reads _) ?_
  rw [← localsAt_hooked hlevel]
  exact whileLocal_ends hbody _ 0 x (Nat.zero_le _) (by omega)

/-- The search of `getLocalVarValue`, as what its passes make of the variables. -/
def searched (b : Buffers) (L : LuaState) (var : Option Text) (val : Text) (i : ℕ) (name : Text)
    (v : LuaValue) : Except Fault (ForInStep Text) := do
  if (← token var) = name then return .done (← localValue b L (i-1) name v)
  else return .yield val

theorem forLocals_searched (var : Option Text) (val : Text) (i : ℕ)
    (ls : List (Text × LuaValue)) :
    forLocals (searched b L var) i ls val = findLocal var i ls >>= fun
      | none => .ok val
      | some (i, name, v) => localValue b L i name v := by
  induction ls generalizing i with
  | nil => rfl
  | cons x ls ih =>
    obtain ⟨name, v⟩ := x
    cases var with
    | none => rfl
    | some var =>
      by_cases hname : var = name
      · simp only [forLocals, searched, findLocal, token, hname, bind, Except.bind, if_true,
          Nat.add_sub_cancel]
        cases localValue b L i name v <;> rfl
      · simp only [forLocals, searched, findLocal, token, hname, bind, Except.bind, if_false]
        exact ih (i+1)

/-- `getLocalVarValue` takes every variable off again that it pushed. -/
theorem getLocalVarValue_ends (nLevel : ℤ) (var : Option Text) :
    Ends (Inspect.getLocalVarValue b L nLevel var) (Machine.hooked L)
      (getLocalVarValue b L nLevel var) (Machine.hooked L) := by
  refine Ends.bind (Ends.lift _ _) fun val _ => ?_
  cases hlevel : L.getstack nLevel with
  | none => exact Ends.returns val _
  | some level =>
    refine Ends.congr (x := forLocals (searched b L var) 1 (L.getlocals level) val) ?_ ?_
    · refine overLocals_ends hlevel ?_ val
      intro val i name v
      refine Ends.bind (Ends.lift _ _) fun w _ => ?_
      by_cases hname : w = name
      · simp only [hname, if_true]
        refine Ends.step (lua_index_ends _ _) ?_
        refine Ends.bind (localText_ends i name v) fun t _ => ?_
        exact lua_pop_ends 1 _ _
      · simp only [hname, if_false]
        exact lua_pop_ends 1 _ _
    · intro t
      have hsearch := forLocals_searched (b := b) (L := L) var val 1 (L.getlocals level)
      exact iff_of_eq (congrArg (· = Except.ok t) hsearch)

theorem forLocals_appendLocal (str : Text) (i : ℕ) (ls : List (Text × LuaValue)) :
    forLocals (fun str _ name v => do return .yield (← appendLocal b str (name, v))) i ls str =
      ls.foldlM (appendLocal b) str := by
  induction ls generalizing i str with
  | nil => rfl
  | cons x ls ih =>
    obtain ⟨name, v⟩ := x
    rw [List.foldlM_cons, forLocals]
    cases appendLocal b str (name, v) with
    | error why => rfl
    | ok str => exact ih str (i+1)

theorem appendLevel_ends (str : Text) (nLevel : ℕ) :
    Ends (Inspect.appendLevel b L str nLevel) (Machine.hooked L)
      ((L.getstack nLevel).elim (.ok str) (appendLevel b L str)) (Machine.hooked L) := by
  unfold Inspect.appendLevel
  cases hlevel : L.getstack nLevel with
  | none => exact Ends.returns str _
  | some level =>
    refine Ends.bind (Ends.lift _ _) fun str _ => Ends.bind (Ends.lift _ _) fun str _ => ?_
    refine Ends.bind (Ends.lift _ _) fun number _ => Ends.bind (Ends.lift _ _) fun str _ => ?_
    refine Ends.bind (Ends.lift _ _) fun str _ => Ends.bind (Ends.lift _ _) fun str _ => ?_
    refine Ends.bind (Ends.lift _ _) fun str _ => ?_
    refine Ends.bind ?_ fun str _ => Ends.lift _ _
    rw [← forLocals_appendLocal str 1]
    refine overLocals_ends hlevel ?_ str
    intro str i name v
    exact Ends.bind (Ends.lift (appendLocal b str (name, v)) _) fun str _ => lua_pop_ends 1 _ _

theorem levels_eq (L : LuaState) :
    (List.range L.levels.length).map (fun nLevel : ℕ => L.getstack nLevel) = L.levels.map some := by
  apply List.ext_getElem
  · simp
  · intro i hi hi'
    have hlevel : ¬ (i : ℤ) < 0 := by omega
    simp only [List.length_map] at hi'
    simp [LuaState.getstack, hi', hlevel]

/-- `ideStackTrace` goes over the levels from the last one down. -/
theorem ideStackTrace_ends : Ends (Inspect.ideStackTrace b L) (Machine.hooked L)
    (ideStackTrace b L) (Machine.hooked L) := by
  have htrace : ideStackTrace b L = (List.range L.levels.length).reverse.foldlM
      (fun str (nLevel : ℕ) => (L.getstack nLevel).elim (.ok str) (appendLevel b L str)) [] := by
    calc ideStackTrace b L
      _ = (L.levels.map some).reverse.foldlM
          (fun str level => level.elim (.ok str) (appendLevel b L str)) [] := by
        rw [← List.map_reverse, List.foldlM_map]
        rfl
      _ = _ := by
        rw [← levels_eq, ← List.map_reverse, List.foldlM_map]
  rw [htrace]
  exact Ends.foldlM appendLevel_ends _ _

theorem formatted_declared (v : LuaValue) : ∃ t, Inspect.formatted .declared v = .ok t := by
  have hfits (s : Text) (hs : s.length < 64) : ∃ t, sprintf Buffers.declared.value s = .ok t := by
    refine ⟨s, (sprintf_eq_ok _ _ _).mpr ⟨?_, rfl⟩⟩
    simpa [Buffers.declared, fits] using hs
  cases v with
  | number n => exact hfits n.text n.short
  | string s =>
    refine hfits _ ?_
    rw [List.length_take]
    omega
  | _ => exact ⟨[], rfl⟩

theorem formatted_ends (v : LuaValue) (s : Machine) :
    ∃ t, Ends (liftM (Inspect.formatted .declared v) : Api Text) s (.ok t) s := by
  obtain ⟨t, ht⟩ := formatted_declared v
  exact ⟨t, ht ▸ Ends.lift _ s⟩

theorem listLocals_ends (var : Option Text) :
    Ends (Inspect.listLocals .declared L var) (Machine.hooked L) (.ok ()) (Machine.hooked L) := by
  have hlist (i : ℕ) (ls : List (Text × LuaValue)) :
      forLocals (fun _ _ _ _ => .ok (.yield ())) i ls () = .ok () := by
    induction ls generalizing i with
    | nil => rfl
    | cons x ls ih => exact ih (i+1)
  rw [← hlist 1 (L.getlocals (.lua L.hooked))]
  refine overLocals_ends (by rfl) ?_ ()
  intro _ i name v
  split_ifs
  · obtain ⟨t, ht⟩ := formatted_ends v ((Machine.hooked L).push v)
    refine Ends.step (lua_index_ends _ _) (Ends.step ht ?_)
    exact lua_pop_ends 1 _ _
  · exact lua_pop_ends 1 _ _

theorem printIt_declared (v : LuaValue) : printIt .declared v = .ok v.printIt := by
  have hshort : v.printIt.length < 80 := v.length_printIt.trans (by decide)
  rw [printIt, sprintf_eq_ok]
  simpa [Buffers.declared, fits] using hshort

theorem listGlobalVariables_ends :
    Ends (Inspect.listGlobalVariables .declared L) (Machine.hooked L)
      (listGlobals L LuaValue.isFunction) (Machine.hooked L) := by
  refine overGlobals_ends (readName LuaValue.isFunction) ?_ ?_ ()
  · intro _ k v hv
    rw [readName, if_pos hv]
  · intro _ k v key hv
    obtain ⟨t, ht⟩ := formatted_ends v ((Machine.hooked L).atEntry L.globals key v)
    rw [readName, hv, if_neg Bool.false_ne_true]
    exact Ends.step ht (Ends.bind (Ends.lift _ _) fun _ _ => Ends.returns () _)

theorem listGlobalVariable_ends (var : Text) :
    Ends (Inspect.listGlobalVariable .declared L var) (Machine.hooked L)
      (listGlobals L fun _ => false) (Machine.hooked L) := by
  refine overGlobals_ends (readName (fun _ => false)) (by simp) ?_ ()
  intro _ k v key _
  refine Ends.bind (Ends.lift _ _) fun name _ => ?_
  split_ifs with hname
  · obtain ⟨t, ht⟩ := formatted_ends v ((Machine.hooked L).atEntry L.globals key v)
    refine Ends.step ht ?_
    cases v with
    | table ref =>
      refine Ends.step (Ends.modifies _ _) ((overTable_ends _
        ((Machine.hooked L).atKey L.globals key) ref ()).congr fun _ => ?_)
      rw [foldlM_checks_eq_ok.mpr]
      intro e _
      rw [printIt_declared, printIt_declared]
      rfl
    | _ => exact Ends.returns () _
  · exact Ends.returns () _

end Restores

section Lines

/-- The list command looks up the lines from the first one to the last one. -/
theorem listLines_eq_ok (list : List Text) (firstLine lastLine : ℤ) :
    Inspect.listLines list firstLine lastLine = .ok () ↔
      ∀ index, firstLine ≤ index → index ≤ lastLine →
        list = [] ∨ (1 ≤ index ∧ index ≤ list.length) := by
  have hbody (i : ℕ) :
      ((Inspect.getFileLine list (firstLine + i)) >>= fun _ => (.ok () : Except Fault Unit)) =
        .ok () ↔ list = [] ∨ (1 ≤ firstLine + i ∧ firstLine + i ≤ list.length) := by
    rw [← Inspect.getFileLine_isOk, bind_eq_ok]
    simp
  refine foldlM_checks_eq_ok.trans ((forall₂_congr fun i _ => hbody i).trans ?_)
  constructor
  · intro h index hfirst hlast
    have hi := h (index - firstLine).toNat (List.mem_range.mpr (by omega))
    rwa [show firstLine + ((index - firstLine).toNat : ℤ) = index by omega] at hi
  · intro h i hi
    have hlt := List.mem_range.mp hi
    exact h _ (by omega) (by omega)

end Lines

end LuaIde
