import LuaIde.Inspection
import LuaIde.Runs

/-! What a sequence of inspection commands leaves of a stopped program: the traversals they
start come to their end where the keys they read are strings, or numbers whose texts are keys
as well, and then the stack is what it was. -/
namespace LuaIde

open LineText DecimalText Delimited CheckedFold CheckedState Runs

section Positions

variable (tbl : Table) (cleared : Cleared tbl) (touched : LuaValue → Bool)

/-- The position `lua_next` goes on from, behind the entry at a position. -/
def goesOn (i : ℕ) : Option ℕ :=
  (tbl[i]?).bind (fun e => (nextPosition tbl cleared (touched e.2) e.1 i).toOption)

/-- A position a traversal comes by. -/
def Visits (i : ℕ) : Prop := ∃ n, steps (goesOn tbl cleared touched) n 0 = some i

/-- The positions lead from the first entry to behind the last one. -/
def Traversable : Prop := Visits tbl cleared touched tbl.length

variable {tbl} {cleared : Cleared tbl} {touched : LuaValue → Bool}

theorem goesOn_at {i : ℕ} {k v : LuaValue} (h : tbl[i]? = some (k, v)) :
    goesOn tbl cleared touched i = (nextPosition tbl cleared (touched v) k i).toOption := by
  rw [goesOn, h, Option.bind_some]

/-- The nodes a string is found in are nodes of the table, live or cleared. -/
theorem findString_le {s : Text} {j : ℕ} (h : findString tbl cleared s = .ok j) :
    j ≤ tbl.length := by
  unfold findString at h
  split at h
  · next p hp =>
    obtain rfl := Except.ok.inj h
    exact (List.findIdx?_eq_some_iff_findIdx_eq.mp hp).1
  · split at h
    · next p hp =>
      obtain rfl := Except.ok.inj h
      exact Nat.lt_succ_iff.mp p.isLt
    · cases h

theorem goesOn_bounds {i j : ℕ} (h : goesOn tbl cleared touched i = some j) :
    i < tbl.length ∧ j ≤ tbl.length := by
  obtain ⟨⟨k, v⟩, he, hj⟩ := Option.bind_eq_some_iff.mp h
  have hi : i < tbl.length := (List.getElem?_eq_some_iff.mp he).1
  refine ⟨hi, ?_⟩
  unfold nextPosition at hj
  split at hj
  · next n _ _ =>
    cases hn : findString tbl cleared n.text with
    | error why => rw [hn] at hj; cases hj
    | ok p =>
      rw [hn] at hj
      obtain rfl := Option.some.inj hj
      exact findString_le hn
  · obtain rfl := Option.some.inj hj
    exact hi

theorem visits_le {i : ℕ} (h : Visits tbl cleared touched i) : i ≤ tbl.length := by
  obtain ⟨n, hn⟩ := h
  cases n with
  | zero =>
    obtain rfl := Option.some.inj hn
    exact Nat.zero_le _
  | succ n =>
    rw [steps_add] at hn
    obtain ⟨p, -, hp⟩ := Option.bind_eq_some_iff.mp hn
    rw [steps] at hp
    obtain ⟨j, hj, hi⟩ := Option.bind_eq_some_iff.mp hp
    obtain rfl := Option.some.inj hi
    exact (goesOn_bounds hj).2

/-- A loop over the entries ends when the positions lead behind the last one in time. -/
theorem walk_isOk (fuel i : ℕ) : (∃ es, walk tbl cleared touched fuel i = .ok es) ↔
    ∃ n < fuel, ∃ e, steps (goesOn tbl cleared touched) n i = some e ∧ tbl[e]? = none := by
  induction fuel generalizing i with
  | zero => simp [walk]
  | succ fuel ih =>
    cases he : tbl[i]? with
    | none =>
      rw [walk, he]
      exact ⟨fun _ => ⟨0, Nat.zero_lt_succ _, i, rfl, he⟩, fun _ => ⟨[], rfl⟩⟩
    | some e =>
      obtain ⟨k, v⟩ := e
      simp only [walk, he, bind_eq_ok]
      constructor
      · rintro ⟨es', j, hj, es, hes, -⟩
        obtain ⟨n, hn, e, hsteps, hend⟩ := (ih j).mp ⟨es, hes⟩
        refine ⟨n+1, by omega, e, ?_, hend⟩
        rw [steps, goesOn_at he, hj]
        exact hsteps
      · rintro ⟨n, hn, e, hsteps, hend⟩
        cases n with
        | zero =>
          obtain rfl := Option.some.inj hsteps
          rw [he] at hend
          cases hend
        | succ n =>
          rw [steps, goesOn_at he] at hsteps
          obtain ⟨j, hj, hrest⟩ := Option.bind_eq_some_iff.mp hsteps
          obtain ⟨es, hes⟩ := (ih j).mpr ⟨n, by omega, e, hrest, hend⟩
          refine ⟨_, j, ?_, es, hes, rfl⟩
          cases hnext : nextPosition tbl cleared (touched v) k i with
          | error why => rw [hnext] at hj; cases hj
          | ok j' => rw [hnext] at hj; rw [Option.some.inj hj]

/-- The entries of a loop that ends are those at the positions. -/
theorem mem_walk {fuel i : ℕ} {es : Table} (h : walk tbl cleared touched fuel i = .ok es)
    (x : LuaValue × LuaValue) :
    x ∈ es ↔ ∃ n p, steps (goesOn tbl cleared touched) n i = some p ∧ tbl[p]? = some x := by
  induction fuel generalizing i es with
  | zero => cases h
  | succ fuel ih =>
    cases he : tbl[i]? with
    | none =>
      rw [walk, he] at h
      obtain rfl := Except.ok.inj h
      refine ⟨fun hx => absurd hx List.not_mem_nil, ?_⟩
      rintro ⟨n, p, hn, hp⟩
      have hstop : goesOn tbl cleared touched i = none := by rw [goesOn, he, Option.bind_none]
      cases n with
      | zero =>
        obtain rfl := Option.some.inj hn
        rw [he] at hp
        cases hp
      | succ n =>
        rw [steps, hstop] at hn
        cases hn
    | some e =>
      obtain ⟨k, v⟩ := e
      simp only [walk, he, bind_eq_ok] at h
      obtain ⟨j, hj, es', hes', hcons⟩ := h
      obtain rfl : (k, v) :: es' = es := Except.ok.inj hcons
      have hnext : goesOn tbl cleared touched i = some j := by rw [goesOn_at he, hj]; rfl
      rw [List.mem_cons, ih hes']
      constructor
      · rintro (rfl | ⟨n, p, hn, hp⟩)
        · exact ⟨0, i, rfl, he⟩
        · refine ⟨n+1, p, ?_, hp⟩
          rw [steps, hnext, Option.bind_some, hn]
      · rintro ⟨n, p, hn, hp⟩
        cases n with
        | zero =>
          obtain rfl := Option.some.inj hn
          exact .inl (Option.some.inj (hp.symm.trans he))
        | succ n =>
          rw [steps, hnext, Option.bind_some] at hn
          exact .inr ⟨n, p, hn, hp⟩

/-- The bound on the passes of a traversal cuts no loop short that would end. -/
theorem walk_isOk_iff :
    (∃ es, walk tbl cleared touched (tbl.length + 1) 0 = .ok es) ↔
      Traversable tbl cleared touched := by
  rw [walk_isOk]
  constructor
  · rintro ⟨n, -, e, hn, he⟩
    have hle := visits_le ⟨n, hn⟩
    have hge := List.getElem?_eq_none_iff.mp he
    obtain rfl : e = tbl.length := by omega
    exact ⟨n, hn⟩
  · rintro ⟨n, hn⟩
    have he : tbl[tbl.length]? = none := List.getElem?_eq_none_iff.mpr le_rfl
    have hstop : goesOn tbl cleared touched tbl.length = none := by
      rw [goesOn, he, Option.bind_none]
    have hle : n ≤ tbl.length := steps_le (fun i j h => (goesOn_bounds h).1) hn hstop
    exact ⟨n, by omega, _, hn, he⟩

/-- A traversal reads nothing but strings as keys. -/
theorem traversable_of_strings (h : ∀ e ∈ tbl, touched e.2 = true → ∀ n, e.1 ≠ .number n) :
    Traversable tbl cleared touched :=
  walk_isOk_iff.mp ⟨_, walk_eq_drop tbl cleared touched h _ 0 (Nat.zero_le _) (by omega)⟩

end Positions

section Commands

variable (L : LuaState)

/-- An entry that a loop over the globals comes by. -/
def Comes (skips : LuaValue → Bool) (e : LuaValue × LuaValue) : Prop :=
  ∃ i, Visits (L.heap L.globals) (L.cleared L.globals) (fun v => !skips v) i ∧
    (L.heap L.globals)[i]? = some e

/-- What an inspection command needs of the stopped program. The keys it reads lead to the end
of the globals and have texts, and the arrays have room for what it writes. -/
def Undisturbed (c : Command) (args : List Text) : Prop :=
  match c with
  | .getGlobals =>
    Traversable (L.heap L.globals) (L.cleared L.globals) (fun v => !v.isFunction) ∧
      (∀ e, Comes L LuaValue.isFunction e → entryRoom .declared L e) ∧
      ∀ es, globalsWalk L = .ok es → ∀ pre, pre <+: es →
        fits Buffers.declared.val (globalsText L pre).length
  | .display =>
    Traversable (L.heap L.globals) (L.cleared L.globals) (fun v => !displaySkips args v) ∧
      ∀ e, Comes L (displaySkips args) e → displaySkips args e.2 = false → tostring e.1 ≠ none
  | .dataForIde => fits Buffers.declared.data (dumpText L).length
  | .varForIde => ∀ k, args[0]? = some k → varRoom .declared L (atoi k).val args[1]?
  | .stackForIde =>
    (∀ level ∈ L.levels,
      fits Buffers.declared.number (ofInt level.getinfo.currentline.val).length) ∧
      fits Buffers.declared.str (traceText L).length
  | .print => args[0]? = some (txt "trace") →
      ∀ level ∈ L.levels, fits Buffers.declared.szDesc (levelDescription level).length
  | _ => True

/-- The inspection commands with the words they need: `var` a level and a name, `print` what to
print, and `list` no line number, or one from 1 on to which 5 can be added. -/
def WellFormed (c : Command) (args : List Text) : Prop :=
  match c with
  | .getGlobals | .dataForIde | .stackForIde | .display => True
  | .varForIde => 2 ≤ args.length
  | .print => args ≠ []
  | .list => ∀ k, args[0]? = some k → 1 ≤ (atoi k).val ∧ (atoi k).val + 5 < 2147483648
  | _ => False

/-- What an inspection command answers, of the stopped program alone. -/
def inspected (list : List Text) (pCmd : Text) (args : List Text) : Except Fault (Option Text) :=
  match dispatch pCmd with
  | .getGlobals => do return some (← getGlobals .declared L)
  | .dataForIde => do return some (← stackDumpForIde .declared L)
  | .varForIde => do
    return some (← getLocalVarValue .declared L (atoi (← token args[0]?)).val args[1]?)
  | .stackForIde => do return some (← ideStackTrace .declared L)
  | .display => do
    listGlobals L (displaySkips args)
    return none
  | .print => do
    printCommand L args[0]?
    return none
  | .list => do
    Inspect.listCommand list args
    return none
  | _ => return none

variable {L}

/-- An inspection command leaves the stack as it found it. -/
theorem inspect_ends (list : List Text) (pCmd : Text) (args : List Text) :
    Ends (inspect L list pCmd args) (Machine.hooked L) (inspected L list pCmd args)
      (Machine.hooked L) := by
  unfold inspect inspected
  cases dispatch pCmd with
  | getGlobals => exact Ends.bind getGlobals_ends fun t _ => Ends.returns _ _
  | dataForIde => exact Ends.bind stackDumpForIde_ends fun t _ => Ends.returns _ _
  | varForIde =>
    refine Ends.bind (Ends.lift _ _) fun k _ => ?_
    exact Ends.bind (getLocalVarValue_ends _ _) fun t _ => Ends.returns _ _
  | stackForIde => exact Ends.bind ideStackTrace_ends fun t _ => Ends.returns _ _
  | display =>
    cases args with
    | nil =>
      refine Ends.step (listLocals_ends none) ?_
      exact Ends.bind listGlobalVariables_ends fun _ _ => Ends.returns none _
    | cons varName rest =>
      refine Ends.step (listLocals_ends (some varName)) ?_
      exact Ends.bind (listGlobalVariable_ends varName) fun _ _ => Ends.returns none _
  | print =>
    change Ends _ _ ((token args[0]? >>= fun which =>
      if which = txt "trace" then drawStackTrace L else .ok ()) >>= fun _ => .ok none) _
    rw [bind_assoc]
    refine Ends.bind (Ends.lift _ _) fun which _ => ?_
    by_cases hstack : which = txt "stack"
    · rw [if_pos hstack, if_neg (by rw [hstack]; decide)]
      exact Ends.step stackDump_ends (Ends.returns none _)
    · rw [if_neg hstack]
      by_cases htrace : which = txt "trace"
      · rw [if_pos htrace, if_pos htrace]
        exact Ends.bind (Ends.lift _ _) fun _ _ => Ends.returns none _
      · rw [if_neg htrace, if_neg htrace]
        exact Ends.returns none _
  | list => exact Ends.bind (Ends.lift _ _) fun _ _ => Ends.returns none _
  | _ => exact Ends.returns none _

/-- A loop over the globals that ends has come by its entries and by no others. -/
theorem comes_iff {skips : LuaValue → Bool} {fuel : ℕ} {es : Table}
    (hw : walk (L.heap L.globals) (L.cleared L.globals) (fun v => !skips v) fuel 0 = .ok es)
    {e : LuaValue × LuaValue} :
    Comes L skips e ↔ e ∈ es := by
  rw [mem_walk hw]
  constructor
  · rintro ⟨i, ⟨n, hn⟩, hi⟩
    exact ⟨n, i, hn, hi⟩
  · rintro ⟨n, i, hn, hi⟩
    exact ⟨i, ⟨n, hn⟩, hi⟩

/-- The lines a list command asks for are lines of the script. -/
theorem listLines_isOk (list : List Text) (firstLine lastLine : ℤ) (hfirst : 1 ≤ firstLine)
    (hlast : lastLine ≤ list.length) : Inspect.listLines list firstLine lastLine = .ok () := by
  rw [listLines_eq_ok]
  intro index _ _
  exact .inr ⟨by omega, by omega⟩

theorem listCommand_isOk (list args : List Text)
    (h : ∀ k, args[0]? = some k → 1 ≤ (atoi k).val) : Inspect.listCommand list args = .ok () := by
  have hfirst : 1 ≤ ((args[0]?.map atoi).map CInt.val).getD 1 := by
    cases hk : args[0]? with
    | none => exact le_rfl
    | some k => exact h k hk
  unfold Inspect.listCommand
  dsimp only
  rw [if_neg (by omega)]
  cases args[1]? with
  | none =>
    refine listLines_isOk _ _ _ hfirst ?_
    split_ifs <;> omega
  | some pLine =>
    dsimp only
    split_ifs with hmore
    · exact listLines_isOk _ _ _ hfirst le_rfl
    · rfl
    · exact listLines_isOk _ _ _ hfirst (by omega)

theorem bind_isOk {α β : Type} {x : Except Fault α} {f : α → β} :
    (∃ r, (x >>= fun a => .ok (f a)) = .ok r) ↔ ∃ a, x = .ok a := by
  cases x with
  | error why => simp [bind, Except.bind]
  | ok a => simp [bind, Except.bind]

/-- The print command can fail only when it is to print a trace. -/
theorem printCommand_isOk (which : Text) :
    (∃ u, printCommand L (some which) = .ok u) ↔
      (which = txt "trace" → drawStackTrace L = .ok ()) := by
  by_cases htrace : which = txt "trace"
  · simp only [printCommand, token, bind, Except.bind, htrace, if_true, forall_true_left]
    constructor
    · rintro ⟨⟨⟩, hu⟩
      exact hu
    · intro hu
      exact ⟨(), hu⟩
  · simp [printCommand, token, bind, Except.bind, htrace, pure, Except.pure]

theorem inspected_isOk (list : List Text) (pCmd : Text) (args : List Text)
    (h : WellFormed (dispatch pCmd) args) :
    (∃ r, inspected L list pCmd args = .ok r) ↔ Undisturbed L (dispatch pCmd) args := by
  unfold inspected
  cases hc : dispatch pCmd with
  | getGlobals =>
    -- the globals that are come by are those of the walk, so that their rooms are asked for there
    refine bind_isOk.trans ?_
    simp only [getGlobals_eq_ok _ Buffers.inhabited_declared]
    constructor
    · rintro ⟨t, es, hw, hroom, hfit, -⟩
      refine ⟨walk_isOk_iff.mp ⟨es, hw⟩, fun e he => hroom e ((comes_iff hw).mp he), ?_⟩
      intro es' hw'
      obtain rfl := Except.ok.inj (hw.symm.trans hw')
      exact hfit
    · rintro ⟨hends, hroom, hfit⟩
      obtain ⟨es, hw⟩ := walk_isOk_iff.mpr hends
      exact ⟨_, es, hw, fun e he => hroom e ((comes_iff hw).mpr he), hfit es hw, rfl⟩
  | display =>
    refine bind_isOk.trans (Unique.exists_iff.trans ((listGlobals_eq_ok L _).trans ?_))
    constructor
    · rintro ⟨es, hw, hnames⟩
      exact ⟨walk_isOk_iff.mp ⟨es, hw⟩, fun e he => hnames e ((comes_iff hw).mp he)⟩
    · rintro ⟨hends, hnames⟩
      obtain ⟨es, hw⟩ := walk_isOk_iff.mpr hends
      exact ⟨es, hw, fun e he => hnames e ((comes_iff hw).mpr he)⟩
  | dataForIde =>
    refine bind_isOk.trans ?_
    simp [stackDumpForIde_eq_ok _ Buffers.inhabited_declared, Undisturbed]
  | varForIde =>
    -- only here, for print and for list the arguments matter, and they are well formed
    rw [hc] at h
    obtain ⟨k, hk⟩ : ∃ k, args[0]? = some k := by
      have hlt : 0 < args.length := by simp only [WellFormed] at h; omega
      exact ⟨args[0], List.getElem?_eq_getElem hlt⟩
    rw [hk]
    refine bind_isOk.trans ?_
    simp [getLocalVarValue_eq_ok _ Buffers.inhabited_declared, Undisturbed, hk]
  | stackForIde =>
    refine bind_isOk.trans ?_
    simp [ideStackTrace_eq_ok _ Buffers.inhabited_declared, Undisturbed]
  | print =>
    rw [hc] at h
    obtain ⟨which, rest, rfl⟩ := List.exists_cons_of_ne_nil h
    refine bind_isOk.trans ?_
    rw [List.getElem?_cons_zero, printCommand_isOk, drawStackTrace_eq_ok]
    simp [Undisturbed]
  | list =>
    rw [hc] at h
    refine bind_isOk.trans ?_
    rw [listCommand_isOk list args fun k hk => (h k hk).1]
    simp [Undisturbed]
  | _ =>
    rw [hc] at h
    exact h.elim

variable (L)

/-- Commands that the parser reads one after the other. -/
def inspectAll (list : List Text) : List (Text × List Text) → Api Unit
  | [] => return ()
  | (pCmd, args) :: cs => do
    let _ ← inspect L list pCmd args
    inspectAll list cs

/-- Inspection commands come to their end without a Lua error and without a key that has no
text, and leave the registers, the globals and the tables as they were, if and only if the
program has what each of them needs. -/
theorem inspectAll_restores_iff (list : List Text) (cs : List (Text × List Text))
    (h : ∀ c ∈ cs, WellFormed (dispatch c.1) c.2) :
    (inspectAll L list cs).run (Machine.hooked L) = .ok ((), Machine.hooked L) ↔
      ∀ c ∈ cs, Undisturbed L (dispatch c.1) c.2 := by
  induction cs with
  | nil =>
    have hnone : (inspectAll L list []).run (Machine.hooked L) = .ok ((), Machine.hooked L) := rfl
    simp [hnone]
  | cons c cs ih =>
    obtain ⟨pCmd, args⟩ := c
    have hends := inspect_ends (L := L) list pCmd args
    have hok := inspected_isOk (L := L) list pCmd args (h _ List.mem_cons_self)
    have ih := ih fun c hc => h c (List.mem_cons_of_mem _ hc)
    rw [inspectAll, StateT.run_bind, bind_eq_ok, List.forall_mem_cons, ← hok, ← ih]
    constructor
    · rintro ⟨⟨r, s⟩, hr, hrest⟩
      obtain ⟨hx, rfl⟩ := (hends r s).mp hr
      exact ⟨⟨r, hx⟩, hrest⟩
    · rintro ⟨⟨r, hx⟩, hrest⟩
      exact ⟨(r, Machine.hooked L), (hends r _).mpr ⟨hx, rfl⟩, hrest⟩

end Commands

/-- A script stopped behind `x = "y"`, if that is its first line. -/
theorem inspection_of_string :
    let L := (LuaState.mainChunk (txt "@a.lua") 2).withGlobals
      [(.string (txt "x"), .string (txt "y"))]
    let cs := [(txt "display", []), (txt "data", []), (txt "list", [txt "1"])]
    (inspectAll L [txt "x = 'y'"] cs).run (Machine.hooked L) = .ok ((), Machine.hooked L) := by
  intro L cs
  have hdisplay : dispatch (txt "display") = .display := by decide
  have hdata : dispatch (txt "data") = .dataForIde := by decide
  have hlist : dispatch (txt "list") = .list := by decide
  have hkeys : ∀ e ∈ L.heap L.globals, e.1 = .string (txt "x") := by
    intro e he
    rw [List.mem_singleton.mp he]
  refine (inspectAll_restores_iff L _ cs ?_).mpr ?_
  · simp only [cs, List.forall_mem_cons, hdisplay, hdata, hlist]
    refine ⟨trivial, trivial, ?_, by simp⟩
    intro k hk
    obtain rfl := Option.some.inj hk
    decide
  · simp only [cs, List.forall_mem_cons, hdisplay, hdata, hlist]
    refine ⟨⟨traversable_of_strings fun e he _ n => ?_, ?_⟩, rfl, trivial, by simp⟩
    · rw [hkeys e he]
      simp
    · rintro e ⟨i, -, hi⟩ -
      rw [hkeys e (List.mem_of_getElem? hi)]
      simp [tostring]

/-- The script that ran `_G[1] = "x"`: `lua_tostring` makes a string of the key, which is no key
of the table, and `lua_next` raises an error. -/
theorem number_key_raises :
    ¬ ∀ (L : LuaState) (list : List Text) (cs : List (Text × List Text)),
      (∀ c ∈ cs, WellFormed (dispatch c.1) c.2) →
        (inspectAll L list cs).run (Machine.hooked L) = .ok ((), Machine.hooked L) := by
  intro h
  let L := (LuaState.mainChunk (txt "@a.lua") 2).withGlobals
    [(.number (digit 1), .string (txt "x"))]
  have hd : dispatch (txt "getglobals") = .getGlobals := by decide
  have hrun := h L [] [(txt "getglobals", [])] (by simp [hd, WellFormed])
  have herror : (inspectAll L [] [(txt "getglobals", [])]).run (Machine.hooked L) =
      .error .luaError := by
    rw [inspectAll, inspect, hd]
    rfl
  rw [herror] at hrun
  cases hrun

end LuaIde
