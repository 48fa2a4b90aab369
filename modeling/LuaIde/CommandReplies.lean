import LuaIde.CommandEffects
import LuaIde.StackTexts

/-! When a command comes to its end, and what it writes on the command socket. -/
namespace LuaIde

open LineText DecimalText Delimited CheckedFold

/-- The line `drawStackTrace` puts together for a level. -/
def levelDescription (level : Level) : Text :=
  let ar := level.getinfo
  ar.name.getD [] ++ (txt "," ++ (ar.namewhat.getD [] ++ (txt "," ++ (ar.what.getD [] ++
    (txt "," ++ ar.source)))))

/-- A command with these words comes to its end: the words it needs are there, the
arrays have room, the traversals end without a Lua error, and the lines it lists are lines of
the script. -/
def completes (L : LuaState) (d : Ldb) (c : Command) (args : List Text) : Prop :=
  match c with
  | .getGlobals => ∃ es, globalsWalk L = .ok es ∧ (∀ e ∈ es, entryRoom .declared L e) ∧
      ∀ pre, pre <+: es → fits Buffers.declared.val (globalsText L pre).length
  | .dataForIde => fits Buffers.declared.data (dumpText L).length
  | .varForIde => ∃ k, args[0]? = some k ∧ varRoom .declared L (atoi k).val args[1]?
  | .stackForIde =>
    (∀ level ∈ L.levels,
      fits Buffers.declared.number (ofInt level.getinfo.currentline.val).length) ∧
      fits Buffers.declared.str (traceText L).length
  | .setbreak | .clrbreak => args ≠ []
  | .list => Inspect.listCommand (d.allScriptsLines L.source) args = .ok ()
  | .display => ∃ es, walk (L.heap L.globals) (L.cleared L.globals)
      (fun v => !displaySkips args v) ((L.heap L.globals).length + 1) 0 = .ok es ∧
        ∀ e ∈ es, displaySkips args e.2 = false → tostring e.1 ≠ none
  | .print => ∃ which, args[0]? = some which ∧ (which = txt "trace" →
      ∀ level ∈ L.levels, fits Buffers.declared.szDesc (levelDescription level).length)
  | _ => True

/-- The line a command answers with, if it answers. -/
def answerText (L : LuaState) (d : Ldb) (pCmd : Text) (args : List Text) : Option Text :=
  match dispatch pCmd with
  | .getGlobals => (globalsWalk L).toOption.map (globalsText L)
  | .dataForIde => some (dumpText L)
  | .varForIde => args[0]?.map (fun k => varText L (atoi k).val args[1]?)
  | .stackForIde => some (traceText L)
  | .suspend | .step => some (txt "ok")
  | .setbreak => (lineArgument args).map (fun n =>
      txt "setting breakpoint at " ++ L.source ++ txt " line " ++ ofInt n.val)
  | .clrbreak => ((lineArgument args).filter
      (fun n => decide (n ∈ d.allScriptsBreakpoints L.source))).map (fun _ => txt "ok clear")
  | .resume => some (txt "ok resume")
  | .notFound => some (txt "ERROR, command not found: " ++ pCmd)
  | .list | .display | .assign | .print | .quit | .help => none

/-- The error a command reports, if it comes to its end. -/
def reportText (L : LuaState) (pCmd : Text) (args : List Text) : Option Text :=
  match dispatch pCmd with
  | .varForIde => (args[0]?.map (fun k => varText L (atoi k).val args[1]?)).filter
      (fun val => decide (val = txt "notFound"))
  | .list => if Inspect.commandError args then some (txt "invalid command") else none
  | .setbreak | .clrbreak => if lineArgument args = none then some noLineNumber else none
  | .assign => some (txt "assign command not implemented")
  | .print => args[0]?.bind unknownPrint
  | .notFound => some (txt "ERROR, command not found: " ++ pCmd)
  | _ => none

theorem drawLevel_eq_ok (level : Level) :
    drawLevel level = .ok () ↔ fits Buffers.declared.szDesc (levelDescription level).length := by
  have hcap := writes_strcat Buffers.declared.szDesc
  have h := (hcap (level.getinfo.name.getD [])).bind ((hcap (txt ",")).bind
    ((hcap (level.getinfo.namewhat.getD [])).bind ((hcap (txt ",")).bind
      ((hcap (level.getinfo.what.getD [])).bind ((hcap (txt ",")).bind
        (hcap level.getinfo.source))))))
  have h0 := h [] (by decide)
  have hfinal := fun t => h0 t
  simp only [and_true, true_and, List.nil_append, List.length_nil, Nat.zero_add] at hfinal
  constructor
  · intro hd
    simp only [drawLevel, bind_eq_ok] at hd
    obtain ⟨a, ha, b, hb, c, hc, e, he, f, hf, g, hg, x, hx, -⟩ := hd
    have hall := (hfinal x).mp (by
      simp only [bind_eq_ok]
      exact ⟨a, ha, b, hb, c, hc, e, he, f, hf, g, hg, hx⟩)
    exact hall.1
  · intro hfit
    have hall := (hfinal (levelDescription level)).mpr ⟨hfit, rfl⟩
    simp only [bind_eq_ok] at hall
    obtain ⟨a, ha, b, hb, c, hc, e, he, f, hf, g, hg, hx⟩ := hall
    simp only [drawLevel, bind_eq_ok]
    exact ⟨a, ha, b, hb, c, hc, e, he, f, hf, g, hg, _, hx, rfl⟩

theorem drawStackTrace_eq_ok (L : LuaState) :
    drawStackTrace L = .ok () ↔
      ∀ level ∈ L.levels, fits Buffers.declared.szDesc (levelDescription level).length := by
  unfold drawStackTrace
  induction L.levels with
  | nil => simp [pure, Except.pure]
  | cons level levels ih =>
    change (drawLevel level >>= fun _ => levels.forM drawLevel) = .ok () ↔ _
    rw [bind_eq_ok, List.forall_mem_cons, ← ih, ← drawLevel_eq_ok]
    constructor
    · rintro ⟨⟨⟩, h⟩
      exact h
    · intro h
      exact ⟨(), h⟩

/-- The display command reads the names of the globals it does not leave out. -/
theorem readNames_eq_ok (skips : LuaValue → Bool) (es : Table) :
    es.foldlM (fun u e => readName skips u e.1 e.2) () = .ok () ↔
      ∀ e ∈ es, skips e.2 = false → tostring e.1 ≠ none := by
  rw [foldlM_checks_eq_ok]
  apply forall₂_congr
  intro e _
  rw [readName]
  cases skips e.2 with
  | true => simp
  | false =>
    cases tostring e.1 with
    | none => simp [notNull, bind, Except.bind]
    | some name => simp [notNull, bind, Except.bind]

theorem listGlobals_eq_ok (L : LuaState) (skips : LuaValue → Bool) :
    listGlobals L skips = .ok () ↔
      ∃ es, walk (L.heap L.globals) (L.cleared L.globals) (fun v => !skips v)
        ((L.heap L.globals).length + 1) 0 = .ok es ∧
          ∀ e ∈ es, skips e.2 = false → tostring e.1 ≠ none := by
  rw [listGlobals, traverse_eq_ok]
  simp only [readNames_eq_ok]

section Branches

variable (P : Reaction → Prop)

/-- A branch that makes its reaction of something it computes. -/
theorem computed_eq_ok {α : Type} {x : Except Fault α} {C : Prop} {a : α}
    (hx : ∀ t, x = .ok t ↔ C ∧ t = a) (f : α → Reaction) :
    (∃ r, (x >>= fun t => (.ok (f t) : Except Fault Reaction)) = .ok r ∧ P r) ↔ C ∧ P (f a) := by
  constructor
  · rintro ⟨r, hr, hP⟩
    obtain ⟨t, ht, hr⟩ := bind_eq_ok.mp hr
    obtain ⟨hc, rfl⟩ := (hx t).mp ht
    obtain rfl := Except.ok.inj hr
    exact ⟨hc, hP⟩
  · rintro ⟨hc, hP⟩
    exact ⟨f a, bind_eq_ok.mpr ⟨a, (hx a).mpr ⟨hc, rfl⟩, rfl⟩, hP⟩

/-- A branch that computes nothing but may fail. -/
theorem checked_eq_ok (x : Except Fault Unit) (r₀ : Reaction) :
    (∃ r, (x >>= fun _ => (.ok r₀ : Except Fault Reaction)) = .ok r ∧ P r) ↔
      x = .ok () ∧ P r₀ :=
  computed_eq_ok P (fun ⟨⟩ => (and_iff_left rfl).symm) fun _ => r₀

/-- A branch that asks for a line number, and complains about the line 0. -/
theorem lineCommand_eq_ok (d : Ldb) (args : List Text) (f : CInt → Except Fault Reaction) :
    (∃ r, (token args[0]? >>= fun k =>
      if (atoi k).val = 0 then .ok (.complaint d noLineNumber) else f (atoi k)) = .ok r ∧ P r) ↔
      args ≠ [] ∧ ∃ r, ((lineArgument args).elim (.ok (.complaint d noLineNumber)) f) = .ok r ∧
        P r := by
  cases args with
  | nil => simp [token, bind, Except.bind]
  | cons k as =>
    have hcons : k :: as ≠ [] := List.cons_ne_nil k as
    change (∃ r, (if (atoi k).val = 0 then _ else f (atoi k)) = .ok r ∧ P r) ↔ _
    rw [and_iff_right hcons]
    by_cases hz : (atoi k).val = 0
    · rw [if_pos hz, lineArgument_zero (k :: as) k rfl hz]
      rfl
    · rw [if_neg hz, lineArgument_some (k :: as) k rfl hz]
      rfl

end Branches

/-- A command comes to its end under `completes`, and then its effects are those of its
words, its answer is `answerText`, and what it reports is `reportText`. -/
theorem execute_eq_ok (dbg : DebuggerType) (L : LuaState) (d : Ldb) (pCmd : Text)
    (args : List Text) (r : Reaction) :
    execute dbg L d pCmd args = .ok r ↔
      completes L d (dispatch pCmd) args ∧
        r = { state := d.execute L.source (dispatch pCmd) args
              reply := ((answerText L d pCmd args).map (toIde dbg)).getD []
              events := commandEvents dbg (dispatch pCmd)
              leave := (selectedMode (dispatch pCmd)).isSome
              report := reportText L pCmd args } := by
  -- the effects are known, so it is enough to find when it succeeds, the reply and the report
  suffices h : ∀ reply report,
      (∃ r, execute dbg L d pCmd args = .ok r ∧ (r.reply = reply ∧ r.report = report)) ↔
        completes L d (dispatch pCmd) args ∧
          (((answerText L d pCmd args).map (toIde dbg)).getD [] = reply ∧
            reportText L pCmd args = report) by
    constructor
    · intro hr
      obtain ⟨hc, hreply, hreport⟩ := (h r.reply r.report).mp ⟨r, hr, rfl, rfl⟩
      obtain ⟨hstate, hevents, hleave⟩ := execute_effects dbg L d pCmd args r hr
      refine ⟨hc, ?_⟩
      rw [← hstate, hreply, ← hevents, ← hleave, hreport]
    · rintro ⟨hc, rfl⟩
      obtain ⟨r, hr, hreply, hreport⟩ := (h _ _).mpr ⟨hc, rfl, rfl⟩
      obtain ⟨hstate, hevents, hleave⟩ := execute_effects dbg L d pCmd args r hr
      rw [hr, ← hstate, ← hreply, ← hevents, ← hleave, ← hreport]
  intro reply report
  set P : Reaction → Prop := fun r => r.reply = reply ∧ r.report = report with hP
  -- a branch that cannot fail
  have hok (x : Reaction) : (∃ r, (.ok x : Except Fault Reaction) = .ok r ∧ P r) ↔
      True ∧ P x := by
    simp
  unfold execute answerText reportText completes
  cases hd : dispatch pCmd with
  | getGlobals =>
    -- the text depends on the pairs that the walk has found
    simp only [bind_eq_ok, getGlobals_eq_ok _ Buffers.inhabited_declared]
    constructor
    · intro ⟨r, ⟨t, ⟨es, hw, hroom, hfit, ht⟩, hr⟩, hreply, hreport⟩
      refine ⟨⟨es, hw, hroom, hfit⟩, ?_, ?_⟩
      · rw [← hreply, ← Except.ok.inj hr, hw, ht]
        rfl
      · rw [← hreport, ← Except.ok.inj hr]
        rfl
    · intro ⟨⟨es, hw, hroom, hfit⟩, hreply, hreport⟩
      refine ⟨_, ⟨_, ⟨es, hw, hroom, hfit, rfl⟩, rfl⟩, ?_, hreport⟩
      rw [← hreply, hw]
      rfl
  | dataForIde =>
    exact computed_eq_ok P (stackDumpForIde_eq_ok _ Buffers.inhabited_declared L) _
  | varForIde =>
    cases args with
    | nil => simp [token, bind, Except.bind]
    | cons k as =>
      refine (computed_eq_ok P
        (getLocalVarValue_eq_ok _ Buffers.inhabited_declared L (atoi k).val as[0]?) _).trans ?_
      have hroom : (∃ k', (k :: as)[0]? = some k' ∧
          varRoom .declared L (atoi k').val (k :: as)[1]?) ↔
            varRoom .declared L (atoi k).val as[0]? := by
        simp
      rw [hroom]
      apply and_congr_right
      intro _
      simp only [List.getElem?_cons_zero, List.getElem?_cons_succ, Option.map_some,
        Option.getD_some, Option.filter_some, decide_eq_true_eq, hP]
      split_ifs <;> rfl
  | stackForIde =>
    exact computed_eq_ok P (ideStackTrace_eq_ok _ Buffers.inhabited_declared L) _
  | setbreak =>
    refine (lineCommand_eq_ok P d args (fun n => .ok (.answer dbg (d.setBreakPointList L.source n)
      (txt "setting breakpoint at " ++ L.source ++ txt " line " ++ ofInt n.val)))).trans
        (and_congr_right' ?_)
    cases lineArgument args with
    | none => simp [hP, Reaction.complaint]
    | some n => simp [hP, Reaction.answer]
  | clrbreak =>
    refine (lineCommand_eq_ok P d args (fun n =>
      if n ∈ d.getBreakPointList L.source then
        .ok (.answer dbg (d.clearBreakPoint L.source n) (txt "ok clear"))
      else .ok (.silent d))).trans (and_congr_right' ?_)
    cases lineArgument args with
    | none => simp [hP, Reaction.complaint]
    | some n =>
      by_cases hm : n ∈ d.allScriptsBreakpoints L.source
      · simp [hP, Reaction.answer, Ldb.getBreakPointList, Option.filter, hm]
      · simp [hP, Reaction.silent, Ldb.getBreakPointList, Option.filter, hm]
  | list =>
    refine (checked_eq_ok P _ _).trans (and_congr_right' ?_)
    split_ifs <;> exact Iff.rfl
  | display =>
    refine (checked_eq_ok P _ _).trans (and_congr (listGlobals_eq_ok L _) Iff.rfl)
  | print =>
    refine (checked_eq_ok P (printCommand L args[0]?) _).trans (and_congr_left' ?_)
    rw [printCommand, bind_eq_ok]
    simp only [token_eq_ok]
    apply exists_congr
    intro which
    apply and_congr_right
    intro _
    rw [← drawStackTrace_eq_ok]
    by_cases ht : which = txt "trace"
    · simp [ht]
    · simp [ht, pure, Except.pure]
  | suspend | assign | step | resume | quit | help | notFound => exact hok _

/-- The traversal of the globals ends with an error raised by Lua. -/
def raises (L : LuaState) (c : Command) (args : List Text) : Prop :=
  match c with
  | .getGlobals => getGlobals .declared L = .error .luaError
  | .display => listGlobals L (displaySkips args) = .error .luaError
  | _ => False

theorem drawLevel_failsOnly (level : Level) : FailsOnly .overflow (drawLevel level) := by
  have happend (s : Text) {β : Type} {k : Text → Except Fault β}
      (hk : ∀ t, FailsOnly .overflow (k t)) (dst : Text) :
      FailsOnly .overflow (strcat Buffers.declared.szDesc dst s >>= k) :=
    (strcat_failsOnly _ dst s).bind hk
  exact happend _ (happend _ (happend _ (happend _ (happend _ (happend _ (happend _
    (fun _ => .ok ()) ) ) ) ) ) ) _

theorem drawStackTrace_failsOnly (L : LuaState) : FailsOnly .overflow (drawStackTrace L) := by
  unfold drawStackTrace
  induction L.levels with
  | nil => exact .ok ()
  | cons level levels ih => exact (drawLevel_failsOnly level).bind fun _ => ih

theorem getFileLine_failsOnly (list : List Text) (index : ℤ) :
    FailsOnly .uninitialised (Inspect.getFileLine list index) := by
  have h := Inspect.getFileLine_cases list index
  split_ifs at h
  · obtain ⟨line, hl⟩ := h
    rw [hl]
    exact .ok line
  · rw [h]
    exact .error

theorem listCommand_failsOnly (list args : List Text) :
    FailsOnly .uninitialised (Inspect.listCommand list args) := by
  have hlines (first last : ℤ) : FailsOnly .uninitialised (Inspect.listLines list first last) :=
    FailsOnly.foldlM (fun _ _ => (getFileLine_failsOnly list _).bind fun _ => .ok ()) _ ()
  unfold Inspect.listCommand
  dsimp only
  by_cases hzero : ((args[0]?.map atoi).map CInt.val).getD 1 = 0
  · rw [if_pos hzero]
    exact .ok ()
  · rw [if_neg hzero]
    cases args[1]? with
    | none => exact hlines _ _
    | some pLine =>
      dsimp only
      split_ifs
      · exact hlines _ _
      · exact .ok ()
      · exact hlines _ _

theorem token_failsOnly (p : Option Text) : FailsOnly .missingToken (token p) := by
  cases p with
  | none => exact .error
  | some s => exact .ok s

/-- An error of Lua comes from a traversal of the globals only. -/
theorem execute_raises_iff (dbg : DebuggerType) (L : LuaState) (d : Ldb) (pCmd : Text)
    (args : List Text) :
    execute dbg L d pCmd args = .error .luaError ↔ raises L (dispatch pCmd) args := by
  have htoken (p : Option Text) : token p ≠ .error .luaError :=
    (token_failsOnly p).ne_error (by decide)
  unfold execute raises
  cases dispatch pCmd with
  | getGlobals | display => exact bind_ok_eq_error
  | dataForIde =>
    have hx := (stackDumpForIde_failsOnly L .declared).ne_error (e := .luaError) (by decide)
    exact iff_of_false (fun h => hx (bind_ok_eq_error.mp h)) id
  | stackForIde =>
    have hx := (ideStackTrace_failsOnly L .declared).ne_error (e := .luaError) (by decide)
    exact iff_of_false (fun h => hx (bind_ok_eq_error.mp h)) id
  | list =>
    have hx := (listCommand_failsOnly (d.allScriptsLines L.source) args).ne_error
      (e := .luaError) (by decide)
    refine iff_of_false (fun h => hx ?_) id
    exact bind_ok_eq_error.mp h
  | varForIde =>
    refine iff_of_false (fun h => ?_) id
    obtain h | ⟨k, -, h⟩ := bind_eq_error.mp h
    · exact htoken _ h
    · have hx : getLocalVarValue .declared L (atoi k).val args[1]? ≠ .error .luaError := by
        cases args[1]? with
        | none => exact (getLocalVarValue_none L _).ne_error (by decide)
        | some var => exact (getLocalVarValue_failsOnly L _ var).ne_error (by decide)
      exact hx (bind_ok_eq_error.mp h)
  | setbreak | clrbreak =>
    refine iff_of_false (fun h => ?_) id
    obtain h | ⟨k, -, h⟩ := bind_eq_error.mp h
    · exact htoken _ h
    · dsimp only at h
      split_ifs at h
  | print =>
    refine iff_of_false (fun h => ?_) id
    obtain h | ⟨which, -, h⟩ := bind_eq_error.mp (bind_ok_eq_error.mp h)
    · exact htoken _ h
    · split_ifs at h with htrace
      · exact (drawStackTrace_failsOnly L).ne_error (by decide) h
      · cases h
  | suspend | assign | step | resume | quit | help | notFound => simp

/-- The words a received text is handled as; an empty text is no command. -/
theorem handle_eq (dbg : DebuggerType) (L : LuaState) (d : Ldb) (data : Text)
    (hne : lineBuffer data ≠ []) (ht : ¬ unterminated dbg d data) :
    handle dbg L d data =
      match commandWords data with
      | [] => .error .missingToken
      | pCmd :: args => execute dbg L (d.takeLine dbg data) pCmd args := by
  rw [handle, if_neg hne, if_neg ht]
  rfl

/-- A received text is handled without a fault. -/
def handles (dbg : DebuggerType) (L : LuaState) (d : Ldb) (data : Text) : Prop :=
  lineBuffer data = [] ∨ (¬ unterminated dbg d data ∧
    ∃ pCmd args, commandWords data = pCmd :: args ∧ completes L d (dispatch pCmd) args)

theorem handle_isOk (dbg : DebuggerType) (L : LuaState) (d : Ldb) (data : Text) :
    (∃ r, handle dbg L d data = .ok r) ↔ handles dbg L d data := by
  by_cases he : lineBuffer data = []
  · simp [handle, handles, he]
  · by_cases ht : unterminated dbg d data
    · simp [handle, handles, he, ht]
    · rw [handle_eq dbg L d data he ht]
      rcases hw : commandWords data with _ | ⟨pCmd, args⟩
      · simp [handles, he, hw]
      · have hx := execute_eq_ok dbg L (d.takeLine dbg data) pCmd args
        constructor
        · rintro ⟨r, hr⟩
          exact .inr ⟨ht, pCmd, args, hw, ((hx r).mp hr).1⟩
        · rintro (h | ⟨-, c, as, h, hc⟩)
          · exact absurd h he
          · obtain ⟨rfl, rfl⟩ := List.cons.inj (hw.symm.trans h)
            exact ⟨_, (hx _).mpr ⟨hc, rfl⟩⟩

/-- The command of a received text raises an error of Lua. -/
def raisesError (dbg : DebuggerType) (L : LuaState) (d : Ldb) (data : Text) : Prop :=
  ¬ unterminated dbg d data ∧
    ∃ pCmd args, commandWords data = pCmd :: args ∧ raises L (dispatch pCmd) args

theorem lineBuffer_ne_nil_of_words {data pCmd : Text} {args : List Text}
    (hw : commandWords data = pCmd :: args) : lineBuffer data ≠ [] := by
  intro hnil
  have hnone : words ' ' (commandLine []) = [] := by decide
  rw [commandWords, hnil, hnone] at hw
  cases hw

theorem handle_raises_iff (dbg : DebuggerType) (L : LuaState) (d : Ldb) (data : Text) :
    handle dbg L d data = .error .luaError ↔ raisesError dbg L d data := by
  by_cases he : lineBuffer data = []
  · rw [handle, if_pos he]
    refine iff_of_false (by simp) ?_
    rintro ⟨-, pCmd, args, hw, -⟩
    exact lineBuffer_ne_nil_of_words hw he
  · by_cases ht : unterminated dbg d data
    · rw [handle, if_neg he, if_pos ht]
      exact iff_of_false (by simp) (fun h => h.1 ht)
    · rw [handle_eq dbg L d data he ht]
      rcases hw : commandWords data with _ | ⟨pCmd, args⟩
      · refine iff_of_false (by simp) ?_
        rintro ⟨-, pCmd, args, h, -⟩
        rw [hw] at h
        cases h
      · rw [execute_raises_iff]
        constructor
        · exact fun h => ⟨ht, pCmd, args, hw, h⟩
        · rintro ⟨-, c, as, h, hr⟩
          obtain ⟨rfl, rfl⟩ := List.cons.inj (hw.symm.trans h)
          exact hr

end LuaIde
