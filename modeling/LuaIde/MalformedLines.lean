import LuaIde.Undisturbed

/-! Command lines that lack a word or an argument: when a null pointer of `strtok` gets to
`strstr`, `atoi` or `strcmp`, and what is left of the line in the state of ldb and of the
program. -/
namespace LuaIde

open LineText DecimalText CheckedFold

/-- The variables whose names are compared with the argument of `var`. -/
def searchedLocals (L : LuaState) (frameNumber : ℤ) : List (Text × LuaValue) :=
  ((L.getstack frameNumber).map L.getlocals).getD []

/-- How many arguments a command requires. -/
def requiredArguments : Command → ℕ
  | .varForIde => 2
  | .setbreak | .clrbreak | .print => 1
  | _ => 0

/-- The line has no word, or its command lacks a required argument. -/
def malformed (data : Text) : Prop :=
  ∀ pCmd args, commandWords data = pCmd :: args →
    args.length < requiredArguments (dispatch pCmd)

/-- The text a line is read as. What comes from the socket ends at a zero byte. -/
def readText (dbg : DebuggerType) (line : Text) : Text :=
  match dbg with
  | .ide => cstr line
  | .ldb => line

/-- Of a line that comes whole through the socket, an empty text is not handled any further, and
every other one is handled as it is read. -/
theorem receive_line (L : LuaState) (w : World) {line : Text}
    (h : readText .ide line = [] ∨ '\n' ∈ readText .ide line) :
    receive .ide L none (.data line) w =
      if readText .ide line = [] then { w with status := .waiting L none }
      else react .ide L w (readText .ide line) false := by
  rw [readText] at h ⊢
  rcases h with h | h
  · simp [receive, intake, h]
  · have hne : cstr line ≠ [] := List.ne_nil_of_mem h
    simp [receive, intake, h, hne]

/-- The parser reads no further than the line, hands no missing token on, and if the line is
malformed, that is reported and the breakpoints, the mode and the program are as before. -/
structure Survivable (dbg : DebuggerType) (L : LuaState) (d : Ldb) (line : Text) : Prop where
  terminated : ¬ unterminated dbg d (readText dbg line)
  given : handle dbg L d (readText dbg line) ≠ .error .missingToken
  reported : malformed (readText dbg line) →
    ∃ r, handle dbg L d (readText dbg line) = .ok r ∧ r.report ≠ none
  kept : ∀ r, malformed (readText dbg line) → handle dbg L d (readText dbg line) = .ok r →
    r.state.allScriptsBreakpoints = d.allScriptsBreakpoints ∧
      r.state.debuggerStates = d.debuggerStates
  untouched : malformed (readText dbg line) → ∀ pCmd args r s,
    commandWords (readText dbg line) = pCmd :: args →
      (inspect L (d.allScriptsLines L.source) pCmd args).run (Machine.hooked L) = .ok (r, s) →
        s = Machine.hooked L

/-- The words a command looks at are there. Only at a level with local variables `var` looks
at its second one. -/
def hasArguments (L : LuaState) (c : Command) (args : List Text) : Prop :=
  match c with
  | .varForIde => ∃ pFrameNumber rest, args = pFrameNumber :: rest ∧
      (rest = [] → searchedLocals L (atoi pFrameNumber).val = [])
  | .setbreak | .clrbreak | .print => args ≠ []
  | _ => True

/-- The line is empty for the branch of the socket, or has a word and the words its command
looks at. -/
def hasWords (dbg : DebuggerType) (L : LuaState) (line : Text) : Prop :=
  (dbg = .ide ∧ readText dbg line = []) ∨
    ∃ pCmd args, commandWords (readText dbg line) = pCmd :: args ∧
      hasArguments L (dispatch pCmd) args

section Tokens

variable (L : LuaState)

/-- The traversals of the globals hand on null pointers that `lua_tostring` returned, but no
tokens. -/
theorem globalEntry_ne_missing (val : Text) (key v : LuaValue) :
    globalEntry .declared L val key v ≠ .error .missingToken := by
  have hcat (cap : Option ℕ) (dst src : Text) : strcat cap dst src ≠ .error .missingToken :=
    (strcat_failsOnly cap dst src).ne_error (by decide)
  have hprint (cap : Option ℕ) (s : Text) : sprintf cap s ≠ .error .missingToken := hcat cap [] s
  have hname : notNull (tostring key) ≠ .error .missingToken := by
    cases tostring key <;> simp [notNull]
  have hpair (text : Text) :
      appendPair .declared val (tostring key) text ≠ .error .missingToken :=
    bind_ne_error (hprint _ _) fun value => bind_ne_error hname fun name =>
      bind_ne_error (hcat _ _ _) fun val => bind_ne_error (hcat _ _ _) fun val =>
        bind_ne_error (hcat _ _ _) fun val => hcat _ _ _
  cases v with
  | function => simp [globalEntry]
  | number n | string s | boolean b => exact hpair _
  | table ref =>
    apply bind_ne_error (hcat _ _ _)
    intro val
    refine bind_ne_error (foldlM_ne_error (fun val e => ?_) _ val) fun val => hcat _ _ _
    apply bind_ne_error hname
    intro name
    exact (globalElement_failsOnly _ name val e).ne_error (by decide)
  | _ => exact bind_ne_error (hprint _ _) fun value => hcat _ _ _

theorem getGlobals_ne_missing : getGlobals .declared L ≠ .error .missingToken :=
  traverse_ne_error (globalEntry_ne_missing L) (by decide) (by decide) _ _ _

theorem listGlobals_ne_missing (skips : LuaValue → Bool) :
    listGlobals L skips ≠ .error .missingToken := by
  refine traverse_ne_error (fun _ k v => ?_) (by decide) (by decide) _ _ _
  unfold readName
  split_ifs
  · exact fun h => nomatch h
  · cases tostring k <;> simp [notNull, bind, Except.bind]

/-- A level with local variables asks for a name, every time. -/
theorem getLocalVarValue_missing_iff (nLevel : ℤ) :
    getLocalVarValue .declared L nLevel none = .error .missingToken ↔
      searchedLocals L nLevel ≠ [] := by
  have hnotFound : strcat Buffers.declared.val [] (txt "notFound") = .ok (txt "notFound") := by
    rw [strcat_eq_ok]
    decide
  rw [getLocalVarValue, hnotFound, searchedLocals]
  rcases L.getstack nLevel with _ | level
  · exact iff_of_false (by simp [bind, Except.bind]) (by simp)
  · simp only [Option.map_some, Option.getD_some]
    rcases L.getlocals level with _ | ⟨⟨name, v⟩, ls⟩
    · exact iff_of_false (by simp [findLocal, bind, Except.bind]) (by simp)
    · exact iff_of_true rfl (by simp)

/-- What `var` does with its words. -/
theorem varForIde_missing_iff (f : Text → Reaction) (args : List Text) :
    (token args[0]? >>= fun k => getLocalVarValue .declared L (atoi k).val args[1]? >>= fun val =>
      (.ok (f val) : Except Fault Reaction)) = .error .missingToken ↔
      ¬ hasArguments L .varForIde args := by
  rcases args with _ | ⟨pFrameNumber, _ | ⟨var, rest⟩⟩
  · exact iff_of_true rfl (by simp [hasArguments])
  · refine (bind_ok_eq_error (x := getLocalVarValue .declared L (atoi pFrameNumber).val none)).trans
      ((getLocalVarValue_missing_iff L _).trans ?_)
    simp [hasArguments]
  · have hx := (getLocalVarValue_failsOnly L (atoi pFrameNumber).val var).ne_error
      (e := .missingToken) (by decide)
    refine iff_of_false (fun h => hx ?_) (by simp [hasArguments])
    exact bind_ok_eq_error.mp h

/-- A command that asks for one word and goes on with it. -/
theorem oneToken_missing_iff {β : Type} {f : Text → Except Fault β} (args : List Text)
    (hf : ∀ k, f k ≠ .error .missingToken) :
    (token args[0]? >>= f) = .error .missingToken ↔ ¬ args ≠ [] := by
  cases args with
  | nil => exact iff_of_true rfl (by simp)
  | cons k as => exact iff_of_false (hf k) (by simp)

/-- A missing token is handed on exactly when the command looks at a word that is not there. -/
theorem execute_missing_iff (dbg : DebuggerType) (d : Ldb) (pCmd : Text) (args : List Text) :
    execute dbg L d pCmd args = .error .missingToken ↔ ¬ hasArguments L (dispatch pCmd) args := by
  unfold execute
  cases hd : dispatch pCmd with
  | varForIde => exact varForIde_missing_iff L _ args
  | setbreak =>
    refine oneToken_missing_iff args fun k => ?_
    dsimp only
    split_ifs <;> simp
  | clrbreak =>
    refine oneToken_missing_iff args fun k => ?_
    dsimp only
    split_ifs <;> simp
  | print =>
    refine bind_ok_eq_error.trans (oneToken_missing_iff args fun which => ?_)
    split_ifs
    · exact (drawStackTrace_failsOnly L).ne_error (by decide)
    · exact fun h => nomatch h
  | getGlobals =>
    exact iff_of_false (fun h => getGlobals_ne_missing L (bind_ok_eq_error.mp h))
      (not_not.mpr trivial)
  | display =>
    exact iff_of_false (fun h => listGlobals_ne_missing L _ (bind_ok_eq_error.mp h))
      (not_not.mpr trivial)
  | dataForIde =>
    have hx := (stackDumpForIde_failsOnly L .declared).ne_error (e := .missingToken) (by decide)
    exact iff_of_false (fun h => hx (bind_ok_eq_error.mp h)) (not_not.mpr trivial)
  | stackForIde =>
    have hx := (ideStackTrace_failsOnly L .declared).ne_error (e := .missingToken) (by decide)
    exact iff_of_false (fun h => hx (bind_ok_eq_error.mp h)) (not_not.mpr trivial)
  | list =>
    have hx := (listCommand_failsOnly (d.allScriptsLines L.source) args).ne_error
      (e := .missingToken) (by decide)
    refine iff_of_false (fun h => hx ?_) (not_not.mpr trivial)
    exact bind_ok_eq_error.mp h
  | suspend | assign | step | resume | quit | help | notFound => simp [hasArguments]

end Tokens

theorem lineBuffer_ide_eq_nil {line : Text} :
    lineBuffer (readText .ide line) = [] ↔ readText .ide line = [] := by
  rw [readText, lineBuffer, cstr_cstr]
  simp

/-- An empty line has no word. -/
theorem malformed_of_empty {data : Text} (he : lineBuffer data = []) : malformed data := by
  intro pCmd args hw
  exact absurd he (lineBuffer_ne_nil_of_words hw)

/-- Of a line that ends inside of the array no missing token is handed on, if it is empty or
has the words its command looks at. -/
theorem handle_missing_iff (dbg : DebuggerType) (L : LuaState) (d : Ldb) {data : Text}
    (hend : ¬ unterminated dbg d data) : handle dbg L d data ≠ .error .missingToken ↔
      lineBuffer data = [] ∨
        ∃ pCmd args, commandWords data = pCmd :: args ∧ hasArguments L (dispatch pCmd) args := by
  by_cases hne : lineBuffer data = []
  · rw [handle, if_pos hne]
    exact iff_of_true (by simp) (.inl hne)
  · rw [handle_eq dbg L d data hne hend, or_iff_right hne]
    cases hw : commandWords data with
    | nil => simp
    | cons pCmd args =>
      rw [ne_eq, execute_missing_iff, not_not]
      constructor
      · exact fun h => ⟨pCmd, args, rfl, h⟩
      · rintro ⟨c, as, hcons, h⟩
        obtain ⟨rfl, rfl⟩ := List.cons.inj hcons
        exact h

/-- A malformed line with the words its command looks at asks for a variable, does not say
which, and none is there. -/
theorem malformed_cases {L : LuaState} {pCmd : Text} {args : List Text}
    (hshort : args.length < requiredArguments (dispatch pCmd))
    (hargs : hasArguments L (dispatch pCmd) args) :
    dispatch pCmd = .varForIde ∧ ∃ pFrameNumber, args = [pFrameNumber] ∧
      searchedLocals L (atoi pFrameNumber).val = [] := by
  cases hd : dispatch pCmd with
  | varForIde =>
    rw [hd] at hshort hargs
    obtain ⟨pFrameNumber, rest, rfl, hnone⟩ := hargs
    have hrest : rest = [] := by
      simp only [requiredArguments, List.length_cons] at hshort
      exact List.eq_nil_of_length_eq_zero (by omega)
    subst hrest
    exact ⟨rfl, pFrameNumber, rfl, hnone rfl⟩
  | setbreak | clrbreak | print =>
    rw [hd, requiredArguments, Nat.lt_one_iff] at hshort
    rw [hd, hasArguments] at hargs
    exact absurd (List.eq_nil_of_length_eq_zero hshort) hargs
  | _ => simp [hd, requiredArguments] at hshort

/-- Then the answer is that it is not found. -/
theorem var_not_found {L : LuaState} {nLevel : ℤ} (h : searchedLocals L nLevel = []) :
    varText L nLevel none = txt "notFound" ∧ varRoom .declared L nLevel none := by
  have hwanted : wantedLocal L nLevel none = none := by
    rw [searchedLocals] at h
    rw [wantedLocal]
    cases hl : L.getstack nLevel with
    | none => rfl
    | some level =>
      have hlocals : L.getlocals level = [] := by simpa [hl] using h
      simp [hlocals, firstLocal]
  refine ⟨by rw [varText, hwanted], by decide, ?_, by simp [hwanted]⟩
  intro level hl
  right
  simpa [searchedLocals, hl] using h

/-- A malformed line that gets its answer is reported. -/
theorem malformed_reported {dbg : DebuggerType} {L : LuaState} {d : Ldb} {data pCmd : Text}
    {args : List Text} (hend : ¬ unterminated dbg d data) (hw : commandWords data = pCmd :: args)
    (hmalformed : malformed data) (hargs : hasArguments L (dispatch pCmd) args) :
    ∃ r, handle dbg L d data = .ok r ∧ r.report ≠ none := by
  have hne := lineBuffer_ne_nil_of_words hw
  -- the only malformed line that is left asks for a variable where there is none
  obtain ⟨hd, pFrameNumber, rfl, hnone⟩ := malformed_cases (hmalformed pCmd args hw) hargs
  obtain ⟨htext, hroom⟩ := var_not_found hnone
  rw [handle_eq dbg L d data hne hend, hw]
  refine ⟨_, (execute_eq_ok dbg L _ pCmd [pFrameNumber] _).mpr ⟨?_, rfl⟩, ?_⟩
  · rw [hd]
    exact ⟨pFrameNumber, rfl, hroom⟩
  · simp [reportText, hd, htext]

/-- A malformed line changes neither a list nor the mode. -/
theorem malformed_kept {dbg : DebuggerType} {L : LuaState} {d : Ldb} {data : Text} {r : Reaction}
    (hmalformed : malformed data) (hr : handle dbg L d data = .ok r) :
    r.state.allScriptsBreakpoints = d.allScriptsBreakpoints ∧
      r.state.debuggerStates = d.debuggerStates := by
  rw [(handle_effects dbg L d data r hr).1, Ldb.perform]
  have htaken : (d.takeLine dbg data).allScriptsBreakpoints = d.allScriptsBreakpoints ∧
      (d.takeLine dbg data).debuggerStates = d.debuggerStates := ⟨rfl, rfl⟩
  cases hw : commandWords data with
  | nil => exact htaken
  | cons pCmd args =>
    dsimp only
    have hshort := hmalformed pCmd args hw
    cases hd : dispatch pCmd with
    | setbreak | clrbreak =>
      rw [hd, requiredArguments, Nat.lt_one_iff] at hshort
      have hnone : lineArgument args = none := by
        rw [List.eq_nil_of_length_eq_zero hshort]
        rfl
      rw [Ldb.execute_noLine _ _ _ _ rfl hnone]
      exact htaken
    | varForIde | print =>
      rw [Ldb.execute_other _ _ _ _ rfl (by decide) (by decide)]
      exact htaken
    | _ => simp [hd, requiredArguments] at hshort

/-- A line survives if and only if it ends inside of the array, and is an empty one that came
through the socket or has a word and gives its command the words that the command looks at. -/
theorem survivable_iff (dbg : DebuggerType) (L : LuaState) (d : Ldb) (line : Text) :
    Survivable dbg L d line ↔
      ¬ unterminated dbg d (readText dbg line) ∧ hasWords dbg L line := by
  constructor
  · rintro ⟨hend, hgiven, hreported, -, -⟩
    refine ⟨hend, ?_⟩
    rcases (handle_missing_iff dbg L d hend).mp hgiven with hempty | hwords
    · -- on the console an empty line is not reported
      obtain ⟨r, hr, hreport⟩ := hreported (malformed_of_empty hempty)
      rw [handle, if_pos hempty] at hr
      cases dbg with
      | ide => exact .inl ⟨rfl, lineBuffer_ide_eq_nil.mp hempty⟩
      | ldb =>
        rw [← Except.ok.inj hr] at hreport
        exact absurd rfl hreport
    · exact .inr hwords
  · rintro ⟨hend, hwords⟩
    have hgiven : handle dbg L d (readText dbg line) ≠ .error .missingToken := by
      apply (handle_missing_iff dbg L d hend).mpr
      rcases hwords with ⟨rfl, hempty⟩ | hwords
      · exact .inl (lineBuffer_ide_eq_nil.mpr hempty)
      · exact .inr hwords
    refine ⟨hend, hgiven, fun hmalformed => ?_, fun r hm hr => malformed_kept hm hr, ?_⟩
    · rcases hwords with ⟨rfl, hempty⟩ | ⟨pCmd, args, hw, hargs⟩
      · refine ⟨_, if_pos (lineBuffer_ide_eq_nil.mpr hempty), ?_⟩
        simp [emptyLine, Reaction.complaint]
      · exact malformed_reported hend hw hmalformed hargs
    · intro _ pCmd args r s _ hrun
      exact ((inspect_ends _ pCmd args r s).mp hrun).2

/-- A break command without a line number hands a null pointer to `atoi`. -/
theorem break_without_line :
    let L := LuaState.mainChunk (txt "a.lua") 1
    let d := Ldb.initial fun _ => []
    handle .ide L d (txt "break\n") = .error .missingToken ∧
      ¬ Survivable .ide L d (txt "break\n") := by
  intro L d
  have hnull : handle .ide L d (txt "break\n") = .error .missingToken := by rfl
  exact ⟨hnull, fun h => h.given hnull⟩

end LuaIde
