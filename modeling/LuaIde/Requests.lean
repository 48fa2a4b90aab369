import LuaIde.CommandReplies

/-! The requests of the Java model, and when ldb answers one of them with one line. -/
namespace LuaIde

open LineText DecimalText Delimited

/-- The requests of the Java model. -/
inductive Request where
  | resume
  | suspend
  | step
  | exit
  | setBreak (n : CInt)
  | clear (n : CInt)
  | data
  | getglobals
  | stackforide
  | var (frame : CInt) (name : Text)
  | setvar (frame : CInt) (name value : Text)
  | popdata
  | pushdata (value : Text)
  | drop
  | watch (functionName variableName : Text)

/-- The text given to `sendRequest`. -/
def Request.text : Request → Text
  | resume => txt "resume"
  | suspend => txt "suspend"
  | step => txt "step"
  | exit => txt "exit"
  | setBreak n => txt "break " ++ ofInt n.val
  | clear n => txt "clear " ++ ofInt n.val
  | data => txt "data"
  | getglobals => txt "getglobals"
  | stackforide => txt "stackforide"
  | var frame name => txt "var " ++ (ofInt frame.val ++ (txt " " ++ name))
  | setvar frame name value =>
    txt "setvar " ++ (ofInt frame.val ++ (txt " " ++ (name ++ (txt " " ++ value))))
  | popdata => txt "popdata"
  | pushdata value => txt "pushdata " ++ value
  | drop => txt "drop"
  | watch functionName variableName =>
    txt "watch " ++ (functionName ++ (txt "::" ++ (variableName ++ txt " 0")))

/-- What `println` sends. -/
def Request.line (q : Request) : Text := q.text ++ ['\n']

/-- The request arrives whole: no zero byte cuts its newline off, and `line` ends it. -/
def Request.arrives (q : Request) (d : Ldb) : Prop :=
  '\n' ∈ cstr q.line ∧ ¬ unterminated .ide d (cstr q.line)

instance (q : Request) (d : Ldb) : Decidable (q.arrives d) := inferInstanceAs (Decidable (_ ∧ _))

/-- The words of a command of which at most `n` characters fit into `line`. -/
def wordsWithin (n : ℕ) (data : Text) : List Text := words ' ' (commandLine ((cstr data).take n))

/-- The name ldb looks for: what is left of it behind the other words. -/
def nameToken (frame : CInt) (name : Text) : Option Text :=
  (wordsWithin (154 - (ofInt frame.val).length) (name ++ ['\n']))[0]?

/-- A value that does not break the line of a `var` reply. -/
def showsInOneLine (L : LuaState) (name : Text) : LuaValue → Prop
  | .string s => OneLine ((cstr s).take 63)
  | .table ref => ∀ e ∈ L.heap ref, OneLine name ∧ OneLine e.1.printIt ∧ OneLine e.2.printIt
  | _ => True

/-- A global that does not break the line of a `getglobals` reply. -/
def globalInOneLine (e : LuaValue × LuaValue) : Prop :=
  match e.2 with
  | .number _ | .boolean _ => OneLine ((tostring e.1).getD [])
  | .string s => OneLine ((tostring e.1).getD []) ∧ OneLine ((cstr s).take 63)
  | _ => True

/-- When a request gets exactly one line as its reply. -/
def answered (L : LuaState) (d : Ldb) (q : Request) : Prop :=
  q.arrives d ∧
    match q with
    | .resume | .suspend | .step | .exit | .setvar _ _ _ | .watch _ _ => True
    | .setBreak n => n.val ≠ 0 ∧ OneLine L.source
    | .clear n => n.val ≠ 0 ∧ n ∈ d.allScriptsBreakpoints L.source
    | .data => (∀ s, LuaValue.string s ∈ L.stack → OneLine (cstr s)) ∧
        completes L d .dataForIde []
    | .getglobals => completes L d .getGlobals [] ∧
        ∀ es, globalsWalk L = .ok es → ∀ e ∈ kept es, globalInOneLine e
    | .stackforide => completes L d .stackForIde [] ∧
        ∀ level ∈ L.levels, ∀ field ∈ levelFields L level, OneLine field
    | .var frame name => varRoom .declared L frame.val (nameToken frame name) ∧
        ∀ i n v, wantedLocal L frame.val (nameToken frame name) = some (i, n, v) →
          showsInOneLine L n v
    | .popdata | .pushdata _ | .drop => False

/-- At this stop ldb writes one line, and no more, when it receives the request. -/
def writesOneLine (L : LuaState) (w : World) (q : Request) : Prop :=
  ∃ t, OneLine t ∧ (receive .ide L none (.data q.line) w).replies = w.replies ++ (t ++ ['\n'])

/-- A character that neither separates words nor ends a line or a C string. -/
def plain (c : Char) : Prop := c ≠ ' ' ∧ c ≠ '\n' ∧ c ≠ '\r' ∧ c ≠ '\x00'

instance (c : Char) : Decidable (plain c) := inferInstanceAs (Decidable (_ ∧ _))

theorem plain_of_all {w : Text} (h : w.all (fun c => decide (plain c)) = true) :
    ∀ c ∈ w, plain c := by
  simpa using h

theorem plain_ofInt (i : ℤ) : ∀ c ∈ ofInt i, plain c := by
  intro c hc
  refine ⟨?_, ?_, ?_, ?_⟩
  · rintro rfl
    exact not_mem_ofInt (by decide) (by decide) hc
  · rintro rfl
    exact not_mem_ofInt (by decide) (by decide) hc
  · rintro rfl
    exact not_mem_ofInt (by decide) (by decide) hc
  · rintro rfl
    exact not_mem_ofInt (by decide) (by decide) hc

theorem cstr_append_plain (w s : Text) (hw : ∀ c ∈ w, plain c) : cstr (w ++ s) = w ++ cstr s :=
  cstr_append (fun h => (hw _ h).2.2.2 rfl) s

theorem commandLine_append {w s : Text} (hn : '\n' ∉ w) (hr : '\r' ∉ w) :
    commandLine (w ++ s) = w ++ commandLine s := by
  unfold commandLine
  rw [takeWhile_append_of_not_mem hn, takeWhile_append_of_not_mem hr]

theorem commandLine_append_plain (w s : Text) (hw : ∀ c ∈ w, plain c) :
    commandLine (w ++ s) = w ++ commandLine s :=
  commandLine_append (fun h => (hw _ h).2.1 rfl) (fun h => (hw _ h).2.2.1 rfl)

/-- The first word comes off, and the rest has that much less room. -/
theorem wordsWithin_cons (n : ℕ) (w s : Text) (hw : ∀ c ∈ w, plain c) (hne : w ≠ [])
    (hn : w.length < n) :
    wordsWithin n (w ++ ' ' :: s) = w :: wordsWithin (n - w.length - 1) s := by
  have hk : n = w.length + ((n - w.length - 1) + 1) := by omega
  have hcstr : cstr (' ' :: s) = ' ' :: cstr s := by
    simp [cstr]
  have hline (t : Text) : commandLine (' ' :: t) = ' ' :: commandLine t := by
    simp [commandLine]
  unfold wordsWithin
  rw [cstr_append_plain w _ hw, hcstr]
  conv_lhs => rw [hk, List.take_length_add_append, List.take_succ_cons]
  rw [commandLine_append_plain w _ hw, hline]
  exact words_cons ' ' w _ (fun h => (hw ' ' h).1 rfl) hne

/-- A line of one word. -/
theorem wordsWithin_last (n : ℕ) (w s : Text) (hw : ∀ c ∈ w, plain c) (hne : w ≠ [])
    (hn : w.length ≤ n) : wordsWithin n (w ++ '\n' :: s) = [w] := by
  have hcut : (w ++ cstr ('\n' :: s)).take n = w ++ (cstr ('\n' :: s)).take (n - w.length) := by
    rw [List.take_append, List.take_of_length_le hn]
  have hrest (m : ℕ) : commandLine ((cstr ('\n' :: s)).take m) = [] := by
    cases m with
    | zero => rfl
    | succ m => simp [cstr, commandLine]
  unfold wordsWithin
  rw [cstr_append_plain w _ hw, hcut, commandLine_append_plain w _ hw, hrest, List.append_nil]
  exact words_of_not_mem ' ' w (fun h => (hw ' ' h).1 rfl) hne

theorem commandWords_cstr (data : Text) : commandWords (cstr data) = wordsWithin 159 data := by
  rw [commandWords, lineBuffer, cstr_cstr]
  rfl

/-- Of the texts without a zero byte and a newline, those of 159 characters leave `line`
without an end, unless a longer one has put it there. -/
theorem unterminated_line {text : Text} (d : Ldb) (hz : '\x00' ∉ text) (hn : '\n' ∉ text) :
    unterminated .ide d (cstr (text ++ ['\n'])) ↔ text.length = 159 ∧ d.lineEnded = false := by
  have hzero : '\x00' ∉ text ++ ['\n'] := by simp [hz]
  rw [unterminated_ide, lineBuffer, cstr_cstr, cstr_eq_self hzero]
  simp only [List.length_take, List.length_append, List.length_singleton]
  constructor
  · rintro ⟨hfull, ⟨hended, hle⟩, hcut⟩
    refine ⟨?_, hended⟩
    by_contra hne
    have hshort : (text ++ ['\n']).length ≤ 159 := by
      rw [List.length_append, List.length_singleton]
      omega
    rw [List.take_of_length_le hshort] at hcut
    simp at hcut
  · rintro ⟨h, hended⟩
    refine ⟨by omega, ⟨hended, by omega⟩, ?_⟩
    rw [← h, List.take_left]
    exact hn

theorem Request.arrives_iff {q : Request} (d : Ldb) (hz : '\x00' ∉ q.text) (hn : '\n' ∉ q.text) :
    q.arrives d ↔ (q.text.length = 159 → d.lineEnded = true) := by
  have hnewline : '\n' ∈ cstr q.line := by
    rw [Request.line, cstr_eq_self (by simp [hz])]
    simp
  rw [Request.arrives, Request.line, unterminated_line d hz hn, ← Request.line]
  simp [hnewline]

theorem lineBuffer_ne_nil (data : Text) (h : '\n' ∈ cstr data) : lineBuffer data ≠ [] := by
  intro hnil
  have hlen : (cstr data).length = 0 := by
    have := congrArg List.length hnil
    simp only [lineBuffer, List.length_take, List.length_nil] at this
    omega
  rw [List.length_eq_zero_iff.mp hlen] at h
  simp at h

/-- What is written when a text is handled: the answer of its command, if that completes. -/
theorem react_writesOneLine_iff (L : LuaState) (w : World) {data : Text}
    (hne : lineBuffer data ≠ []) (hend : ¬ unterminated .ide w.state data) :
    (∃ t, OneLine t ∧ (react .ide L w data false).replies = w.replies ++ (t ++ ['\n'])) ↔
      ∃ pCmd args, commandWords data = pCmd :: args ∧ completes L w.state (dispatch pCmd) args ∧
        ∃ t, answerText L w.state pCmd args = some t ∧ OneLine t := by
  simp only [react, handle_eq .ide L w.state _ hne hend]
  rcases commandWords data with _ | ⟨pCmd, args⟩
  · -- a line without a word: `pCmd` is a null pointer
    simp
  · simp only [List.cons.injEq]
    -- that `line[159]` may be set matters neither for the command nor for its answer
    rcases hx : execute .ide L (w.state.takeLine .ide data) pCmd args with why | r
    · refine iff_of_false (by simp) ?_
      rintro ⟨c, as, ⟨rfl, rfl⟩, hc, -⟩
      have hok := (execute_eq_ok .ide L (w.state.takeLine .ide data) pCmd args _).mpr ⟨hc, rfl⟩
      simp [hx] at hok
    · obtain ⟨hc, hr⟩ := (execute_eq_ok .ide L (w.state.takeLine .ide data) pCmd args r).mp hx
      have hreply : r.reply = ((answerText L w.state pCmd args).map (toIde .ide)).getD [] := by
        rw [hr]
        rfl
      simp only [Session.perform, List.append_cancel_left_eq, hreply]
      constructor
      · rintro ⟨t, ht, he⟩
        rcases ha : answerText L w.state pCmd args with _ | u
        · simp [ha] at he
        · have hut : u = t := by simpa [ha, toIde] using he
          exact ⟨pCmd, args, ⟨rfl, rfl⟩, hc, u, ha, hut ▸ ht⟩
      · rintro ⟨_, _, ⟨rfl, rfl⟩, -, t, ha, ht⟩
        exact ⟨t, ht, by rw [ha]; rfl⟩

/-- Of a request that arrives whole, what counts is its words. -/
theorem writesOneLine_iff (L : LuaState) (w : World) (q : Request) :
    writesOneLine L w q ↔ q.arrives w.state ∧
      ∃ pCmd args, wordsWithin 159 q.line = pCmd :: args ∧
        completes L w.state (dispatch pCmd) args ∧
        ∃ t, answerText L w.state pCmd args = some t ∧ OneLine t := by
  unfold writesOneLine
  by_cases hn : '\n' ∈ cstr q.line
  · have hne : cstr q.line ≠ [] := List.ne_nil_of_mem hn
    have hbuf : lineBuffer (cstr q.line) ≠ [] :=
      lineBuffer_ne_nil _ (by rw [cstr_cstr]; exact hn)
    simp only [receive, intake, hne, hn, if_true, if_false]
    by_cases hu : unterminated .ide w.state (cstr q.line)
    · have hfault : handle .ide L w.state (cstr q.line) = .error .uninitialised := by
        rw [handle, if_neg hbuf, if_pos hu]
      simp [react, hfault, hu, Request.arrives]
    · rw [react_writesOneLine_iff L w hbuf hu, commandWords_cstr]
      exact (and_iff_right ⟨hn, hu⟩).symm
  · -- without its newline the request stays in the receive loop
    have hrecv : (receive .ide L none (.data q.line) w).replies = w.replies := by
      unfold receive intake
      by_cases he : cstr q.line = []
      · simp [he]
      · simp [he, hn]
    simp [hrecv, hn, Request.arrives]

theorem oneLine_dumpText (L : LuaState) :
    OneLine (dumpText L) ↔ ∀ s, LuaValue.string s ∈ L.stack → OneLine (cstr s) := by
  have hnumber : OneLine (topNumber L) := by
    have hzero : OneLine (txt "0") := by decide
    unfold topNumber
    split
    · exact LuaNumber.oneLine _
    · next s _ =>
      cases L.str2d s with
      | none => exact hzero
      | some n => exact n.oneLine
    · exact hzero
  rw [dumpText, oneLine_terminated _ (by decide), List.forall_mem_map]
  constructor
  · intro h s hs
    exact h _ hs
  · intro h v hv
    cases v with
    | string s => exact h s hv
    | boolean b => cases b <;> simp only [dataText] <;> decide
    | number n => exact hnumber
    | _ =>
      simp only [dataText]
      exact LuaValue.oneLine_typename _

theorem oneLine_entryText (L : LuaState) (e : LuaValue × LuaValue) :
    OneLine (entryText L e) ↔ globalInOneLine e := by
  obtain ⟨key, value⟩ := e
  cases value with
  | function => simp [entryText, globalInOneLine]
  | table ref => simpa [entryText, globalInOneLine] using oneLine_tableText L _ ref
  | number n =>
    simpa [entryText, globalInOneLine, oneLine_pairText, globalValueText] using
      fun _ => n.oneLine
  | string s => simp [entryText, globalInOneLine, oneLine_pairText, globalValueText]
  | boolean b =>
    have hb : OneLine (globalValueText L key (.boolean b)) := by
      simp only [globalValueText]
      split_ifs <;> decide
    simp [entryText, globalInOneLine, oneLine_pairText, hb]
  | nil | lightuserdata | userdata | thread =>
    simpa [globalInOneLine] using oneLine_message L (key, _) rfl

theorem oneLine_localText (L : LuaState) (i : ℕ) (name : Text) (v : LuaValue) :
    OneLine (localText L i name v) ↔ showsInOneLine L name v := by
  have hmessage (v : LuaValue) :
      OneLine (txt "type " ++ v.typename ++ txt " not yet displayable") := by
    rw [oneLine_append, oneLine_append]
    exact ⟨⟨by decide, v.oneLine_typename⟩, by decide⟩
  cases v with
  | table ref => simp [localText, showsInOneLine, oneLine_flatMap, oneLine_elementText]
  | string s => rfl
  | number n => simpa [localText, scalarText, showsInOneLine] using n.oneLine
  | boolean b =>
    simp only [localText, scalarText, showsInOneLine, iff_true]
    split_ifs <;> decide
  | _ => simpa [localText, scalarText, showsInOneLine] using hmessage _

theorem oneLine_varText (L : LuaState) (nLevel : ℤ) (var : Option Text) :
    OneLine (varText L nLevel var) ↔
      ∀ i n v, wantedLocal L nLevel var = some (i, n, v) → showsInOneLine L n v := by
  unfold varText
  rcases wantedLocal L nLevel var with _ | ⟨i, n, v⟩
  · have h : OneLine (txt "notFound") := by decide
    simpa using h
  · simp only [oneLine_localText, Option.some.injEq, Prod.mk.injEq]
    constructor
    · rintro h _ _ _ ⟨rfl, rfl, rfl⟩
      exact h
    · intro h
      exact h i n v ⟨rfl, rfl, rfl⟩

/-- The words of a request that is one word. -/
theorem words_one (w : Text) (hw : ∀ c ∈ w, plain c) (hne : w ≠ []) (hn : w.length ≤ 159) :
    wordsWithin 159 (w ++ ['\n']) = [w] := wordsWithin_last 159 w [] hw hne hn

/-- The words of a request that is a word and a number. -/
theorem words_number (w : Text) (n : CInt) (hw : ∀ c ∈ w, plain c) (hne : w ≠ [])
    (hn : w.length ≤ 100) :
    wordsWithin 159 (w ++ txt " " ++ ofInt n.val ++ ['\n']) = [w, ofInt n.val] := by
  have hlen := ofInt_length_le n
  have h := wordsWithin_cons 159 w (ofInt n.val ++ ['\n']) hw hne (by omega)
  rw [wordsWithin_last _ (ofInt n.val) [] (plain_ofInt n.val) (ofInt_ne_nil n.val) (by omega)] at h
  simpa [txt] using h

/-- The words of a request with anything behind its first word. -/
theorem words_rest (w s : Text) (hw : ∀ c ∈ w, plain c) (hne : w ≠ []) (hn : w.length ≤ 100) :
    ∃ args, wordsWithin 159 (w ++ txt " " ++ s) = w :: args := by
  have h := wordsWithin_cons 159 w s hw hne (by omega)
  exact ⟨_, by simpa [txt] using h⟩

theorem words_var (frame : CInt) (name : Text) :
    wordsWithin 159 (Request.line (.var frame name)) = txt "var" :: ofInt frame.val ::
      wordsWithin (154 - (ofInt frame.val).length) (name ++ ['\n']) := by
  have hlen := ofInt_length_le frame
  have h := wordsWithin_cons 159 (txt "var") (ofInt frame.val ++ ' ' :: (name ++ ['\n']))
    (plain_of_all (by decide)) (by decide) (by decide)
  rw [wordsWithin_cons _ (ofInt frame.val) _ (plain_ofInt frame.val) (ofInt_ne_nil frame.val)
    (by simp only [txt]; simp; omega)] at h
  have hn : 159 - (txt "var").length - 1 - (ofInt frame.val).length - 1 =
      154 - (ofInt frame.val).length := by
    simp only [txt]
    simp
    omega
  rw [hn] at h
  simpa [Request.line, Request.text, txt] using h

theorem words_watch (functionName variableName : Text) :
    ∃ args, wordsWithin 159 (Request.line (.watch functionName variableName)) =
      txt "watch" :: args := by
  obtain ⟨args, hargs⟩ := words_rest (txt "watch")
    (functionName ++ (txt "::" ++ (variableName ++ txt " 0")) ++ ['\n'])
    (plain_of_all (by decide)) (by decide) (by decide)
  exact ⟨args, by simpa [Request.line, Request.text, txt] using hargs⟩

theorem lineArgument_ofInt (n : CInt) :
    lineArgument [ofInt n.val] = if n.val = 0 then none else some n := by
  by_cases hz : n.val = 0
  · rw [if_pos hz]
    exact lineArgument_zero _ _ rfl (by rw [atoi_ofInt]; exact hz)
  · have h := lineArgument_some [ofInt n.val] _ rfl (by rw [atoi_ofInt]; exact hz)
    rw [if_neg hz, h, atoi_ofInt]

/-- What is to be shown for a request whose words are known. -/
theorem answers_iff_of_words {L : LuaState} {d : Ldb} {data : Text} {pCmd : Text}
    {args : List Text} {R : Prop} (hw : wordsWithin 159 data = pCmd :: args)
    (h : (completes L d (dispatch pCmd) args ∧
      ∃ t, answerText L d pCmd args = some t ∧ OneLine t) ↔ R) :
    (∃ c as, wordsWithin 159 data = c :: as ∧ completes L d (dispatch c) as ∧
      ∃ t, answerText L d c as = some t ∧ OneLine t) ↔ R := by
  rw [← h]
  constructor
  · rintro ⟨c, as, he, hc⟩
    obtain ⟨rfl, rfl⟩ := List.cons.inj (hw.symm.trans he)
    exact hc
  · intro hc
    exact ⟨pCmd, args, hw, hc⟩

/-- The same for a request that is one word. -/
theorem answers_iff_of_word {L : LuaState} {d : Ldb} (w : Text) {R : Prop}
    (hw : ∀ c ∈ w, plain c) (hne : w ≠ []) (hn : w.length ≤ 159)
    (h : (completes L d (dispatch w) [] ∧
      ∃ t, answerText L d w [] = some t ∧ OneLine t) ↔ R) :
    (∃ c as, wordsWithin 159 (w ++ ['\n']) = c :: as ∧ completes L d (dispatch c) as ∧
      ∃ t, answerText L d c as = some t ∧ OneLine t) ↔ R :=
  answers_iff_of_words (words_one w hw hne hn) h

/-- A break or clear request is short. -/
theorem Request.arrives_number {q : Request} {w : Text} {n : CInt} (hq : q.text = w ++ ofInt n.val)
    (hw : '\x00' ∉ w ∧ '\n' ∉ w) (hlen : w.length ≤ 100) (d : Ldb) : q.arrives d := by
  have hn := ofInt_length_le n
  have hplain := plain_ofInt n.val
  have hz : '\x00' ∉ q.text := by
    rw [hq, List.mem_append]
    rintro (h | h)
    · exact hw.1 h
    · exact (hplain _ h).2.2.2 rfl
  have hnl : '\n' ∉ q.text := by
    rw [hq, List.mem_append]
    rintro (h | h)
    · exact hw.2 h
    · exact (hplain _ h).2.1 rfl
  rw [Request.arrives_iff d hz hnl, hq, List.length_append]
  omega

theorem answers_setBreak (L : LuaState) (d : Ldb) (n : CInt) :
    (∃ c as, wordsWithin 159 (Request.line (.setBreak n)) = c :: as ∧
      completes L d (dispatch c) as ∧ ∃ t, answerText L d c as = some t ∧ OneLine t) ↔
      n.val ≠ 0 ∧ OneLine L.source := by
  refine answers_iff_of_words
    (words_number (txt "break") n (plain_of_all (by decide)) (by decide) (by decide)) ?_
  have hd : dispatch (txt "break") = .setbreak := by decide
  have hc : completes L d .setbreak [ofInt n.val] := by simp [completes]
  have htext : OneLine (txt "setting breakpoint at " ++ L.source ++ txt " line " ++ ofInt n.val) ↔
      OneLine L.source := by
    have hlit : OneLine (txt "setting breakpoint at ") ∧ OneLine (txt " line ") := by decide
    simp only [oneLine_append, hlit, oneLine_ofInt, true_and, and_true]
  simp only [answerText, hd, hc, true_and, lineArgument_ofInt]
  by_cases hz : n.val = 0
  · simp [hz]
  · simp only [hz, if_false, Option.map_some, Option.some.injEq, exists_eq_left', htext, ne_eq,
      not_false_eq_true, true_and]

theorem answers_clear (L : LuaState) (d : Ldb) (n : CInt) :
    (∃ c as, wordsWithin 159 (Request.line (.clear n)) = c :: as ∧
      completes L d (dispatch c) as ∧ ∃ t, answerText L d c as = some t ∧ OneLine t) ↔
      n.val ≠ 0 ∧ n ∈ d.allScriptsBreakpoints L.source := by
  refine answers_iff_of_words
    (words_number (txt "clear") n (plain_of_all (by decide)) (by decide) (by decide)) ?_
  have hd : dispatch (txt "clear") = .clrbreak := by decide
  have hc : completes L d .clrbreak [ofInt n.val] := by simp [completes]
  have hok : OneLine (txt "ok clear") := by decide
  simp only [answerText, hd, hc, true_and, lineArgument_ofInt]
  by_cases hz : n.val = 0
  · simp [hz]
  · by_cases hm : n ∈ d.allScriptsBreakpoints L.source
    · simp [hz, hm, hok, Option.filter]
    · simp [hz, hm, Option.filter]

/-- Every stop, every request: one line is written exactly when `answered` holds. -/
theorem writesOneLine_iff_answered (L : LuaState) (w : World) (q : Request) :
    writesOneLine L w q ↔ answered L w.state q := by
  rw [writesOneLine_iff]
  unfold answered
  apply and_congr_right
  intro _
  cases q with
  -- the words of each request are known, and with them the branch and its answer
  | resume =>
    refine answers_iff_of_word (txt "resume") (plain_of_all (by decide)) (by decide) (by decide) ?_
    exact iff_true_intro ⟨trivial, txt "ok resume", rfl, by decide⟩
  | suspend =>
    refine answers_iff_of_word (txt "suspend") (plain_of_all (by decide)) (by decide) (by decide) ?_
    exact iff_true_intro ⟨trivial, txt "ok", rfl, by decide⟩
  | step =>
    refine answers_iff_of_word (txt "step") (plain_of_all (by decide)) (by decide) (by decide) ?_
    exact iff_true_intro ⟨trivial, txt "ok", rfl, by decide⟩
  | exit =>
    refine answers_iff_of_word (txt "exit") (plain_of_all (by decide)) (by decide) (by decide) ?_
    exact iff_true_intro ⟨trivial, _, rfl, by decide⟩
  | setBreak n => exact answers_setBreak L w.state n
  | clear n => exact answers_clear L w.state n
  | data =>
    refine answers_iff_of_word (txt "data") (plain_of_all (by decide)) (by decide) (by decide) ?_
    have hd : dispatch (txt "data") = .dataForIde := by decide
    simp only [answerText, hd, Option.some.injEq, exists_eq_left', oneLine_dumpText]
    exact and_comm
  | getglobals =>
    refine answers_iff_of_word (txt "getglobals") (plain_of_all (by decide)) (by decide)
      (by decide) ?_
    have hd : dispatch (txt "getglobals") = .getGlobals := by decide
    simp only [answerText, hd]
    apply and_congr_right
    rintro ⟨es, hes, -⟩
    simp only [hes, Except.toOption, Option.map_some, Option.some.injEq, exists_eq_left',
      oneLine_globalsText, oneLine_entryText, Except.ok.injEq, forall_eq']
  | stackforide =>
    refine answers_iff_of_word (txt "stackforide") (plain_of_all (by decide)) (by decide)
      (by decide) ?_
    have hd : dispatch (txt "stackforide") = .stackForIde := by decide
    simp only [answerText, hd, Option.some.injEq, exists_eq_left', oneLine_traceText]
  | var frame name =>
    refine answers_iff_of_words (words_var frame name) ?_
    have hd : dispatch (txt "var") = .varForIde := by decide
    have hname : (ofInt frame.val :: wordsWithin (154 - (ofInt frame.val).length)
        (name ++ ['\n']))[1]? = nameToken frame name := rfl
    have hframe : (ofInt frame.val :: wordsWithin (154 - (ofInt frame.val).length)
        (name ++ ['\n']))[0]? = some (ofInt frame.val) := rfl
    simp only [answerText, completes, hd, hname, hframe, Option.map_some, Option.some.injEq,
      exists_eq_left', atoi_ofInt, oneLine_varText]
  | setvar frame name value =>
    obtain ⟨args, hargs⟩ := words_rest (txt "setvar")
      (ofInt frame.val ++ (txt " " ++ (name ++ (txt " " ++ value))) ++ ['\n'])
      (plain_of_all (by decide)) (by decide) (by decide)
    have hw : wordsWithin 159 (Request.line (.setvar frame name value)) = txt "setvar" :: args := by
      simpa [Request.line, Request.text, txt] using hargs
    refine answers_iff_of_words hw ?_
    exact iff_true_intro ⟨trivial, _, rfl, by decide⟩
  | popdata =>
    refine answers_iff_of_word (txt "popdata") (plain_of_all (by decide)) (by decide) (by decide) ?_
    have hd : dispatch (txt "popdata") = .print := by decide
    simp [answerText, hd]
  | pushdata value =>
    obtain ⟨args, hargs⟩ := words_rest (txt "pushdata") (value ++ ['\n'])
      (plain_of_all (by decide)) (by decide) (by decide)
    have hw : wordsWithin 159 (Request.line (.pushdata value)) = txt "pushdata" :: args := by
      simpa [Request.line, Request.text, txt] using hargs
    have hd : dispatch (txt "pushdata") = .print := by decide
    refine answers_iff_of_words hw ?_
    simp [answerText, hd]
  | drop =>
    refine answers_iff_of_word (txt "drop") (plain_of_all (by decide)) (by decide) (by decide) ?_
    have hd : dispatch (txt "drop") = .display := by decide
    simp [answerText, hd]
  | watch functionName variableName =>
    obtain ⟨args, hw⟩ := words_watch functionName variableName
    refine answers_iff_of_words hw ?_
    exact iff_true_intro ⟨trivial, _, rfl, by decide⟩

end LuaIde
