import LuaIde.Requests

/-! Request lines on the command socket: the pieces `recv` cuts a line into, and the words
that reach the dispatcher. -/
namespace LuaIde

open LineText DecimalText Delimited CheckedFold

/-- The receive loop alone: the text it puts together, whether it gave up on the newline, and
the pieces it leaves. -/
def received (pending : Option (Text × ℕ)) : List Text → Option ((Text × Bool) × List Text)
  | [] => none
  | piece :: rest =>
    match intake pending (cstr piece) with
    | .more next => received next rest
    | .command data gaveUp => some ((data, gaveUp), rest)

/-- The words a text is dispatched by, if it comes that far. -/
def dispatched (d : Ldb) (data : Text) : Option (List Text) :=
  if lineBuffer data = [] ∨ unterminated .ide d data ∨ commandWords data = [] then none
  else some (commandWords data)

/-- A request line without the carriage returns at its end. -/
def requestText (line : Text) : Text := line.rdropWhile (fun c => decide (c = '\r'))

/-- The command of a request line and its arguments. -/
def lineWords (line : Text) : List Text := words ' ' (requestText line)

/-- The command is one of those that give control back. -/
def leavesParser (ws : List Text) : Prop := ∃ c m, ws.head?.map dispatch = some c ∧
  selectedMode c = some m

/-- The command with its arguments comes to its end at this stop. -/
def runsToEnd (L : LuaState) (d : Ldb) (ws : List Text) : Prop :=
  ∃ pCmd args, ws = pCmd :: args ∧ completes L d (dispatch pCmd) args

/-- ldb at a stop, about to read a command. -/
def World.waitingAt (w : World) (L : LuaState) (pending : Option (Text × ℕ)) : World :=
  { w with inputs := [], status := .waiting L pending }

/-- The world behind one execution of a command, which was read as `data`. -/
def World.executed (w : World) (L : LuaState) (data pCmd : Text) (args : List Text) : World :=
  match execute .ide L (w.state.takeLine .ide data) pCmd args with
  | .error why => { w with status := .afterFault why }
  | .ok r =>
    { w with
      toSession := w.toSession.perform L.source data r
      status := if (selectedMode (dispatch pCmd)).isSome then .running else .waiting L none }

/-- The pieces of a line make one command with the words of the line. What they leave behind is
what one execution of that command leaves behind, and ldb returns to the Lua program only for a
command that says so. -/
structure ExecutesOnce (L : LuaState) (w : World) (line : Text) (pieces : List Text) : Prop where
  once : ∃ data gaveUp, received none pieces = some ((data, gaveUp), []) ∧
    dispatched w.state data = some (lineWords line)
  effect : ∃ pCmd args, lineWords line = pCmd :: args ∧
    parserLoop .ide (pieces.map .data) (w.waitingAt L none) =
      (w.waitingAt L none).executed L (line ++ ['\n']) pCmd args
  returns : (parserLoop .ide (pieces.map .data) (w.waitingAt L none)).status = .running →
    leavesParser (lineWords line)

/-- When the framing does not matter: the line has words, no zero byte, no carriage return
but at its end, nothing but blanks behind its first 159 characters, and not just 159
characters, unless a longer one has put the zero behind them; its command does not raise an error
of Lua; and its newline comes with the sixth piece at the latest, or with the seventh of a
command that gives control back or does not come to its end. -/
structure FramedWhole (L : LuaState) (d : Ldb) (line : Text) (pieces : List Text) : Prop where
  word : lineWords line ≠ []
  clean : '\x00' ∉ requestText line ∧ '\r' ∉ requestText line
  short : ∀ c ∈ (requestText line).drop 159, c = ' '
  ended : line.length = 159 → d.lineEnded = true
  caught : ∀ pCmd args, lineWords line = pCmd :: args → ¬ raises L (dispatch pCmd) args
  pieces : pieces.length ≤ 6 ∨ (pieces.length = 7 ∧
    (leavesParser (lineWords line) ∨ ¬ runsToEnd L d (lineWords line)))

/-- The loop of the parser runs until the receive loop has a command. -/
theorem parserLoop_received (L : LuaState) (w : World) (pending : Option (Text × ℕ))
    (pieces : List Text) {data : Text} {gaveUp : Bool} {rest : List Text}
    (h : received pending pieces = some ((data, gaveUp), rest)) :
    parserLoop .ide (pieces.map .data) (w.waitingAt L pending) =
      parserLoop .ide (rest.map .data) (react .ide L (w.waitingAt L none) data gaveUp) := by
  induction pieces generalizing pending with
  | nil => cases h
  | cons piece pieces ih =>
    rw [List.map_cons, parserLoop]
    simp only [received] at h
    rcases hi : intake pending (cstr piece) with next | ⟨data', gaveUp'⟩
    · simp only [hi] at h
      rw [← ih next h]
      simp only [World.waitingAt, receive, hi]
    · simp only [hi, Option.some.injEq, Prod.mk.injEq] at h
      obtain ⟨⟨rfl, rfl⟩, rfl⟩ := h
      simp only [World.waitingAt, receive, hi, react]

/-- Behind the front of a text that ends with `c` there is the end of it. -/
theorem append_eq_concat {p q body : Text} {c : Char} (h : p ++ q = body ++ [c]) (hq : q ≠ []) :
    ∃ body', body = p ++ body' ∧ q = body' ++ [c] := by
  obtain ⟨q', d, rfl⟩ := (List.eq_nil_or_concat' q).resolve_left hq
  rw [← List.append_assoc] at h
  obtain ⟨rfl, hd⟩ := List.append_inj' h rfl
  exact ⟨q', rfl, by rw [hd]⟩

theorem flatten_ne_nil {pieces : List Text} (hne : pieces ≠ []) (hp : ∀ p ∈ pieces, p ≠ []) :
    pieces.flatten ≠ [] := by
  intro h
  obtain ⟨p, hmem⟩ := List.exists_mem_of_ne_nil pieces hne
  exact hp p hmem (List.flatten_eq_nil_iff.mp h p hmem)

/-- The further pieces of a line: the sixth of them is where the loop gives up. -/
theorem received_further (tmpstr : Text) (count : ℕ) (pieces : List Text) (body : Text)
    (hne : ∀ p ∈ pieces, p ≠ []) (hz : ∀ p ∈ pieces, '\x00' ∉ p) (ht : '\n' ∉ tmpstr)
    (hb : '\n' ∉ body) (hf : pieces.flatten = body ++ ['\n']) (hc : count ≤ 5) :
    ∃ data rest, received (some (tmpstr, count)) pieces =
        some ((data, decide (6 ≤ pieces.length + count)), rest) ∧
      (pieces.length + count ≤ 6 → data = tmpstr ++ (body ++ ['\n']) ∧ rest = []) ∧
      (6 < pieces.length + count → rest ≠ []) := by
  -- induction on the pieces, with the text so far and the count of the retries
  induction pieces generalizing tmpstr count body with
  | nil => simp at hf
  | cons piece pieces ih =>
    have hcstr : cstr piece = piece := cstr_eq_self (hz piece List.mem_cons_self)
    simp only [received, hcstr, intake]
    rw [List.flatten_cons] at hf
    by_cases hlast : pieces = []
    · -- the newline has come
      subst hlast
      rw [List.flatten_nil, List.append_nil] at hf
      subst hf
      by_cases h5 : 5 ≤ count
      · obtain rfl : count = 5 := by omega
        exact ⟨tmpstr ++ (body ++ ['\n']), [], by simp, by simp, by simp⟩
      · have h6 : ¬ 6 ≤ 1 + count := by omega
        refine ⟨tmpstr ++ (body ++ ['\n']), [], ?_, by simp, by simp; omega⟩
        simp [h5, h6]
    -- the newline is still to come
    · obtain ⟨body', rfl, hrest⟩ := append_eq_concat hf
        (flatten_ne_nil hlast (fun p hp => hne p (List.mem_cons_of_mem _ hp)))
      have hlen : 1 ≤ pieces.length := List.length_pos_iff.mpr hlast
      by_cases h5 : 5 ≤ count
      · have h6 : 6 ≤ pieces.length + 1 + count := by omega
        refine ⟨tmpstr ++ piece, pieces, by simp [h5, h6], ?_, fun _ => hlast⟩
        intro h
        rw [List.length_cons] at h
        omega
      · have hno : '\n' ∉ tmpstr ++ piece := by
          simp only [List.mem_append, not_or] at hb ⊢
          exact ⟨ht, hb.1⟩
        have hb' : '\n' ∉ body' := fun h => hb (List.mem_append_right _ h)
        obtain ⟨data, rest, hrec, hin, hout⟩ := ih (tmpstr ++ piece) (count+1) body'
          (fun p hp => hne p (List.mem_cons_of_mem _ hp))
          (fun p hp => hz p (List.mem_cons_of_mem _ hp)) hno hb' hrest (by omega)
        have hcount : (piece :: pieces).length + count = pieces.length + (count+1) := by
          rw [List.length_cons]
          omega
        rw [if_neg h5, if_neg hno, hcount]
        refine ⟨data, rest, hrec, fun h => ?_, hout⟩
        obtain ⟨hd, hr⟩ := hin h
        refine ⟨?_, hr⟩
        rw [hd]
        simp

/-- All pieces of a line without a zero byte: seven are too many to be patient with, and
more than seven are not even read. -/
theorem received_line (pieces : List Text) (line : Text) (hne : ∀ p ∈ pieces, p ≠ [])
    (hz : '\x00' ∉ line) (hn : '\n' ∉ line) (hf : pieces.flatten = line ++ ['\n']) :
    ∃ data rest, received none pieces = some ((data, decide (7 ≤ pieces.length)), rest) ∧
      (pieces.length ≤ 7 → data = line ++ ['\n'] ∧ rest = []) ∧
      (7 < pieces.length → rest ≠ []) := by
  have hzero : ∀ p ∈ pieces, '\x00' ∉ p := by
    intro p hp h
    have hm : '\x00' ∈ line ++ ['\n'] := hf ▸ List.mem_flatten.mpr ⟨p, hp, h⟩
    simp [hz] at hm
  -- the first piece is not counted, the others are
  cases pieces with
  | nil => simp at hf
  | cons piece pieces =>
    have hcstr : cstr piece = piece := cstr_eq_self (hzero piece List.mem_cons_self)
    have hpiece : piece ≠ [] := hne piece List.mem_cons_self
    simp only [received, hcstr, intake, if_neg hpiece]
    rw [List.flatten_cons] at hf
    by_cases hlast : pieces = []
    · subst hlast
      rw [List.flatten_nil, List.append_nil] at hf
      subst hf
      exact ⟨line ++ ['\n'], [], by simp, by simp, by simp⟩
    -- the newline is in a later piece
    · obtain ⟨body, rfl, hrest⟩ := append_eq_concat hf
        (flatten_ne_nil hlast (fun p hp => hne p (List.mem_cons_of_mem _ hp)))
      have hno : '\n' ∉ piece := fun h => hn (List.mem_append_left _ h)
      have hb : '\n' ∉ body := fun h => hn (List.mem_append_right _ h)
      obtain ⟨data, rest, hrec, hin, hout⟩ := received_further piece 0 pieces body
        (fun p hp => hne p (List.mem_cons_of_mem _ hp))
        (fun p hp => hzero p (List.mem_cons_of_mem _ hp)) hno hb hrest (by omega)
      have hseven : decide (7 ≤ (piece :: pieces).length) = decide (6 ≤ pieces.length + 0) := by
        simp
      rw [if_neg hno, hseven]
      refine ⟨data, rest, hrec, fun h => ?_, fun h => hout ?_⟩
      · rw [List.append_assoc]
        exact hin (by rw [List.length_cons] at h; omega)
      · rw [List.length_cons] at h
        omega

/-- What `requestText` leaves out is carriage returns. -/
theorem line_eq_requestText (line : Text) :
    ∃ crs, line = requestText line ++ crs ∧ ∀ c ∈ crs, c = '\r' := by
  refine ⟨line.rtakeWhile (fun c => decide (c = '\r')), ?_, ?_⟩
  · exact List.rdropWhile_append_rtakeWhile.symm
  · intro c hc
    simpa using List.mem_rtakeWhile_imp hc

/-- Of a clean line the first 159 characters are looked at. -/
theorem commandWords_line {line : Text} (hn : '\n' ∉ line) (hz : '\x00' ∉ requestText line)
    (hr : '\r' ∉ requestText line) :
    commandWords (line ++ ['\n']) = words ' ' ((requestText line).take 159) := by
  obtain ⟨crs, hline, hcrs⟩ := line_eq_requestText line
  have hz' : '\x00' ∉ line := by
    rw [hline, List.mem_append, not_or]
    exact ⟨hz, fun h => absurd (hcrs _ h) (by decide)⟩
  have hn' : '\n' ∉ requestText line := fun h => hn (hline ▸ List.mem_append_left _ h)
  -- the rest of the buffer, if there is any, starts with a line end
  have hend (k : ℕ) : commandLine ((crs ++ ['\n']).take k) = [] := by
    cases k with
    | zero => rfl
    | succ k =>
      cases crs with
      | nil => simp [commandLine]
      | cons c crs =>
        obtain rfl := hcrs c List.mem_cons_self
        simp [commandLine]
  rw [commandWords, lineBuffer, cstr_eq_self (by simp [hz'])]
  congr 1
  conv_lhs => rw [hline]
  rw [List.append_assoc, List.take_append, commandLine_append, hend, List.append_nil]
  · exact fun h => hn' (List.mem_of_mem_take h)
  · exact fun h => hr (List.mem_of_mem_take h)

theorem dispatched_eq_some {d : Ldb} {data : Text} {ws : List Text}
    (h : dispatched d data = some ws) :
    lineBuffer data ≠ [] ∧ ¬ unterminated .ide d data ∧ commandWords data = ws ∧ ws ≠ [] := by
  unfold dispatched at h
  split_ifs at h with hno
  obtain rfl := Option.some.inj h
  simp only [not_or] at hno
  exact ⟨hno.1, hno.2.1, rfl, hno.2.2⟩

/-- The words of a handled line have no zero byte and no carriage return in them. -/
theorem commandWords_clean {data w : Text} (hw : w ∈ commandWords data) :
    '\x00' ∉ w ∧ '\r' ∉ w := by
  obtain ⟨-, -, hsub⟩ := mem_words ' ' _ w hw
  refine ⟨fun h => ?_, fun h => ?_⟩
  · have hline := (List.takeWhile_prefix _).subset
      ((List.takeWhile_prefix _).subset (hsub.subset h))
    exact zero_not_mem_cstr data (List.mem_of_mem_take hline)
  · have hline := List.mem_takeWhile_imp (hsub.subset h)
    simp at hline

theorem clean_of_words {line data : Text} (h : commandWords data = lineWords line) :
    '\x00' ∉ requestText line ∧ '\r' ∉ requestText line := by
  have hclean : ∀ w ∈ lineWords line, '\x00' ∉ w ∧ '\r' ∉ w := by
    rw [← h]
    intro w hw
    exact commandWords_clean hw
  refine ⟨fun hc => ?_, fun hc => ?_⟩
  · obtain ⟨w, hw, hcw⟩ := mem_words_flatten hc (by decide : '\x00' ≠ ' ')
    exact (hclean w hw).1 hcw
  · obtain ⟨w, hw, hcw⟩ := mem_words_flatten hc (by decide : '\r' ≠ ' ')
    exact (hclean w hw).2 hcw

theorem zero_not_mem_line {line : Text} (h : '\x00' ∉ requestText line) : '\x00' ∉ line := by
  obtain ⟨crs, hline, hcrs⟩ := line_eq_requestText line
  rw [hline, List.mem_append, not_or]
  exact ⟨h, fun hc => absurd (hcrs _ hc) (by decide)⟩

/-- The whole line is dispatched by its own words. -/
theorem dispatched_line_iff (d : Ldb) {line : Text} (hn : '\n' ∉ line) :
    dispatched d (line ++ ['\n']) = some (lineWords line) ↔
      lineWords line ≠ [] ∧ ('\x00' ∉ requestText line ∧ '\r' ∉ requestText line) ∧
        (∀ c ∈ (requestText line).drop 159, c = ' ') ∧
          (line.length = 159 → d.lineEnded = true) := by
  -- the buffer keeps 159 characters, which loses a word unless the rest is blank
  have hwords : words ' ' ((requestText line).take 159) = lineWords line ↔
      ∀ c ∈ (requestText line).drop 159, c = ' ' := by
    rw [← words_append_eq_left_iff ' ' ((requestText line).take 159), List.take_append_drop,
      eq_comm, lineWords]
  constructor
  · intro h
    obtain ⟨-, hterm, hw, hne⟩ := dispatched_eq_some h
    have hclean := clean_of_words hw
    have hz := zero_not_mem_line hclean.1
    refine ⟨hne, hclean, ?_, fun hlen => ?_⟩
    · rw [← hwords, ← commandWords_line hn hclean.1 hclean.2, hw]
    · by_contra hended
      have hu := (unterminated_line d hz hn).mpr ⟨hlen, by simpa using hended⟩
      rw [cstr_eq_self (by simp [hz])] at hu
      exact hterm hu
  · rintro ⟨hne, hclean, hshort, hlen⟩
    have hz := zero_not_mem_line hclean.1
    have hw : commandWords (line ++ ['\n']) = lineWords line := by
      rw [commandWords_line hn hclean.1 hclean.2, hwords]
      exact hshort
    have hbuf : lineBuffer (line ++ ['\n']) ≠ [] := by
      apply lineBuffer_ne_nil
      rw [cstr_eq_self (by simp [hz])]
      simp
    -- the newline itself is cut off only when the line fills the buffer
    have hterm : ¬ unterminated .ide d (line ++ ['\n']) := by
      intro hu
      rw [← cstr_eq_self (s := line ++ ['\n']) (by simp [hz])] at hu
      obtain ⟨hfull, hended⟩ := (unterminated_line d hz hn).mp hu
      rw [hlen hfull] at hended
      cases hended
    rw [dispatched, hw, if_neg (by simp [hbuf, hterm, hne])]

/-- The words a command was dispatched by decide how it is handled. -/
theorem handle_dispatched {data : Text} {pCmd : Text} {args : List Text} (L : LuaState) {d : Ldb}
    (h : dispatched d data = some (pCmd :: args)) :
    handle .ide L d data = execute .ide L (d.takeLine .ide data) pCmd args := by
  obtain ⟨hbuf, hterm, hw, -⟩ := dispatched_eq_some h
  rw [handle_eq .ide L d data hbuf hterm, hw]

theorem runsToEnd_cons {L : LuaState} {d : Ldb} {pCmd : Text} {args : List Text} :
    runsToEnd L d (pCmd :: args) ↔ completes L d (dispatch pCmd) args := by
  constructor
  · rintro ⟨_, _, he, hc⟩
    obtain ⟨rfl, rfl⟩ := List.cons.inj he
    exact hc
  · exact fun hc => ⟨pCmd, args, rfl, hc⟩

theorem leavesParser_cons {pCmd : Text} {args : List Text} :
    leavesParser (pCmd :: args) ↔ (selectedMode (dispatch pCmd)).isSome = true := by
  rw [Option.isSome_iff_exists]
  constructor
  · rintro ⟨c, m, hc, hm⟩
    exact ⟨m, by rw [Option.some.inj hc, hm]⟩
  · exact fun ⟨m, hm⟩ => ⟨_, m, rfl, hm⟩

/-- A command that has been read is executed; that the loop gave up on its line shows unless it
gives control back anyway, or comes to a fault. -/
theorem react_executed {data pCmd : Text} {args : List Text} (L : LuaState) (w : World)
    {gaveUp : Bool} (h : dispatched w.state data = some (pCmd :: args))
    (hgave : gaveUp = true →
      leavesParser (pCmd :: args) ∨ ¬ runsToEnd L w.state (pCmd :: args)) :
    react .ide L w data gaveUp = w.executed L data pCmd args := by
  rw [react, handle_dispatched L h, World.executed]
  rcases hx : execute .ide L (w.state.takeLine .ide data) pCmd args with why | r
  · rfl
  · have hc := ((execute_eq_ok .ide L _ pCmd args r).mp hx).1
    have hleave := (execute_effects .ide L _ pCmd args r hx).2.2
    have hsame : (r.leave = true ∨ gaveUp = true) ↔ r.leave = true := by
      rw [or_iff_left_iff_imp]
      intro hg
      have hleaves := (hgave hg).resolve_right (fun hno => hno (runsToEnd_cons.mpr hc))
      rw [hleave]
      exact leavesParser_cons.mp hleaves
    simp only [hsame, ← hleave]

/-- Behind a command that was dispatched the program runs if the command raised an error of Lua,
or came to its end and either gives control back or was given up on. -/
theorem react_running_iff {data pCmd : Text} {args : List Text} (L : LuaState) (w : World)
    (gaveUp : Bool) (h : dispatched w.state data = some (pCmd :: args)) :
    (react .ide L w data gaveUp).status = .running ↔
      raises L (dispatch pCmd) args ∨ (runsToEnd L w.state (pCmd :: args) ∧
        (leavesParser (pCmd :: args) ∨ gaveUp = true)) := by
  rw [runsToEnd_cons, leavesParser_cons, react, handle_dispatched L h,
    ← execute_raises_iff .ide L (w.state.takeLine .ide data)]
  rcases hx : execute .ide L (w.state.takeLine .ide data) pCmd args with why | r
  · have hends : ¬ completes L w.state (dispatch pCmd) args := by
      intro hc
      have hok := (execute_eq_ok .ide L (w.state.takeLine .ide data) pCmd args _).mpr ⟨hc, rfl⟩
      rw [hx] at hok
      cases hok
    simp only [hends, false_and, or_false, Except.error.injEq]
    cases why <;> simp [Status.afterFault]
  · have hc : completes L w.state (dispatch pCmd) args :=
      ((execute_eq_ok .ide L _ pCmd args r).mp hx).1
    rw [← (execute_effects .ide L _ pCmd args r hx).2.2]
    by_cases hl : r.leave = true ∨ gaveUp = true
    · simp [hl, hc]
    · simp [hl]

/-- What the pieces of a line that is dispatched whole come to. -/
theorem parserLoop_line {L : LuaState} {w : World} {line : Text} {pieces : List Text}
    (hn : '\n' ∉ line) (hne : ∀ p ∈ pieces, p ≠ []) (hf : pieces.flatten = line ++ ['\n'])
    (hz : '\x00' ∉ line) (hlen : pieces.length ≤ 7) :
    received none pieces = some ((line ++ ['\n'], decide (7 ≤ pieces.length)), []) ∧
      parserLoop .ide (pieces.map .data) (w.waitingAt L none) =
        react .ide L (w.waitingAt L none) (line ++ ['\n']) (decide (7 ≤ pieces.length)) := by
  obtain ⟨data, rest, hrec, hin, -⟩ := received_line pieces line hne hz hn hf
  obtain ⟨rfl, rfl⟩ := hin hlen
  refine ⟨hrec, ?_⟩
  rw [parserLoop_received L w none pieces hrec, List.map_nil, parserLoop]

theorem ExecutesOnce.framedWhole {L : LuaState} {w : World} {line : Text} {pieces : List Text}
    (hn : '\n' ∉ line) (hne : ∀ p ∈ pieces, p ≠ []) (hf : pieces.flatten = line ++ ['\n'])
    (h : ExecutesOnce L w line pieces) : FramedWhole L w.state line pieces := by
  obtain ⟨data, gaveUp, hrec, hdis⟩ := h.once
  have hz := zero_not_mem_line (clean_of_words (dispatched_eq_some hdis).2.2.1).1
  obtain ⟨data', rest, hrec', hin, hout⟩ := received_line pieces line hne hz hn hf
  rw [hrec] at hrec'
  simp only [Option.some.injEq, Prod.mk.injEq] at hrec'
  obtain ⟨⟨rfl, rfl⟩, hrest⟩ := hrec'
  -- nothing is left over, so the loop has seen the newline
  have hlen : pieces.length ≤ 7 := by
    by_contra hlen
    exact hout (by omega) hrest.symm
  obtain ⟨rfl, -⟩ := hin hlen
  obtain ⟨hword, hclean, hshort, hended⟩ := (dispatched_line_iff w.state hn).mp hdis
  obtain ⟨pCmd, args, hws⟩ := List.exists_cons_of_ne_nil hword
  -- when the program runs behind the pieces, the command has asked for it
  have hreturns := h.returns
  rw [(parserLoop_line hn hne hf hz hlen).2,
    react_running_iff L (w.waitingAt L none) _ (hdis.trans (by rw [hws])), hws] at hreturns
  refine ⟨hword, hclean, hshort, hended, ?_, ?_⟩
  · intro pCmd' args' hws' hraises
    obtain ⟨rfl, rfl⟩ := List.cons.inj (hws.symm.trans hws')
    have hleaves := leavesParser_cons.mp (hreturns (.inl hraises))
    cases hd : dispatch pCmd <;> simp [hd, raises, selectedMode] at hraises hleaves
  · by_cases hsix : pieces.length ≤ 6
    · exact .inl hsix
    · refine .inr ⟨by omega, ?_⟩
      rw [hws]
      by_contra hno
      simp only [not_or, not_not] at hno
      have hgave : decide (7 ≤ pieces.length) = true := by
        rw [decide_eq_true_eq]
        omega
      exact hno.1 (hreturns (.inr ⟨hno.2, .inr hgave⟩))

theorem FramedWhole.executesOnce {L : LuaState} {w : World} {line : Text} {pieces : List Text}
    (hn : '\n' ∉ line) (hne : ∀ p ∈ pieces, p ≠ []) (hf : pieces.flatten = line ++ ['\n'])
    (h : FramedWhole L w.state line pieces) : ExecutesOnce L w line pieces := by
  have hz := zero_not_mem_line h.clean.1
  have hdis := (dispatched_line_iff w.state hn).mpr ⟨h.word, h.clean, h.short, h.ended⟩
  have hlen : pieces.length ≤ 7 := by
    rcases h.pieces with h6 | ⟨h7, -⟩
    · omega
    · omega
  obtain ⟨hrec, hloop⟩ := parserLoop_line (w := w) (L := L) hn hne hf hz hlen
  obtain ⟨pCmd, args, hws⟩ := List.exists_cons_of_ne_nil h.word
  have hcmd : dispatched (w.waitingAt L none).state (line ++ ['\n']) = some (pCmd :: args) :=
    hdis.trans (by rw [hws])
  -- the loop gives up on seven pieces only
  have hgave : decide (7 ≤ pieces.length) = true →
      leavesParser (pCmd :: args) ∨ ¬ runsToEnd L w.state (pCmd :: args) := by
    intro hseven
    rw [decide_eq_true_eq] at hseven
    rcases h.pieces with h6 | ⟨-, hends⟩
    · omega
    · rwa [hws] at hends
  refine ⟨⟨_, _, hrec, hdis⟩, ⟨pCmd, args, hws, ?_⟩, ?_⟩
  · rw [hloop]
    exact react_executed L _ hcmd hgave
  · rw [hloop, react_running_iff L _ _ hcmd, hws]
    rintro (hraises | ⟨hends, hl | hg⟩)
    · exact absurd hraises (h.caught pCmd args hws)
    · exact hl
    · exact (hgave hg).resolve_right (fun hno => hno hends)

/-- However a request line is cut into pieces: its command is executed once with all its
arguments, which decides all that the line leaves behind, and only a command that says so gives
control back, if and only if `FramedWhole` holds. -/
theorem executesOnce_iff (L : LuaState) (w : World) (line : Text) (pieces : List Text)
    (hn : '\n' ∉ line) (hne : ∀ p ∈ pieces, p ≠ []) (hf : pieces.flatten = line ++ ['\n']) :
    ExecutesOnce L w line pieces ↔ FramedWhole L w.state line pieces :=
  ⟨fun h => h.framedWhole hn hne hf, fun h => h.executesOnce hn hne hf⟩

/-- Setting a breakpoint, received in two pieces. -/
theorem executesOnce_break :
    ExecutesOnce (.mainChunk (txt "a.lua") 1) (World.start .ide (fun _ => []) [])
      (txt "break 5") [txt "brea", txt "k 5\n"] := by
  have hshort : ∀ c ∈ (requestText (txt "break 5")).drop 159, c = ' ' := by
    have hnone : (requestText (txt "break 5")).drop 159 = [] := by decide
    simp [hnone]
  have hcaught : ∀ pCmd args, lineWords (txt "break 5") = pCmd :: args →
      ¬ raises (.mainChunk (txt "a.lua") 1) (dispatch pCmd) args := by
    have hwords : lineWords (txt "break 5") = [txt "break", txt "5"] := by decide
    have hcommand : dispatch (txt "break") = .setbreak := by decide
    intro pCmd args h
    obtain ⟨rfl, rfl⟩ := List.cons.inj (hwords.symm.trans h)
    rw [hcommand]
    exact id
  apply (executesOnce_iff _ _ _ _ (by decide) (by decide) (by decide)).mpr
  exact ⟨by decide, by decide, hshort, by decide, hcaught, .inl (by decide)⟩

/-- Of eight pieces the seventh is the last one waited for. -/
theorem eightPieces_cut :
    ¬ ExecutesOnce (.mainChunk (txt "a.lua") 1) (World.start .ide (fun _ => []) [])
      (txt "stackforide")
      [txt "s", txt "t", txt "a", txt "c", txt "k", txt "f", txt "o", txt "ride\n"] := by
  intro h
  obtain ⟨data, gaveUp, hrec, -⟩ := h.once
  have hcut : received none
      [txt "s", txt "t", txt "a", txt "c", txt "k", txt "f", txt "o", txt "ride\n"] =
        some ((txt "stackfo", true), [txt "ride\n"]) := by
    decide
  rw [hcut] at hrec
  simp at hrec

end LuaIde
