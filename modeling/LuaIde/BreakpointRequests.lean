import LuaIde.PdaBreakpoints

/-! The requests of the breakpoint handlers: what each one does to the list in ldb, and when
it says what changed for its breakpoint. -/
namespace LuaIde

open LineText DecimalText Delimited

theorem sendRequest_of_words {L : LuaState} {d : Ldb} {q : Request} {pCmd : Text}
    {args : List Text} {t : Text} (hq : q.arrives d)
    (hw : wordsWithin 159 q.line = pCmd :: args)
    (hc : completes L d (dispatch pCmd) args) (ha : answerText L d pCmd args = some t) :
    ∃ d', sendRequest L d q = some d' ∧
      d'.allScriptsBreakpoints =
        (d.execute L.source (dispatch pCmd) args).allScriptsBreakpoints := by
  have hwords : commandWords (cstr q.line) = pCmd :: args := by rw [commandWords_cstr, hw]
  have hne : lineBuffer (cstr q.line) ≠ [] := by
    intro hnil
    rw [commandWords, hnil] at hwords
    have hnone : words ' ' (commandLine []) = [] := by decide
    rw [hnone] at hwords
    cases hwords
  -- the text of the request may be long enough to put a zero behind `line`
  have hanswer : answerText L (d.takeLine .ide (cstr q.line)) pCmd args = some t := ha
  have hx := (execute_eq_ok .ide L (d.takeLine .ide (cstr q.line)) pCmd args _).mpr ⟨hc, rfl⟩
  refine ⟨(d.takeLine .ide (cstr q.line)).execute L.source (dispatch pCmd) args, ?_, rfl⟩
  rw [sendRequest, if_pos hq.1, handle_eq .ide L d _ hne hq.2, hwords]
  simp only [hx, hanswer, Option.map_some, Option.getD_some, toIde]
  simp

theorem sendRequest_setBreak (L : LuaState) (d : Ldb) (n : CInt) (hn : n.val ≠ 0) :
    ∃ d', sendRequest L d (.setBreak n) = some d' ∧
      d'.allScriptsBreakpoints L.source = d.allScriptsBreakpoints L.source ++ [n] := by
  have hw : wordsWithin 159 (Request.line (.setBreak n)) = [txt "break", ofInt n.val] :=
    words_number (txt "break") n (plain_of_all (by decide)) (by decide) (by decide)
  have hd : dispatch (txt "break") = .setbreak := by decide
  have hline : lineArgument [ofInt n.val] = some n := by rw [lineArgument_ofInt, if_neg hn]
  have ha : answerText L d (txt "break") [ofInt n.val] =
      some (txt "setting breakpoint at " ++ L.source ++ txt " line " ++ ofInt n.val) := by
    simp [answerText, hd, hline]
  have hq : (Request.setBreak n).arrives d :=
    Request.arrives_number rfl (by decide) (by decide) d
  obtain ⟨d', hd', hlist⟩ := sendRequest_of_words hq hw (by simp [hd, completes]) ha
  refine ⟨d', hd', ?_⟩
  rw [hlist]
  simp [Ldb.execute, hd, editedList, hline]

theorem sendRequest_clear (L : LuaState) (d : Ldb) (n : CInt) (hn : n.val ≠ 0)
    (hm : n ∈ d.allScriptsBreakpoints L.source) :
    ∃ d', sendRequest L d (.clear n) = some d' ∧
      d'.allScriptsBreakpoints L.source = (d.allScriptsBreakpoints L.source).erase n := by
  have hw : wordsWithin 159 (Request.line (.clear n)) = [txt "clear", ofInt n.val] :=
    words_number (txt "clear") n (plain_of_all (by decide)) (by decide) (by decide)
  have hd : dispatch (txt "clear") = .clrbreak := by decide
  have hline : lineArgument [ofInt n.val] = some n := by rw [lineArgument_ofInt, if_neg hn]
  have ha : answerText L d (txt "clear") [ofInt n.val] = some (txt "ok clear") := by
    simp [answerText, hd, hline, hm, Option.filter]
  have hq : (Request.clear n).arrives d := Request.arrives_number rfl (by decide) (by decide) d
  obtain ⟨d', hd', hlist⟩ := sendRequest_of_words hq hw (by simp [hd, completes]) ha
  refine ⟨d', hd', ?_⟩
  rw [hlist]
  simp [Ldb.execute, hd, editedList, hline]

/-- A `watch` request is an unknown command, and changes nothing. -/
theorem sendRequest_watch (L : LuaState) (d : Ldb) (functionName variableName : Text)
    (hq : (Request.watch functionName variableName).arrives d) :
    ∃ d', sendRequest L d (.watch functionName variableName) = some d' ∧
      d'.allScriptsBreakpoints = d.allScriptsBreakpoints := by
  obtain ⟨args, hw⟩ := words_watch functionName variableName
  have hd : dispatch (txt "watch") = .notFound := by decide
  have ha : answerText L d (txt "watch") args = some (txt "ERROR, command not found: watch") := by
    rw [answerText, hd]
    rfl
  obtain ⟨d', hd', hlist⟩ := sendRequest_of_words hq hw (by simp [hd, completes]) ha
  refine ⟨d', hd', ?_⟩
  rw [hlist, hd, d.execute_other L.source .notFound args rfl (by decide) (by decide)]

/-- A breakpoint that is to be armed: supported, registered and enabled with the manager
enabled, or an installed one to run to. -/
def counts (target : PDADebugTarget) (managerEnabled : Bool) (b : PDALineBreakpoint) : Bool :=
  target.supportsBreakpoint b &&
    ((b.isRegistered && b.enabled && managerEnabled) || (b.isRunToLineBreakpoint && b.fTarget))

/-- The line of a breakpoint that is to be armed. -/
def lineToArm (target : PDADebugTarget) (managerEnabled : Bool) (b : PDALineBreakpoint) :
    List CInt :=
  if counts target managerEnabled b then [b.lineNumber] else []

theorem lineToArm_eq_nil {target : PDADebugTarget} {m : Bool} {b : PDALineBreakpoint}
    (h : counts target m b = false) : lineToArm target m b = [] := by
  simp [lineToArm, h]

theorem lineToArm_eq_line {target : PDADebugTarget} {m : Bool} {b : PDALineBreakpoint}
    (h : counts target m b = true) : lineToArm target m b = [b.lineNumber] := by
  simp [lineToArm, h]

/-- A breakpoint that counts is supported, and one the manager knows is enabled. -/
theorem counts_registered {target : PDADebugTarget} {m : Bool} {b : PDALineBreakpoint}
    (h : b.isRegistered = true) :
    counts target m b = (target.supportsBreakpoint b && (b.enabled && m)) := by
  have hrun : b.isRunToLineBreakpoint = false := by
    simpa [PDALineBreakpoint.isRegistered] using h
  simp [counts, h, hrun]

theorem counts_unsupported {target : PDADebugTarget} {m : Bool} {b : PDALineBreakpoint}
    (h : target.supportsBreakpoint b = false) : counts target m b = false := by
  simp [counts, h]

/-- What is installed is what counts when it is installed. -/
theorem counts_installed (target : PDADebugTarget) (m : Bool) (b : PDALineBreakpoint) :
    counts target m { b with fTarget := true } =
      (target.supportsBreakpoint b && ((b.enabled && m) || !b.isRegistered)) := by
  have hsupports : target.supportsBreakpoint { b with fTarget := true } =
      target.supportsBreakpoint b := rfl
  have hrun : ({ b with fTarget := true } : PDALineBreakpoint).isRunToLineBreakpoint =
      b.isRunToLineBreakpoint := rfl
  simp only [counts, hsupports, PDALineBreakpoint.isRegistered, hrun]
  cases b.isRunToLineBreakpoint <;> simp

theorem counts_of_fTarget {target : PDADebugTarget} {m : Bool} {b : PDALineBreakpoint}
    (h : counts target m { b with fTarget := true } = false) : counts target m b = false := by
  cases ht : b.fTarget with
  | true =>
    have hb : { b with fTarget := true } = b := by rw [← ht]
    rwa [hb] at h
  | false =>
    rw [counts_installed] at h
    unfold counts
    revert h
    unfold PDALineBreakpoint.isRegistered
    cases target.supportsBreakpoint b <;> cases b.enabled <;> cases m <;>
      cases b.isRunToLineBreakpoint <;> simp [ht]

/-- A change of the attributes does not touch what is installed to be run to. -/
theorem counts_withAttributes {target : PDADebugTarget} {m : Bool} {b : PDALineBreakpoint}
    (enabled : Bool) (lineNumber : CInt) (h : b.isRegistered = false) :
    counts target m (b.withAttributes enabled lineNumber) = counts target m b := by
  have hregistered : (b.withAttributes enabled lineNumber).isRegistered = false := h
  unfold counts
  rw [h, hregistered, Bool.false_and, Bool.false_and, Bool.false_and, Bool.false_and]
  rfl

theorem isRegistered_of_isWatchpoint {b : PDALineBreakpoint} (h : b.isWatchpoint = true) :
    b.isRegistered = true := by
  unfold PDALineBreakpoint.isWatchpoint at h
  unfold PDALineBreakpoint.isRegistered PDALineBreakpoint.isRunToLineBreakpoint
  cases hk : b.kind with
  | watchpoint functionName variableName => simp
  | line | runToLine => simp [hk] at h

/-- The manager has no say over the breakpoints its loops do not come by. -/
theorem lineToArm_unmanaged (target : PDADebugTarget) (m m' : Bool) (b : PDALineBreakpoint)
    (h : b.isManaged = false) : lineToArm target m b = lineToArm target m' b := by
  have hcounts : counts target m b = counts target m' b := by
    unfold counts
    unfold PDALineBreakpoint.isManaged at h
    rcases Bool.and_eq_false_iff.mp h with hr | hm
    · simp [hr]
    · have hs : target.supportsBreakpoint b = false := by
        simp only [PDADebugTarget.supportsBreakpoint, hm]
        simp
      simp [hs]
  rw [lineToArm, lineToArm, hcounts]

/-- A request says what changes for its breakpoint, from the line to arm `before` to the one
`after`, and ldb is stopped in the program when it comes. -/
def Tells (chunk : Text) (L : LuaState) (before after : List CInt) : Option Request → Prop
  | some (.setBreak n) => L.source = chunk ∧ n.val ≠ 0 ∧ before = [] ∧ after = [n]
  | some (.clear n) => L.source = chunk ∧ n.val ≠ 0 ∧ before = [n] ∧ after = []
  | some (.watch functionName variableName) =>
    (∀ d, (Request.watch functionName variableName).arrives d) ∧ before = after
  | none => before = after
  | _ => False

/-- A request that tells what changes keeps the list in step, whatever else is armed. -/
theorem sendOptional_tells (chunk : Text) (L : LuaState) (d : Ldb) (q : Option Request)
    (before after rest : List CInt) (h : Tells chunk L before after q)
    (hd : (d.allScriptsBreakpoints chunk).Perm (before ++ rest)) :
    ∃ d', sendOptional L d q = some d' ∧
      (d'.allScriptsBreakpoints chunk).Perm (after ++ rest) := by
  cases q with
  | none =>
    have he : before = after := h
    exact ⟨d, rfl, he ▸ hd⟩
  | some q =>
    cases q with
    | setBreak n =>
      obtain ⟨rfl, hn, rfl, rfl⟩ := h
      obtain ⟨d', hsend, hlist⟩ := sendRequest_setBreak L d n hn
      refine ⟨d', hsend, ?_⟩
      rw [hlist]
      exact (List.perm_append_singleton n _).trans (hd.cons n)
    | clear n =>
      obtain ⟨rfl, hn, rfl, rfl⟩ := h
      -- the line is armed, so that `clear` gets its reply
      have hm : n ∈ d.allScriptsBreakpoints L.source := hd.mem_iff.mpr (by simp)
      obtain ⟨d', hsend, hlist⟩ := sendRequest_clear L d n hn hm
      refine ⟨d', hsend, ?_⟩
      rw [hlist]
      simpa using hd.erase n
    | watch functionName variableName =>
      obtain ⟨hq, he⟩ := h
      obtain ⟨d', hsend, hlist⟩ := sendRequest_watch L d functionName variableName (hq d)
      exact ⟨d', hsend, by rw [hlist, ← he]; exact hd⟩
    | _ => exact h.elim

/-- What a handler sends for a breakpoint, and what becomes of the breakpoint. -/
abbrev Handling := Option Request × PDALineBreakpoint

def handlingOf (send : Bool) (q : Option Request) (b b' : PDALineBreakpoint) : Handling :=
  if send then (q, b') else (none, b)

def onAdded (target : PDADebugTarget) (managerEnabled : Bool) (b : PDALineBreakpoint) : Handling :=
  handlingOf (target.supportsBreakpoint b && ((b.enabled && managerEnabled) || !b.isRegistered))
    b.createRequest b { b with fTarget := true }

def onRemoved (target : PDADebugTarget) (b : PDALineBreakpoint) : Handling :=
  handlingOf (target.supportsBreakpoint b) b.clearRequest b { b with fTarget := false }

def onChanged (target : PDADebugTarget) (managerEnabled : Bool) (b : PDALineBreakpoint) :
    Handling :=
  if b.enabled && managerEnabled then onAdded target managerEnabled b else onRemoved target b

/-- The handler of a breakpoint does what is said of it. -/
def Performs (L : LuaState) (handler : PDALineBreakpoint → Ldb → Option (PDALineBreakpoint × Ldb))
    (on : PDALineBreakpoint → Handling) : Prop :=
  ∀ b d, handler b d = (sendOptional L d (on b).1).map (fun d => ((on b).2, d))

theorem performs_added (target : PDADebugTarget) (managerEnabled : Bool) (L : LuaState) :
    Performs L (target.breakpointAdded managerEnabled L) (onAdded target managerEnabled) := by
  intro b d
  unfold PDADebugTarget.breakpointAdded onAdded handlingOf
  by_cases hs : target.supportsBreakpoint b
  · by_cases hc : ((b.enabled && managerEnabled) || !b.isRegistered) = true
    · have hq : ({ b with fTarget := true } : PDALineBreakpoint).createRequest =
          b.createRequest := rfl
      simp only [hs, hc, if_true, Bool.and_self, PDALineBreakpoint.install, hq]
      cases sendOptional L d b.createRequest <;> rfl
    · simp [hs, hc, sendOptional]
  · simp [hs, sendOptional]

theorem performs_removed (target : PDADebugTarget) (L : LuaState) :
    Performs L (target.breakpointRemoved L) (onRemoved target) := by
  intro b d
  unfold PDADebugTarget.breakpointRemoved onRemoved handlingOf
  by_cases hs : target.supportsBreakpoint b
  · simp only [hs, if_true, PDALineBreakpoint.remove]
    cases sendOptional L d b.clearRequest <;> rfl
  · simp [hs, sendOptional]

theorem performs_changed (target : PDADebugTarget) (managerEnabled : Bool) (L : LuaState) :
    Performs L (target.breakpointChanged managerEnabled L) (onChanged target managerEnabled) := by
  intro b d
  unfold PDADebugTarget.breakpointChanged onChanged
  by_cases hs : target.supportsBreakpoint b
  · by_cases he : (b.enabled && managerEnabled) = true
    · simp only [hs, he, if_true]
      exact performs_added target managerEnabled L b d
    · simp only [hs, he, if_true, Bool.false_eq_true, if_false]
      exact performs_removed target L b d
  · simp only [hs, Bool.false_eq_true, if_false]
    simp [onAdded, onRemoved, handlingOf, hs, sendOptional]

/-- A break or clear for the breakpoint has its effect in the program. -/
def Heard (chunk : Text) (L : LuaState) (b : PDALineBreakpoint) : Prop :=
  L.source = chunk ∧ b.lineNumber.val ≠ 0 ∧ b.isWatchpoint = false

instance (chunk : Text) (L : LuaState) (b : PDALineBreakpoint) : Decidable (Heard chunk L b) :=
  inferInstanceAs (Decidable (_ ∧ _ ∧ _))

/-- The request that removes the breakpoint arrives whole, which a long one may not. -/
def PDALineBreakpoint.clearArrives (b : PDALineBreakpoint) : Prop :=
  ∀ q, b.clearRequest = some q → ∀ d, q.arrives d

theorem createRequest_of_heard {chunk : Text} {L : LuaState} {b : PDALineBreakpoint}
    (h : Heard chunk L b) :
    b.createRequest = some (.setBreak b.lineNumber) ∧
      b.clearRequest = some (.clear b.lineNumber) := by
  have hw := h.2.2
  unfold PDALineBreakpoint.isWatchpoint at hw
  unfold PDALineBreakpoint.createRequest PDALineBreakpoint.clearRequest
  cases hk : b.kind <;> simp_all

theorem counts_onRemoved {target : PDADebugTarget} {m : Bool} {b : PDALineBreakpoint}
    (h : counts target m b = false) : lineToArm target m (onRemoved target b).2 = [] := by
  apply lineToArm_eq_nil
  unfold onRemoved handlingOf
  split_ifs with hs
  · have hrun : ({ b with fTarget := false } : PDALineBreakpoint).isRunToLineBreakpoint =
        b.isRunToLineBreakpoint := rfl
    have hsupports : target.supportsBreakpoint { b with fTarget := false } = true := hs
    unfold counts PDALineBreakpoint.isRegistered at h ⊢
    rw [hs, Bool.true_and] at h
    rw [hsupports, hrun, Bool.true_and, Bool.and_false, Bool.or_false]
    exact (Bool.or_eq_false_iff.mp h).1
  · exact h

theorem tells_added {chunk : Text} {target : PDADebugTarget} {m : Bool} {L : LuaState}
    {b : PDALineBreakpoint}
    (h : counts target m { b with fTarget := true } = true → Heard chunk L b) :
    Tells chunk L [] (lineToArm target m (onAdded target m b).2) (onAdded target m b).1 := by
  cases hc : counts target m { b with fTarget := true } with
  | true =>
    have hheard := h hc
    have hsend : onAdded target m b =
        (some (.setBreak b.lineNumber), { b with fTarget := true }) := by
      rw [onAdded, handlingOf, ← counts_installed, hc, if_pos rfl,
        (createRequest_of_heard hheard).1]
    rw [hsend, lineToArm_eq_line hc]
    exact ⟨hheard.1, hheard.2.1, rfl, rfl⟩
  | false =>
    have hsend : onAdded target m b = (none, b) := by
      rw [onAdded, handlingOf, ← counts_installed, hc]
      rfl
    rw [hsend, lineToArm_eq_nil (counts_of_fTarget hc)]
    rfl

theorem tells_removed {chunk : Text} {target : PDADebugTarget} {m : Bool} {L : LuaState}
    {b : PDALineBreakpoint} (h : target.supportsBreakpoint b = true →
      if b.isWatchpoint then counts target m b = false ∧ b.clearArrives
      else counts target m b = true ∧ Heard chunk L b) :
    Tells chunk L (lineToArm target m b) [] (onRemoved target b).1 := by
  cases hs : target.supportsBreakpoint b with
  | false =>
    rw [onRemoved, handlingOf, hs, lineToArm_eq_nil (counts_unsupported hs)]
    rfl
  | true =>
    have h' := h hs
    rw [onRemoved, handlingOf, hs, if_pos rfl]
    -- a watchpoint arms no line, so its request only has to arrive
    split_ifs at h' with hw
    · obtain ⟨hc, harrives⟩ := h'
      rw [lineToArm_eq_nil hc]
      unfold PDALineBreakpoint.isWatchpoint at hw
      unfold PDALineBreakpoint.clearArrives at harrives
      unfold PDALineBreakpoint.clearRequest at harrives ⊢
      cases hk : b.kind with
      | watchpoint functionName variableName =>
        rw [hk] at harrives
        exact ⟨harrives _ rfl, rfl⟩
      | line | runToLine => simp [hk] at hw
    · rw [lineToArm_eq_line h'.1, (createRequest_of_heard h'.2).2]
      exact ⟨h'.2.1, h'.2.2.1, rfl, rfl⟩

theorem onChanged_unsupported {target : PDADebugTarget} {m : Bool} {b : PDALineBreakpoint}
    (h : target.supportsBreakpoint b = false) : onChanged target m b = (none, b) := by
  simp [onChanged, onAdded, onRemoved, handlingOf, h]

/-- A watchpoint that does not count is not enabled, and its removal changes nothing. -/
theorem tells_changed_watchpoint {chunk : Text} {target : PDADebugTarget} {m : Bool}
    {L : LuaState} {b : PDALineBreakpoint} (hs : target.supportsBreakpoint b = true)
    (hw : b.isWatchpoint = true) (hc : counts target m b = false) (ha : b.clearArrives) :
    Tells chunk L [] (lineToArm target m (onChanged target m b).2) (onChanged target m b).1 := by
  have hoff : (b.enabled && m) = false := by
    have hcounts := hc
    rw [counts_registered (isRegistered_of_isWatchpoint hw), hs, Bool.true_and] at hcounts
    exact hcounts
  have hremoved : Tells chunk L (lineToArm target m b) [] (onRemoved target b).1 := by
    apply tells_removed
    intro _
    rw [if_pos hw]
    exact ⟨hc, ha⟩
  rw [lineToArm_eq_nil hc] at hremoved
  rw [onChanged, hoff, if_neg (by decide), counts_onRemoved hc]
  exact hremoved

/-- Only the manager's breakpoints begin or cease to count with their attributes. -/
theorem isRegistered_of_turned {target : PDADebugTarget} {m : Bool} {b : PDALineBreakpoint}
    {enabled : Bool} {lineNumber : CInt}
    (h : counts target m b = !counts target m (b.withAttributes enabled lineNumber)) :
    b.isRegistered = true := by
  by_contra hr
  rw [counts_withAttributes enabled lineNumber (by simpa using hr)] at h
  cases hc : counts target m b <;> simp [hc] at h

theorem tells_changed {chunk : Text} {target : PDADebugTarget} {m : Bool} {L : LuaState}
    {b : PDALineBreakpoint} {enabled : Bool} {lineNumber : CInt}
    (h : target.supportsBreakpoint b = true →
      if b.isWatchpoint then counts target m b = false ∧
        counts target m (b.withAttributes enabled lineNumber) = false ∧
          (b.withAttributes enabled lineNumber).clearArrives
      else counts target m b = !counts target m (b.withAttributes enabled lineNumber) ∧
        (counts target m b = true → b.lineNumber = lineNumber) ∧
          Heard chunk L (b.withAttributes enabled lineNumber)) :
    Tells chunk L (lineToArm target m b)
      (lineToArm target m (onChanged target m (b.withAttributes enabled lineNumber)).2)
      (onChanged target m (b.withAttributes enabled lineNumber)).1 := by
  have hsupports : target.supportsBreakpoint (b.withAttributes enabled lineNumber) =
      target.supportsBreakpoint b := rfl
  have hwatch : (b.withAttributes enabled lineNumber).isWatchpoint = b.isWatchpoint := rfl
  have hregistered : (b.withAttributes enabled lineNumber).isRegistered = b.isRegistered := rfl
  cases hs : target.supportsBreakpoint b with
  | false =>
    have hs' := hsupports.trans hs
    rw [onChanged_unsupported hs', lineToArm_eq_nil (counts_unsupported hs),
      lineToArm_eq_nil (counts_unsupported hs')]
    rfl
  | true =>
    have h' := h hs
    have hs' := hsupports.trans hs
    split_ifs at h' with hw
    · rw [lineToArm_eq_nil h'.1]
      exact tells_changed_watchpoint hs' (hwatch.trans hw) h'.2.1 h'.2.2
    · obtain ⟨hturn, hline, hheard⟩ := h'
      have hafter : counts target m (b.withAttributes enabled lineNumber) =
          (target.supportsBreakpoint (b.withAttributes enabled lineNumber) &&
            ((b.withAttributes enabled lineNumber).enabled && m)) :=
        counts_registered (hregistered.trans (isRegistered_of_turned hturn))
      rw [hs', Bool.true_and] at hafter
      -- the handler asks for what counts after the change: it installs then, and removes else
      rw [onChanged, ← hafter]
      cases hc : counts target m (b.withAttributes enabled lineNumber) with
      | true =>
        rw [hc] at hturn
        rw [if_pos rfl, lineToArm_eq_nil hturn]
        exact tells_added (fun _ => hheard)
      | false =>
        rw [hc] at hturn
        have hsend : (onRemoved target (b.withAttributes enabled lineNumber)).1 =
            some (.clear lineNumber) := by
          rw [onRemoved, handlingOf, hs', if_pos rfl]
          exact (createRequest_of_heard hheard).2
        rw [if_neg (by decide), counts_onRemoved hc, lineToArm_eq_line hturn, hline hturn, hsend]
        exact ⟨hheard.1, hheard.2.1, rfl, rfl⟩

theorem tells_enablement {chunk : Text} {target : PDADebugTarget} {m enabled : Bool}
    {L : LuaState} {b : PDALineBreakpoint} (hm : b.isManaged = true)
    (h : target.supportsBreakpoint b = true →
      if b.isWatchpoint then counts target m b = false ∧ counts target enabled b = false ∧
        (enabled = false → b.clearArrives)
      else if enabled then counts target enabled b = true →
        counts target m b = false ∧ Heard chunk L b
      else counts target m b = true ∧ Heard chunk L b) :
    let on := if enabled then onAdded target enabled b else onRemoved target b
    Tells chunk L (lineToArm target m b) (lineToArm target enabled on.2) on.1 := by
  have hr : b.isRegistered = true := (Bool.and_eq_true_iff.mp hm).1
  cases enabled with
  | true =>
    have hafter := counts_installed target true b
    rw [hr, Bool.not_true, Bool.or_false, ← counts_registered hr] at hafter
    have hturn : counts target true b = true → counts target m b = false ∧ Heard chunk L b := by
      intro hc
      cases hs : target.supportsBreakpoint b with
      | false => simp [counts_unsupported hs] at hc
      | true =>
        have h' := h hs
        by_cases hw : b.isWatchpoint = true
        · rw [if_pos hw] at h'
          simp [h'.2.1] at hc
        · rw [if_neg hw, if_pos rfl] at h'
          exact h' hc
    -- one that does not count with the manager enabled never does
    have hbefore : counts target m b = false := by
      cases hc : counts target true b with
      | true => exact (hturn hc).1
      | false =>
        rw [counts_registered hr, Bool.and_true] at hc
        rw [counts_registered hr, ← Bool.and_assoc, hc, Bool.false_and]
    rw [lineToArm_eq_nil hbefore]
    apply tells_added
    rw [hafter]
    exact fun hc => (hturn hc).2
  | false =>
    have hafter : counts target false b = false := by
      rw [counts_registered hr, Bool.and_false, Bool.and_false]
    have hon : (if false = true then onAdded target false b else onRemoved target b) =
        onRemoved target b := rfl
    simp only [hon, counts_onRemoved hafter]
    apply tells_removed
    intro hs
    have h' := h hs
    by_cases hw : b.isWatchpoint = true
    · rw [if_pos hw] at h' ⊢
      exact ⟨h'.1, h'.2.2 rfl⟩
    · rw [if_neg hw, if_neg (by decide)] at h'
      rw [if_neg hw]
      exact h'

end LuaIde
