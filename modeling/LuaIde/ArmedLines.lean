import LuaIde.BreakpointRequests
import LuaIde.Runs
import Mathlib.Data.List.Perm.Basic

/-! The lines armed in ldb against the breakpoints of the IDE, over the notifications the
IDE handles while ldb is stopped. -/
namespace LuaIde

open LineText DecimalText

theorem notify_tells {chunk : Text} {L : LuaState}
    {handler : PDALineBreakpoint → Ldb → Option (PDALineBreakpoint × Ldb)}
    {on : PDALineBreakpoint → Handling} (hon : Performs L handler on) (b : PDALineBreakpoint)
    (d : Ldb) {before after rest : List CInt} (h : Tells chunk L before after (on b).1)
    (hd : (d.allScriptsBreakpoints chunk).Perm (before ++ rest)) :
    ∃ d', handler b d = some ((on b).2, d') ∧
      (d'.allScriptsBreakpoints chunk).Perm (after ++ rest) := by
  obtain ⟨d', hsend, hlist⟩ := sendOptional_tells chunk L d (on b).1 before after rest h hd
  exact ⟨d', by rw [hon b d, hsend, Option.map_some], hlist⟩

/-- A loop over the registered breakpoints, each of which goes from one line to arm to
another one. -/
theorem forManaged_tells {chunk : Text} {L : LuaState}
    {handler : PDALineBreakpoint → Ldb → Option (PDALineBreakpoint × Ldb)}
    {on : PDALineBreakpoint → Handling} (hon : Performs L handler on)
    (before after : PDALineBreakpoint → List CInt) (bs : List PDALineBreakpoint) (d : Ldb)
    (rest : List CInt)
    (htells : ∀ b ∈ bs, b.isManaged → Tells chunk L (before b) (after (on b).2) (on b).1)
    (hsame : ∀ b ∈ bs, b.isManaged = false → before b = after b)
    (hd : (d.allScriptsBreakpoints chunk).Perm (bs.flatMap before ++ rest)) :
    ∃ bs' d', PDADebugTarget.forManaged handler bs d = some (bs', d') ∧
      (d'.allScriptsBreakpoints chunk).Perm (bs'.flatMap after ++ rest) := by
  induction bs generalizing d rest with
  | nil => exact ⟨[], d, rfl, hd⟩
  | cons b bs ih =>
    rw [List.flatMap_cons, List.append_assoc] at hd
    -- one breakpoint, with the lines of the others as what else is armed
    obtain ⟨b', d₁, hb, hd₁⟩ : ∃ b' d₁,
        PDADebugTarget.ifManaged handler b d = some (b', d₁) ∧
          (d₁.allScriptsBreakpoints chunk).Perm (after b' ++ (bs.flatMap before ++ rest)) := by
      by_cases hn : b.isManaged = true
      · obtain ⟨d₁, hb, hd₁⟩ := notify_tells hon b d (htells b List.mem_cons_self hn) hd
        exact ⟨(on b).2, d₁, by rw [PDADebugTarget.ifManaged, if_pos hn, hb], hd₁⟩
      · refine ⟨b, d, by rw [PDADebugTarget.ifManaged, if_neg hn], ?_⟩
        rw [← hsame b List.mem_cons_self (by simpa using hn)]
        exact hd
    have hmove : (after b' ++ (bs.flatMap before ++ rest)).Perm
        (bs.flatMap before ++ (after b' ++ rest)) := by
      rw [← List.append_assoc, ← List.append_assoc]
      exact List.perm_append_comm.append_right rest
    obtain ⟨bs', d', hbs, hd'⟩ := ih d₁ (after b' ++ rest)
      (fun x hx => htells x (List.mem_cons_of_mem b hx))
      (fun x hx => hsame x (List.mem_cons_of_mem b hx)) (hd₁.trans hmove)
    refine ⟨b' :: bs', d', ?_, ?_⟩
    · simp only [PDADebugTarget.forManaged, hb, hbs, bind, Option.bind, pure]
    · rw [List.flatMap_cons]
      refine hd'.trans ?_
      rw [← List.append_assoc]
      exact List.perm_append_comm.append_right rest

/-- The list of the program holds the lines to arm, each as often as breakpoints are on it. -/
def Agrees (chunk : Text) (s : Debugging) : Prop :=
  (s.ldb.allScriptsBreakpoints chunk).Perm
    (s.breakpoints.flatMap (lineToArm s.target s.managerEnabled))

/-- A notification that arms what was not armed, or disarms what was, on the same line. A
watchpoint is never to be armed. -/
def keepsArmed (chunk : Text) (s : Debugging) (L : LuaState) : Notification → Prop
  | .added b => counts s.target s.managerEnabled { b with fTarget := true } → Heard chunk L b
  | .removed i => ∃ b, s.breakpoints[i]? = some b ∧ (s.target.supportsBreakpoint b →
      if b.isWatchpoint then counts s.target s.managerEnabled b = false ∧ b.clearArrives
      else counts s.target s.managerEnabled b = true ∧ Heard chunk L b)
  | .changed i enabled lineNumber => ∃ b, s.breakpoints[i]? = some b ∧
      let b' := b.withAttributes enabled lineNumber
      let before := counts s.target s.managerEnabled b
      let after := counts s.target s.managerEnabled b'
      (s.target.supportsBreakpoint b →
        if b.isWatchpoint then before = false ∧ after = false ∧ b'.clearArrives
        else before = !after ∧ (before = true → b.lineNumber = lineNumber) ∧ Heard chunk L b')
  | .managerEnablement enabled => ∀ b ∈ s.breakpoints, b.isManaged →
      let before := counts s.target s.managerEnabled b
      let after := counts s.target enabled b
      (s.target.supportsBreakpoint b →
        if b.isWatchpoint then before = false ∧ after = false ∧ (enabled = false → b.clearArrives)
        else if enabled then after = true → before = false ∧ Heard chunk L b
        else before = true ∧ Heard chunk L b)

theorem perm_flatMap_eraseIdx {α β : Type} (f : α → List β) {l : List α} {i : ℕ} {a : α}
    (h : l[i]? = some a) : (l.flatMap f).Perm (f a ++ (l.eraseIdx i).flatMap f) := by
  obtain ⟨hi, rfl⟩ := List.getElem?_eq_some_iff.mp h
  exact ((List.getElem_cons_eraseIdx_perm hi).flatMap_right f).symm

theorem perm_flatMap_set {α β : Type} (f : α → List β) {l : List α} {i : ℕ} {a : α}
    (h : l[i]? = some a) (b : α) :
    ((l.set i b).flatMap f).Perm (f b ++ (l.eraseIdx i).flatMap f) := by
  obtain ⟨hi, -⟩ := List.getElem?_eq_some_iff.mp h
  exact (List.set_perm_cons_eraseIdx hi b).flatMap_right f

/-- One notification keeps the agreement, and its handler comes to its end. -/
theorem notify_agrees (chunk : Text) (s : Debugging) (L : LuaState) (x : Notification)
    (hs : Agrees chunk s) (hx : keepsArmed chunk s L x) :
    ∃ t, s.notify L x = some t ∧ Agrees chunk t := by
  unfold Agrees at hs
  cases x with
  | added b =>
    -- nothing was armed for a breakpoint that is new
    have hnew : (s.ldb.allScriptsBreakpoints chunk).Perm
        ([] ++ s.breakpoints.flatMap (lineToArm s.target s.managerEnabled)) := hs
    obtain ⟨d, hb, hd⟩ :=
      notify_tells (performs_added s.target s.managerEnabled L) b s.ldb (tells_added hx) hnew
    refine ⟨{ s with
      breakpoints := s.breakpoints ++ [(onAdded s.target s.managerEnabled b).2]
      ldb := d }, ?_, ?_⟩
    · simp only [Debugging.notify, hb, bind, Option.bind, pure]
    · simp only [Agrees, List.flatMap_append, List.flatMap_singleton]
      exact hd.trans List.perm_append_comm
  | removed i =>
    -- the lines of the others are what else is armed
    obtain ⟨b, hget, hremoved⟩ := hx
    obtain ⟨d, hb, hd⟩ := notify_tells (performs_removed s.target L) b s.ldb
      (tells_removed hremoved) (hs.trans (perm_flatMap_eraseIdx _ hget))
    refine ⟨{ s with breakpoints := s.breakpoints.eraseIdx i, ldb := d }, ?_, hd⟩
    simp only [Debugging.notify, hget, hb, bind, Option.bind, pure]
  | changed i enabled lineNumber =>
    obtain ⟨b, hget, hchanged⟩ := hx
    obtain ⟨d, hb, hd⟩ := notify_tells (performs_changed s.target s.managerEnabled L) _ s.ldb
      (tells_changed hchanged) (hs.trans (perm_flatMap_eraseIdx _ hget))
    refine ⟨{ s with
      breakpoints := s.breakpoints.set i
        (onChanged s.target s.managerEnabled (b.withAttributes enabled lineNumber)).2
      ldb := d }, ?_, hd.trans (perm_flatMap_set _ hget _).symm⟩
    simp only [Debugging.notify, hget, hb, bind, Option.bind, pure]
  | managerEnablement enabled =>
    have hon : Performs L
        (if enabled then s.target.breakpointAdded enabled L else s.target.breakpointRemoved L)
        (fun b => if enabled then onAdded s.target enabled b else onRemoved s.target b) := by
      cases enabled with
      | true => exact performs_added s.target true L
      | false => exact performs_removed s.target L
    obtain ⟨bs, d, hbs, hd⟩ := forManaged_tells hon (lineToArm s.target s.managerEnabled)
      (lineToArm s.target enabled) s.breakpoints s.ldb []
      (fun b hb hm => tells_enablement hm (hx b hb hm))
      (fun b _ hb => lineToArm_unmanaged s.target _ _ b hb) (by simpa using hs)
    refine ⟨{ s with managerEnabled := enabled, breakpoints := bs, ldb := d }, ?_,
      by simpa [Agrees] using hd⟩
    simp only [Debugging.notify, PDADebugTarget.breakpointManagerEnablementChanged, hbs, bind,
      Option.bind, pure]

/-- The deferred breakpoints are known to the manager, and a break has its effect for those
that are to be armed. -/
def startsArmed (chunk : Text) (target : PDADebugTarget) (managerEnabled : Bool) (L : LuaState)
    (bs : List PDALineBreakpoint) : Prop :=
  ∀ b ∈ bs, b.isRegistered ∧ (counts target managerEnabled b → Heard chunk L b)

theorem started_agrees (chunk : Text) (target : PDADebugTarget) (managerEnabled : Bool)
    (lines : ScriptLines) (L : LuaState) (bs : List PDALineBreakpoint)
    (h : startsArmed chunk target managerEnabled L bs) :
    ∃ s, Debugging.started target managerEnabled lines L bs = some s ∧ Agrees chunk s := by
  have hsame : ∀ b ∈ bs, b.isManaged = false → [] = lineToArm target managerEnabled b := by
    intro b hb hm
    have hmodel : decide (b.modelIdentifier = ID_PDA_DEBUG_MODEL) = false := by
      simpa [PDALineBreakpoint.isManaged, (h b hb).1] using hm
    simp [lineToArm, counts, PDADebugTarget.supportsBreakpoint, hmodel]
  have hinstall : ∀ b ∈ bs,
      counts target managerEnabled { b with fTarget := true } = true → Heard chunk L b := by
    intro b hb hc
    obtain ⟨hr, hheard⟩ := h b hb
    apply hheard
    rw [counts_installed, hr] at hc
    rw [counts_registered hr]
    simpa using hc
  obtain ⟨bs', d, hbs, hd⟩ := forManaged_tells (performs_added target managerEnabled L)
    (fun _ => []) (lineToArm target managerEnabled) bs (.initial lines) []
    (fun b hb _ => tells_added (hinstall b hb)) hsame (by simp [Ldb.initial])
  refine ⟨{ target := target, managerEnabled := managerEnabled, breakpoints := bs', ldb := d }, ?_,
    by simpa [Agrees] using hd⟩
  simp only [Debugging.started, PDADebugTarget.installDeferredBreakpoints, hbs, bind, Option.bind,
    pure]

/-- A notification, handled at a stop. -/
def Debugging.notifyAt (s : Debugging) (x : LuaState × Notification) : Option Debugging :=
  s.notify x.1 x.2

/-- A program with a breakpoint at line 5, stopped at its first line. -/
def luaTarget : PDADebugTarget := ⟨false, some (txt "/lua/a.lua")⟩

def lineFive : PDALineBreakpoint where
  kind := .line
  modelIdentifier := ID_PDA_DEBUG_MODEL
  resource := some (txt "/lua/a.lua")
  enabled := true
  lineNumber := 5
  fTarget := false

/-- `keepsArmed` for line breakpoints, as a check. -/
def keepsArmedLines (chunk : Text) (s : Debugging) (x : LuaState × Notification) : Bool :=
  let before := counts s.target s.managerEnabled
  match x.2 with
  | .added b => decide (Heard chunk x.1 b)
  | .removed i =>
    match s.breakpoints[i]? with
    | none => false
    | some b => decide (before b = true ∧ Heard chunk x.1 b)
  | .changed i enabled lineNumber =>
    match s.breakpoints[i]? with
    | none => false
    | some b =>
      let b' := b.withAttributes enabled lineNumber
      decide (before b = !before b' ∧ b.lineNumber = lineNumber ∧ Heard chunk x.1 b')
  | .managerEnablement enabled =>
    decide (∀ b ∈ s.breakpoints, before b = !enabled ∧ Heard chunk x.1 b)

theorem keepsArmed_of_lines (chunk : Text) (s : Debugging) (x : LuaState × Notification)
    (h : keepsArmedLines chunk s x = true) : keepsArmed chunk s x.1 x.2 := by
  obtain ⟨L, x⟩ := x
  cases x with
  | added b => exact fun _ => of_decide_eq_true h
  | removed i =>
    simp only [keepsArmedLines] at h
    cases hget : s.breakpoints[i]? with
    | none => simp [hget] at h
    | some b =>
      rw [hget] at h
      have hb := of_decide_eq_true h
      refine ⟨b, hget, fun _ => ?_⟩
      rw [if_neg (by simp [hb.2.2.2])]
      exact hb
  | changed i enabled lineNumber =>
    simp only [keepsArmedLines] at h
    cases hget : s.breakpoints[i]? with
    | none => simp [hget] at h
    | some b =>
      rw [hget] at h
      obtain ⟨hturn, hline, hheard⟩ := of_decide_eq_true h
      have hwatch : b.isWatchpoint = false := hheard.2.2
      refine ⟨b, hget, fun _ => ?_⟩
      rw [if_neg (by simp [hwatch])]
      exact ⟨hturn, fun _ => hline, hheard⟩
  | managerEnablement enabled =>
    intro b hb hm before after hs
    obtain ⟨hbefore, hheard⟩ := of_decide_eq_true h b hb
    rw [if_neg (by simp [hheard.2.2])]
    cases enabled with
    | true => exact fun _ => ⟨hbefore, hheard⟩
    | false => exact ⟨hbefore, hheard⟩

/-- What the IDE is told while ldb is stopped: notifications of each kind. -/
def notices : List Notification :=
  [.managerEnablement false, .managerEnablement true, .changed 0 false 5, .changed 0 true 5,
    .added { lineFive with lineNumber := 9 }, .removed 0]

end LuaIde
