import LuaIde.PdaBreakpoints
import LuaIde.PdaTarget

/-! The operations of the Java model that are to change the program or ldb: what becomes of
their requests at a stop, and what they do with the reply. -/
namespace LuaIde

open LineText DecimalText Delimited CheckedFold

/-- The command connection, with the number of the reply lines read, and what the operations
change in the IDE: the change events fired, and of the breakpoint that is installed whether
its target is set and whether it is an event listener. -/
structure Connected where
  world : World
  readLines : ℕ
  changeEvents : ℕ
  fTarget : Bool
  listens : Bool

namespace Connected

variable (s : Connected) (q : Request)

/-- A stopped ldb receives the request. -/
def receives : Connected :=
  match s.world.status with
  | .waiting L pending => { s with world := receive .ide L pending (.data q.line) s.world }
  | _ => s

/-- The line `readLine` finds: the oldest one that is unread. -/
def nextLine : Option Text := (lines s.world.replies)[s.readLines]?

/-- What `readLine` comes back with, if it does at this stop. `gone` is what a connection
gives whose ldb has come to an undefined operation. -/
def reply (gone : Option Reply) : Option Reply :=
  match s.nextLine, s.world.status with
  | some line, _ => some (.line line)
  | none, .over _ => gone
  | none, _ => none

end Connected

/-- A method of the Java model that may throw, or not come back at this stop. -/
def Call (α : Type) : Type := Connected → Option (Except JavaError α) × Connected

instance : Monad Call where
  pure a := fun s => (some (.ok a), s)
  bind m f := fun s =>
    match m s with
    | (some (.ok a), t) => f a t
    | (some (.error e), t) => (some (.error e), t)
    | (none, t) => (none, t)

namespace Call

def throws {α : Type} (e : JavaError) : Call α := fun s => (some (.error e), s)

/-- A result that is there already. -/
def ofExcept {α : Type} (result : Except JavaError α) : Call α := fun s => (some result, s)

def sends (q : Request) : Call Unit := fun s => (some (.ok ()), s.receives q)

/-- `readLine`, with the exception that `requestFailed` throws. -/
def readsLine (gone : Option Reply) : Call Reply := fun s =>
  match s.reply gone with
  | none => (none, s)
  | some .failed => (some (.error .debugException), s)
  | some reply => (some (.ok reply), { s with readLines := s.readLines + 1 })

/-- `PDADebugTarget.sendRequest`. -/
def sendRequest (gone : Option Reply) (q : Request) : Call Reply := do
  sends q
  readsLine gone

def fireChangeEvent : Call Unit := fun s =>
  (some (.ok ()), { s with changeEvents := s.changeEvents + 1 })

/-- `PDAVariable.setValue`. -/
def setValue (gone : Option Reply) (frame : CInt) (name expression : Text) : Call Unit := do
  let _ ← sendRequest gone (.setvar frame name expression)
  fireChangeEvent

/-- `PDADebugTarget.push`. -/
def push (gone : Option Reply) (value : Text) : Call Unit := do
  let _ ← sendRequest gone (.pushdata value)
  return ()

/-- `PDADebugTarget.pop`. -/
def pop (gone : Option Reply) : Call PDAStackValue := do
  let reply ← sendRequest gone .data
  let dataStack ← ofExcept (PDADebugTarget.getDataStack reply)
  match dataStack with
  | value :: _ =>
    let _ ← sendRequest gone .popdata
    return value
  | [] => throws .debugException

/-- `PDAThread.pop`. -/
def popFrame (gone : Option Reply) : Call Unit := do
  let _ ← sendRequest gone .drop
  return ()

def becomesListener : Call Unit := fun s =>
  (some (.ok ()), { s with fTarget := true, listens := true })

/-- `PDALineBreakpoint.install`. -/
def install (gone : Option Reply) (b : PDALineBreakpoint) : Call Unit := do
  becomesListener
  match b.createRequest with
  | some q =>
    let _ ← sendRequest gone q
    return ()
  | none => return ()

end Call

inductive Update where
  | setValue (frame : CInt) (name expression : Text)
  | push (value : Text)
  | pop
  | popFrame
  | install (b : PDALineBreakpoint)

namespace Update

def call (gone : Option Reply) : Update → Call Unit
  | setValue frame name expression => Call.setValue gone frame name expression
  | push value => Call.push gone value
  | pop => do
    let _ ← Call.pop gone
    return ()
  | popFrame => Call.popFrame gone
  | install b => Call.install gone b

/-- ldb has done what it was to do: the line is in the breakpoint list of the stopped script;
of the other updates, that the program's state is another one at all. ldb knows of no
watchpoints. -/
def Performed (u : Update) (s t : Connected) : Prop :=
  ∃ L pending, s.world.status = .waiting L pending ∧
    match u with
    | install b => b.isWatchpoint = false ∧ t.world.state.allScriptsBreakpoints L.source =
        s.world.state.allScriptsBreakpoints L.source ++ [b.lineNumber]
    | _ => ∃ L' pending', t.world.status = .waiting L' pending' ∧ L' ≠ L

/-- The IDE says that the update happened. -/
def Claimed (u : Update) (s t : Connected) : Prop :=
  s.changeEvents < t.changeEvents ∨
    match u with
    | install _ => t.fTarget = true ∨ t.listens = true
    | _ => False

/-- The update is performed, or the operation throws and nothing says that it was. -/
def NotLost (u : Update) (gone : Option Reply) (s : Connected) : Prop :=
  let (result, t) := u.call gone s
  u.Performed s t ∨ ((∃ e, result = some (.error e)) ∧ ¬ u.Claimed s t)

end Update

/-- ldb comes to an undefined operation over the request. -/
def Connected.Faults (s : Connected) (q : Request) : Prop :=
  ∃ L pending data gaveUp, s.world.status = .waiting L pending ∧
    intake pending (cstr q.line) = .command data gaveUp ∧
      ¬ handles .ide L s.world.state data ∧ ¬ raisesError .ide L s.world.state data

/-- Over the request ldb comes to an undefined operation, and the connection fails with an
IOException when all lines written before have been read. -/
structure Breaks (gone : Option Reply) (s : Connected) (q : Request) : Prop where
  faults : s.Faults q
  read : s.nextLine = none
  exception : gone = some .failed

/-- What ldb reads, the request behind what it had half received, is a break command with
that line. -/
def Arms (d : Ldb) (pending : Option (Text × ℕ)) (n : CInt) : Prop :=
  ∃ data gaveUp args, intake pending (cstr (Request.line (.setBreak n))) = .command data gaveUp ∧
    ¬ unterminated .ide d data ∧ (∃ pCmd, commandWords data = pCmd :: args ∧
      dispatch pCmd = .setbreak) ∧ lineArgument args = some n

/-- The reply to `data`, if there is one, brings no values. -/
def BringsNothing (gone : Option Reply) (s : Connected) : Prop :=
  ∃ reply, (s.receives .data).reply gone = some reply ∧
    PDADebugTarget.getDataStack reply = .ok []

/-- The line read for `data` is the last one there is and brings values, ldb has not gone on
with the program, and the connection fails behind `popdata`, which no ldb survives. -/
structure FailsBehindData (gone : Option Reply) (s : Connected) : Prop where
  brings : ∃ line, (s.receives .data).nextLine = some line ∧
    PDADebugTarget.getDataStack (.line line) ≠ .ok []
  read : (lines (s.receives .data).world.replies)[s.readLines + 1]? = none
  stays : (s.receives .data).world.status ≠ .running
  exception : gone = some .failed

/-- When the update is not lost. -/
def Update.Kept (gone : Option Reply) (s : Connected) : Update → Prop
  | setValue frame name expression => Breaks gone s (.setvar frame name expression)
  | push value => Breaks gone s (.pushdata value)
  | pop => BringsNothing gone s ∨ Breaks gone s .data ∨ FailsBehindData gone s
  | popFrame => Breaks gone s .drop
  | install b => b.isWatchpoint = false ∧
      ∃ L pending, s.world.status = .waiting L pending ∧ Arms s.world.state pending b.lineNumber

section Receives

variable {s : Connected} {L : LuaState} {pending : Option (Text × ℕ)}

/-- What becomes of a request at a stop: it is half received, ldb comes to an undefined
operation or an error of Lua, or a command is performed. -/
theorem receives_cases (hs : s.world.status = .waiting L pending) (q : Request) :
    (∃ next, intake pending (cstr q.line) = .more next ∧
      (s.receives q).world = { s.world with status := .waiting L next }) ∨
    ∃ data gaveUp, intake pending (cstr q.line) = .command data gaveUp ∧
      ((¬ handles .ide L s.world.state data ∧
        ∃ why, handle .ide L s.world.state data = .error why ∧
          (s.receives q).world = { s.world with status := .afterFault why }) ∨
      ∃ r, handle .ide L s.world.state data = .ok r ∧ (s.receives q).world = { s.world with
        toSession := s.world.toSession.perform L.source data r
        status := if r.leave ∨ gaveUp then .running else .waiting L none }) := by
  have hreceives : (s.receives q).world = receive .ide L pending (.data q.line) s.world := by
    simp [Connected.receives, hs]
  rcases hi : intake pending (cstr q.line) with next | ⟨data, gaveUp⟩
  · left
    exact ⟨next, rfl, by rw [hreceives, receive, hi]⟩
  · right
    refine ⟨data, gaveUp, rfl, ?_⟩
    have hreact : (s.receives q).world = react .ide L s.world data gaveUp := by
      rw [hreceives, receive, hi]
    -- the command is carried out, or ldb leaves what is modelled
    cases hh : handle .ide L s.world.state data with
    | error why =>
      left
      refine ⟨fun h => ?_, why, rfl, by rw [hreact, react, hh]⟩
      obtain ⟨r, hr⟩ := (handle_isOk .ide L s.world.state data).mpr h
      rw [hh] at hr
      cases hr
    | ok r => exact .inr ⟨r, rfl, by rw [hreact, react, hh]⟩

theorem over_iff_faults (hs : s.world.status = .waiting L pending) (q : Request) :
    (∃ why, (s.receives q).world.status = .over why) ↔ s.Faults q := by
  constructor
  · rintro ⟨why, hover⟩
    rcases receives_cases hs q with
      ⟨next, -, hw⟩ | ⟨data, gaveUp, hi, ⟨hn, why', he, hw⟩ | ⟨r, -, hw⟩⟩
    · rw [hw] at hover
      cases hover
    · refine ⟨L, pending, data, gaveUp, hs, hi, hn, fun hraises => ?_⟩
      -- the program goes on behind an error of Lua
      obtain rfl := Except.error.inj (he.symm.trans ((handle_raises_iff _ _ _ _).mpr hraises))
      rw [hw] at hover
      cases hover
    · rw [hw] at hover
      dsimp only at hover
      split at hover <;> cases hover
  · rintro ⟨L', pending', data, gaveUp, hs', hi, hn, hraises⟩
    rw [hs] at hs'
    obtain ⟨rfl, rfl⟩ := Status.waiting.inj hs'
    rcases receives_cases hs q with
      ⟨next, hi', -⟩ | ⟨data', gaveUp', hi', ⟨-, why, he, hw⟩ | ⟨r, hr, -⟩⟩
    · rw [hi] at hi'
      cases hi'
    · rw [hi] at hi'
      obtain ⟨rfl, rfl⟩ := Intake.command.inj hi'
      refine ⟨why, ?_⟩
      rw [hw]
      cases why with
      | luaError => exact absurd ((handle_raises_iff _ _ _ _).mp he) hraises
      | _ => rfl
    · rw [hi] at hi'
      obtain ⟨rfl, rfl⟩ := Intake.command.inj hi'
      exact absurd ((handle_isOk .ide L s.world.state data).mp ⟨r, hr⟩) hn

/-- An undefined operation writes nothing. -/
theorem nextLine_of_over (hs : s.world.status = .waiting L pending) {q : Request} {why : Fault}
    (hover : (s.receives q).world.status = .over why) :
    (s.receives q).nextLine = s.nextLine := by
  have hread : (s.receives q).readLines = s.readLines := by simp [Connected.receives, hs]
  rcases receives_cases hs q with
    ⟨next, -, hw⟩ | ⟨data, gaveUp, -, ⟨-, why', -, hw⟩ | ⟨r, -, hw⟩⟩
  · rw [hw] at hover
    cases hover
  · rw [Connected.nextLine, Connected.nextLine, hread, hw]
  · rw [hw] at hover
    dsimp only at hover
    split at hover <;> cases hover

theorem reply_eq_failed {gone : Option Reply} : s.reply gone = some .failed ↔
    s.nextLine = none ∧ (∃ why, s.world.status = .over why) ∧ gone = some .failed := by
  unfold Connected.reply
  cases s.nextLine with
  | some line => simp
  | none => cases s.world.status <;> simp

/-- `sendRequest` throws if and only if the request breaks the connection. -/
theorem reply_failed_iff {gone : Option Reply} (hs : s.world.status = .waiting L pending)
    (q : Request) : (s.receives q).reply gone = some .failed ↔ Breaks gone s q := by
  rw [reply_eq_failed]
  constructor
  · rintro ⟨hnext, ⟨why, hover⟩, hgone⟩
    rw [nextLine_of_over hs hover] at hnext
    exact ⟨(over_iff_faults hs q).mp ⟨why, hover⟩, hnext, hgone⟩
  · rintro ⟨hfaults, hnext, hgone⟩
    obtain ⟨why, hover⟩ := (over_iff_faults hs q).mpr hfaults
    exact ⟨(nextLine_of_over hs hover).trans hnext, ⟨why, hover⟩, hgone⟩

end Receives

/-- The program has not been touched: where ldb waits, it waits with the same state. -/
def SameProgram (L : LuaState) (s : Connected) : Prop :=
  ∀ L' pending, s.world.status = .waiting L' pending → L' = L

theorem sameProgram_receives {L : LuaState} {s : Connected} (h : SameProgram L s) (q : Request) :
    SameProgram L (s.receives q) := by
  cases hs : s.world.status with
  | waiting L₀ pending =>
    obtain rfl := h L₀ pending hs
    intro L' pending' hs'
    rcases receives_cases hs q with
      ⟨next, -, hw⟩ | ⟨data, gaveUp, -, ⟨-, why, -, hw⟩ | ⟨r, -, hw⟩⟩
    · rw [hw] at hs'
      exact (Status.waiting.inj hs').1.symm
    · rw [hw] at hs'
      exact absurd hs' (Status.afterFault_ne_waiting why L' pending')
    · rw [hw] at hs'
      dsimp only at hs'
      split at hs'
      · cases hs'
      · exact (Status.waiting.inj hs').1.symm
  | _ => rwa [Connected.receives, hs]

@[simp] theorem receives_changeEvents (s : Connected) (q : Request) :
    (s.receives q).changeEvents = s.changeEvents := by
  unfold Connected.receives
  split <;> rfl

@[simp] theorem receives_readLines (s : Connected) (q : Request) :
    (s.receives q).readLines = s.readLines := by
  unfold Connected.receives
  split <;> rfl

/-- What `sendRequest` does: it does not come back, throws, or comes back with a reply. -/
theorem sendRequest_cases (gone : Option Reply) (q : Request) (s : Connected) :
    ((s.receives q).reply gone = none ∧ Call.sendRequest gone q s = (none, s.receives q)) ∨
    ((s.receives q).reply gone = some .failed ∧
      Call.sendRequest gone q s = (some (.error .debugException), s.receives q)) ∨
    ∃ reply, (s.receives q).reply gone = some reply ∧ reply ≠ .failed ∧
      Call.sendRequest gone q s =
        (some (.ok reply), { s.receives q with readLines := s.readLines + 1 }) := by
  have hrun : Call.sendRequest gone q s = Call.readsLine gone (s.receives q) := rfl
  rw [hrun, Call.readsLine, receives_readLines]
  cases (s.receives q).reply gone with
  | none => exact .inl ⟨rfl, rfl⟩
  | some reply =>
    cases reply with
    | failed => exact .inr (.inl ⟨rfl, rfl⟩)
    | line text => exact .inr (.inr ⟨_, rfl, by simp, rfl⟩)
    | eof => exact .inr (.inr ⟨_, rfl, by simp, rfl⟩)

theorem bind_run {α β : Type} (m : Call α) (f : α → Call β) (s : Connected) :
    (m >>= f) s = match m s with
      | (some (.ok a), t) => f a t
      | (some (.error e), t) => (some (.error e), t)
      | (none, t) => (none, t) := rfl

theorem return_state {α : Type} (m : Call α) (s : Connected) :
    ((m >>= fun _ => (return () : Call Unit)) s).2 = (m s).2 := by
  rw [bind_run]
  rcases m s with ⟨_ | ⟨e | a⟩, t⟩ <;> rfl

section NotLost

variable {gone : Option Reply} {s t : Connected} {L : LuaState} {pending : Option (Text × ℕ)}

/-- No command of ldb changes the program. -/
theorem not_performed {u : Update} (hu : ∀ b, u ≠ .install b)
    (hs : s.world.status = .waiting L pending) (ht : SameProgram L t) : ¬ u.Performed s t := by
  rintro ⟨L₀, pending₀, hs₀, h⟩
  obtain ⟨rfl, rfl⟩ := Status.waiting.inj (hs.symm.trans hs₀)
  cases u with
  | install b => exact hu b rfl
  | setValue _ _ _ | push _ | pop | popFrame =>
    obtain ⟨L', pending', ht', hne⟩ := h
    exact hne (ht L' pending' ht')

theorem sameProgram_self (hs : s.world.status = .waiting L pending) : SameProgram L s := by
  intro L' pending' hs'
  exact (Status.waiting.inj (hs.symm.trans hs')).1.symm

/-- Without an exception such an update is lost. -/
theorem lost_of_no_exception {u : Update} (hu : ∀ b, u ≠ .install b)
    (hs : s.world.status = .waiting L pending) (ht : SameProgram L (u.call gone s).2)
    (hresult : ∀ e, (u.call gone s).1 ≠ some (.error e)) : ¬ u.NotLost gone s := by
  rintro (hp | ⟨⟨e, he⟩, -⟩)
  · exact not_performed hu hs ht hp
  · exact hresult e he

/-- An exception in front of everything else the operation does is no claim. -/
theorem notLost_of_exception {u : Update} (hu : ∀ b, u ≠ .install b) {e : JavaError}
    (h : u.call gone s = (some (.error e), t)) (ht : t.changeEvents = s.changeEvents) :
    u.NotLost gone s := by
  rw [Update.NotLost, h]
  refine .inr ⟨⟨e, rfl⟩, ?_⟩
  rintro (hlt | hb)
  · rw [ht] at hlt
    exact lt_irrefl _ hlt
  · cases u with
    | install b => exact hu b rfl
    | setValue _ _ _ | push _ | pop | popFrame => exact hb

/-- An update of one request: only the exception of `sendRequest` keeps it from being lost. -/
theorem notLost_request {u : Update} (hu : ∀ b, u ≠ .install b) {q : Request} {k : Call Unit}
    (hcall : u.call gone s = (Call.sendRequest gone q >>= fun _ => k) s)
    (hk : ∀ t, (k t).1 = some (.ok ()) ∧ (k t).2.world = t.world)
    (hs : s.world.status = .waiting L pending) : u.NotLost gone s ↔ Breaks gone s q := by
  have hsame := sameProgram_receives (sameProgram_self hs) q
  rw [← reply_failed_iff hs]
  rcases sendRequest_cases gone q s with ⟨hr, hrun⟩ | ⟨hr, hrun⟩ | ⟨reply, hr, hne, hrun⟩
  · rw [bind_run, hrun] at hcall
    refine iff_of_false (lost_of_no_exception hu hs ?_ ?_) (by simp [hr])
    · rwa [hcall]
    · simp [hcall]
  · rw [bind_run, hrun] at hcall
    exact iff_of_true (notLost_of_exception hu hcall (receives_changeEvents s q)) hr
  · rw [bind_run, hrun] at hcall
    have hcall' : u.call gone s = k { s.receives q with readLines := s.readLines + 1 } := hcall
    obtain ⟨hok, hworld⟩ := hk { s.receives q with readLines := s.readLines + 1 }
    refine iff_of_false (lost_of_no_exception hu hs ?_ ?_) (by simp [hr, hne])
    · intro L' pending' hw
      rw [hcall', hworld] at hw
      exact hsame L' pending' hw
    · intro e he
      rw [hcall', hok] at he
      cases he

/-- The prefix `p` makes `popdata` a print command, which reads the word it lacks. -/
theorem popdata_faults {t : Connected} (ht : t.world.status = .waiting L none) :
    t.Faults .popdata := by
  have hline : intake none (cstr (Request.line .popdata)) =
      .command (cstr (Request.line .popdata)) false := by
    rw [intake, if_neg (by decide), if_pos (by decide)]
  have hwords : commandWords (cstr (Request.line .popdata)) = [txt "popdata"] := by
    rw [commandWords_cstr]
    exact words_one (txt "popdata") (plain_of_all (by decide)) (by decide) (by decide)
  have hne : lineBuffer (cstr (Request.line .popdata)) ≠ [] := by decide
  have hd : dispatch (txt "popdata") = .print := by decide
  refine ⟨L, none, _, _, ht, hline, ?_, ?_⟩
  · rintro (h | ⟨-, pCmd, args, hw, hc⟩)
    · exact hne h
    · rw [hwords] at hw
      obtain ⟨rfl, rfl⟩ := List.cons.inj hw
      rw [hd] at hc
      obtain ⟨which, hwhich, -⟩ := hc
      cases hwhich
  · rintro ⟨-, pCmd, args, hw, hr⟩
    rw [hwords] at hw
    obtain ⟨rfl, rfl⟩ := List.cons.inj hw
    rwa [hd] at hr

/-- A request with its newline is not half received. -/
theorem data_received (pending : Option (Text × ℕ)) :
    ∃ data gaveUp, intake pending (cstr (Request.line .data)) = .command data gaveUp := by
  have hnewline : '\n' ∈ cstr (Request.line .data) := by decide
  have hne : cstr (Request.line .data) ≠ [] := by decide
  rcases pending with _ | ⟨tmpstr, count⟩
  · exact ⟨_, _, by rw [intake, if_neg hne, if_pos hnewline]⟩
  · by_cases hc : 5 ≤ count
    · exact ⟨tmpstr ++ cstr (Request.line .data), true, by simp only [intake, if_pos hc]⟩
    · refine ⟨tmpstr ++ cstr (Request.line .data), false, ?_⟩
      simp only [intake, if_neg hc]
      rw [if_pos (List.mem_append_right tmpstr hnewline)]

theorem status_behind_data (hs : s.world.status = .waiting L pending) :
    (s.receives .data).world.status = .running ∨
      (s.receives .data).world.status = .waiting L none ∨
      ∃ why, (s.receives .data).world.status = .over why := by
  obtain ⟨data, gaveUp, hi⟩ := data_received pending
  rcases receives_cases hs .data with
    ⟨next, hi', -⟩ | ⟨data', gaveUp', -, ⟨-, why, -, hw⟩ | ⟨r, -, hw⟩⟩
  · rw [hi] at hi'
    cases hi'
  · rw [hw]
    cases why with
    | luaError => exact .inl rfl
    | _ => exact .inr (.inr ⟨_, rfl⟩)
  · rw [hw]
    dsimp only
    split
    · exact .inl rfl
    · exact .inr (.inl rfl)

/-- Behind a reply to `data`, `popdata` throws if and only if ldb has not gone on and no line
is left. -/
theorem popdata_failed_iff (gone : Option Reply) (hs : s.world.status = .waiting L pending)
    (hworld : t.world = (s.receives .data).world) (hread : t.readLines = s.readLines + 1) :
    (t.receives .popdata).reply gone = some .failed ↔
      (lines (s.receives .data).world.replies)[s.readLines + 1]? = none ∧
        (s.receives .data).world.status ≠ .running ∧ gone = some .failed := by
  have hnext : t.nextLine = (lines (s.receives .data).world.replies)[s.readLines + 1]? := by
    rw [Connected.nextLine, hworld, hread]
  rw [← hnext, ← hworld]
  rcases status_behind_data hs with hst | hst | ⟨why, hst⟩ <;> rw [← hworld] at hst
  · have hstill : t.receives .popdata = t := by rw [Connected.receives, hst]
    rw [hstill, reply_eq_failed]
    simp [hst]
  · rw [reply_failed_iff hst]
    constructor
    · intro h
      exact ⟨h.read, by simp [hst], h.exception⟩
    · rintro ⟨hn, -, hgone⟩
      exact ⟨popdata_faults hst, hn, hgone⟩
  · have hstill : t.receives .popdata = t := by rw [Connected.receives, hst]
    rw [hstill, reply_eq_failed]
    simp [hst]

theorem getDataStack_ok {reply : Reply} (h : reply ≠ .failed) :
    ∃ values, PDADebugTarget.getDataStack reply = .ok values := by
  cases reply with
  | failed => exact absurd rfl h
  | eof => exact ⟨[], rfl⟩
  | line text => exact ⟨_, PDADebugTarget.getDataStack_line text⟩

/-- Behind a reply that brings values it is the second request that decides. -/
theorem notLost_pop_of_values (hs : s.world.status = .waiting L pending) {reply : Reply}
    {value : PDAStackValue} {values : List PDAStackValue}
    (hr : (s.receives .data).reply gone = some reply) (hne : reply ≠ .failed)
    (hrun : Call.sendRequest gone .data s =
      (some (.ok reply), { s.receives .data with readLines := s.readLines + 1 }))
    (hvalues : PDADebugTarget.getDataStack reply = .ok (value :: values)) :
    Update.NotLost .pop gone s ↔ FailsBehindData gone s := by
  have hpop : ∀ b, Update.pop ≠ .install b := by
    intro b h
    cases h
  have hsame := sameProgram_receives (sameProgram_self hs) .data
  set t : Connected := { s.receives .data with readLines := s.readLines + 1 } with ht
  have hsecond := popdata_failed_iff (t := t) gone hs rfl rfl
  have hsame' : SameProgram L (t.receives .popdata) :=
    sameProgram_receives (show SameProgram L t from hsame) .popdata
  have hlost (h : ¬ (t.receives .popdata).reply gone = some .failed) :
      ¬ FailsBehindData gone s := fun hf => h (hsecond.mpr ⟨hf.read, hf.stays, hf.exception⟩)
  rcases sendRequest_cases gone .popdata t with
    ⟨hr', hrun'⟩ | ⟨hr', hrun'⟩ | ⟨reply', hr', hne', hrun'⟩
  · have hcall : Update.pop.call gone s = (none, t.receives .popdata) := by
      simp only [Update.call, Call.pop, bind_run, hrun, Call.ofExcept, hvalues, hrun']
    exact iff_of_false (lost_of_no_exception hpop hs (by rwa [hcall]) (by simp [hcall]))
      (hlost (by simp [hr']))
  · have hcall : Update.pop.call gone s =
        (some (.error .debugException), t.receives .popdata) := by
      simp only [Update.call, Call.pop, bind_run, hrun, Call.ofExcept, hvalues, hrun']
    refine iff_of_true (notLost_of_exception hpop hcall (by simp [ht])) ?_
    obtain ⟨hread, hstays, hgone⟩ := hsecond.mp hr'
    refine ⟨?_, hread, hstays, hgone⟩
    cases hline : (s.receives .data).nextLine with
    | some line =>
      rw [Connected.reply, hline] at hr
      obtain rfl := Option.some.inj hr
      exact ⟨line, rfl, by simp [hvalues]⟩
    | none =>
      -- a reply without a line would be what the dead connection gives
      rw [Connected.reply, hline] at hr
      cases hst : (s.receives .data).world.status <;> simp [hst, hgone] at hr
      exact absurd hr.symm hne
  · have hcall : (Update.pop.call gone s).1 = some (.ok ()) ∧
        (Update.pop.call gone s).2.world = (t.receives .popdata).world := by
      simp only [Update.call, Call.pop, bind_run, hrun, Call.ofExcept, hvalues, hrun']
      exact ⟨rfl, rfl⟩
    refine iff_of_false (lost_of_no_exception hpop hs ?_ (by simp [hcall.1]))
      (hlost (by simp [hr', hne']))
    intro L' pending' hw
    rw [hcall.2] at hw
    exact hsame' L' pending' hw

/-- Popping the data stack throws when there is nothing to pop, or when one of its two
requests breaks the connection. -/
theorem notLost_pop (hs : s.world.status = .waiting L pending) :
    Update.NotLost .pop gone s ↔
      BringsNothing gone s ∨ Breaks gone s .data ∨ FailsBehindData gone s := by
  have hpop : ∀ b, Update.pop ≠ .install b := by
    intro b h
    cases h
  have hsame := sameProgram_receives (sameProgram_self hs) .data
  have hbrings (h : FailsBehindData gone s) :
      ∃ line, (s.receives .data).reply gone = some (.line line) := by
    obtain ⟨line, hline, -⟩ := h.brings
    exact ⟨line, by rw [Connected.reply, hline]⟩
  rw [← reply_failed_iff hs]
  -- how the first request ends: no reply, an IOException, or a reply
  rcases sendRequest_cases gone .data s with ⟨hr, hrun⟩ | ⟨hr, hrun⟩ | ⟨reply, hr, hne, hrun⟩
  · have hcall : Update.pop.call gone s = (none, s.receives .data) := by
      simp only [Update.call, Call.pop, bind_run, hrun]
    refine iff_of_false (lost_of_no_exception hpop hs (by rwa [hcall]) (by simp [hcall])) ?_
    rintro (⟨reply, hreply, -⟩ | h | h)
    · simp [hr] at hreply
    · simp [hr] at h
    · obtain ⟨line, hline⟩ := hbrings h
      simp [hr] at hline
  · have hcall : Update.pop.call gone s =
        (some (.error .debugException), s.receives .data) := by
      simp only [Update.call, Call.pop, bind_run, hrun]
    exact iff_of_true (notLost_of_exception hpop hcall (receives_changeEvents s .data))
      (.inr (.inl hr))
  · obtain ⟨values, hvalues⟩ := getDataStack_ok hne
    cases values with
    | nil =>
      have hcall : Update.pop.call gone s = (some (.error .debugException),
          { s.receives .data with readLines := s.readLines + 1 }) := by
        simp only [Update.call, Call.pop, bind_run, hrun, Call.ofExcept, hvalues, Call.throws]
      exact iff_of_true (notLost_of_exception hpop hcall (receives_changeEvents s .data))
        (.inl ⟨reply, hr, hvalues⟩)
    | cons value values =>
      have hnothing : ¬ BringsNothing gone s := by
        rintro ⟨reply', hreply', hnil⟩
        obtain rfl := Option.some.inj (hr.symm.trans hreply')
        rw [hvalues] at hnil
        cases hnil
      have hthrows : ¬ (s.receives .data).reply gone = some .failed := by simp [hr, hne]
      rw [or_iff_right hnothing, or_iff_right hthrows]
      exact notLost_pop_of_values hs hr hne hrun hvalues

/-- Installing makes the breakpoint a listener, and then sends the request if there is one. -/
theorem install_state (gone : Option Reply) (s : Connected) (b : PDALineBreakpoint) :
    (Call.install gone b s).2.fTarget = true ∧
      (Call.install gone b s).2.world =
        if b.isWatchpoint then s.world else (s.receives (.setBreak b.lineNumber)).world := by
  set u : Connected := { s with fTarget := true, listens := true } with hu
  have hrequest (q : Request) : (u.receives q).fTarget = true ∧
      (u.receives q).world = (s.receives q).world := by
    unfold Connected.receives
    cases s.world.status <;> exact ⟨rfl, rfl⟩
  have hsend (q : Request) : (Call.sendRequest gone q u).2.fTarget = true ∧
      (Call.sendRequest gone q u).2.world = (s.receives q).world := by
    rcases sendRequest_cases gone q u with ⟨-, hrun⟩ | ⟨-, hrun⟩ | ⟨reply, -, -, hrun⟩ <;>
    · rw [hrun]
      exact hrequest q
  have hinstall : Call.install gone b s = (match b.createRequest with
      | some q => Call.sendRequest gone q >>= fun _ => (return () : Call Unit)
      | none => return ()) u := rfl
  rw [hinstall]
  unfold PDALineBreakpoint.createRequest PDALineBreakpoint.isWatchpoint
  cases b.kind with
  | watchpoint functionName variableName => exact ⟨rfl, rfl⟩
  | line | runToLine =>
    simp only [return_state]
    exact hsend _

theorem editedList_eq_append (c : Command) (args : List Text) (list : List CInt) (n : CInt) :
    editedList c args list = list ++ [n] ↔ c = .setbreak ∧ lineArgument args = some n := by
  have hlonger : list ≠ list ++ [n] := by simp
  unfold editedList
  split
  · next i h => simp [h]
  · next i h =>
    have hne : list.erase i ≠ list ++ [n] := by
      intro h
      have hlen := congrArg List.length h
      have hle := List.length_erase_le (a := i) (l := list)
      rw [List.length_append, List.length_singleton] at hlen
      omega
    simp [hne]
  · next hset _ =>
    refine iff_of_false hlonger ?_
    rintro ⟨rfl, h⟩
    exact hset n rfl h

/-- The line is put into the list if and only if ldb reads a break command with it. -/
theorem appended_iff_arms (hs : s.world.status = .waiting L pending) (n : CInt) :
    (s.receives (.setBreak n)).world.state.allScriptsBreakpoints L.source =
      s.world.state.allScriptsBreakpoints L.source ++ [n] ↔ Arms s.world.state pending n := by
  have hlonger (list : List CInt) : list ≠ list ++ [n] := by simp
  rcases receives_cases hs (.setBreak n) with ⟨next, hi, hw⟩ | ⟨data, gaveUp, hi, hcases⟩
  · rw [hw]
    -- only a part of a request has come, and no list has changed
    refine iff_of_false (hlonger _) ?_
    rintro ⟨data, gaveUp, args, hi', -⟩
    rw [hi] at hi'
    cases hi'
  · have harms : Arms s.world.state pending n ↔ ¬ unterminated .ide s.world.state data ∧
        ∃ pCmd args, commandWords data = pCmd :: args ∧ dispatch pCmd = .setbreak ∧
          lineArgument args = some n := by
      constructor
      · rintro ⟨data', gaveUp', args, hi', hu, ⟨pCmd, hwords, hd⟩, hn⟩
        obtain ⟨rfl, rfl⟩ := Intake.command.inj (hi.symm.trans hi')
        exact ⟨hu, pCmd, args, hwords, hd, hn⟩
      · rintro ⟨hu, pCmd, args, hwords, hd, hn⟩
        exact ⟨data, gaveUp, args, hi, hu, ⟨pCmd, hwords, hd⟩, hn⟩
    rw [harms]
    rcases hcases with ⟨hn, why, -, hw⟩ | ⟨r, hr, hw⟩
    · -- ldb is gone, which a break command with a line does not bring about
      rw [hw]
      refine iff_of_false (hlonger _) ?_
      rintro ⟨hu, pCmd, args, hwords, hd, hline⟩
      have hargs : args ≠ [] := by
        rintro rfl
        cases hline
      exact hn (.inr ⟨hu, pCmd, args, hwords, by rw [hd]; exact hargs⟩)
    · obtain ⟨hstate, -, -⟩ := handle_effects .ide L s.world.state data r hr
      have hlist : (s.receives (.setBreak n)).world.state =
          (s.world.state.takeLine .ide data).perform L.source data := by
        rw [hw]
        exact hstate
      rw [hlist, Ldb.perform]
      have hok : handles .ide L s.world.state data :=
        (handle_isOk .ide L s.world.state data).mp ⟨r, hr⟩
      rcases hwords : commandWords data with _ | ⟨pCmd, args⟩
      -- a request of no word names no command
      · exact iff_of_false (hlonger _) (by simp)
      · have hu : ¬ unterminated .ide s.world.state data := by
          rcases hok with he | ⟨hu, -⟩
          · rw [commandWords, he] at hwords
            cases hwords
          · exact hu
        have hlists : (s.world.state.takeLine .ide data).allScriptsBreakpoints =
            s.world.state.allScriptsBreakpoints := rfl
        simp only [Ldb.execute, Function.update_self, hlists, editedList_eq_append]
        constructor
        · rintro ⟨hd, hn⟩
          exact ⟨hu, pCmd, args, rfl, hd, hn⟩
        · rintro ⟨-, pCmd', args', hwords', hd, hn⟩
          obtain ⟨rfl, rfl⟩ := List.cons.inj hwords'
          exact ⟨hd, hn⟩

/-- An exception comes too late to take back that the breakpoint is installed. -/
theorem notLost_install (hs : s.world.status = .waiting L pending) (b : PDALineBreakpoint) :
    (Update.install b).NotLost gone s ↔
      b.isWatchpoint = false ∧ Arms s.world.state pending b.lineNumber := by
  obtain ⟨htarget, hworld⟩ := install_state gone s b
  have hperformed : (Update.install b).Performed s (Call.install gone b s).2 ↔
      b.isWatchpoint = false ∧ Arms s.world.state pending b.lineNumber := by
    constructor
    · rintro ⟨L', pending', hs', hkind, hlist⟩
      obtain ⟨rfl, rfl⟩ := Status.waiting.inj (hs.symm.trans hs')
      rw [hworld, hkind] at hlist
      exact ⟨hkind, (appended_iff_arms hs b.lineNumber).mp hlist⟩
    · rintro ⟨hkind, ha⟩
      refine ⟨L, pending, hs, hkind, ?_⟩
      rw [hworld, hkind]
      exact (appended_iff_arms hs b.lineNumber).mpr ha
  rw [← hperformed]
  constructor
  · rintro (h | ⟨-, h⟩)
    · exact h
    · exact absurd (.inr (.inl htarget)) h
  · exact .inl

end NotLost

/-- With nothing half received, every line but the line 0 is armed. -/
theorem arms_whole (d : Ldb) (n : CInt) : Arms d none n ↔ n.val ≠ 0 := by
  have harrives : (Request.setBreak n).arrives d :=
    Request.arrives_number (n := n) rfl (by decide) (by decide) d
  have hne : cstr (Request.line (.setBreak n)) ≠ [] := List.ne_nil_of_mem harrives.1
  have hi : intake none (cstr (Request.line (.setBreak n))) =
      .command (cstr (Request.line (.setBreak n))) false := by
    rw [intake, if_neg hne, if_pos harrives.1]
  have hwords : commandWords (cstr (Request.line (.setBreak n))) = [txt "break", ofInt n.val] := by
    rw [commandWords_cstr, ← words_number (txt "break") n (plain_of_all (by decide)) (by decide)
      (by decide)]
    simp [Request.line, Request.text, txt]
  have hline : lineArgument [ofInt n.val] = some n ↔ n.val ≠ 0 := by
    rw [lineArgument_ofInt]
    simp
  rw [← hline]
  constructor
  · rintro ⟨data, gaveUp, args, hi', -, ⟨pCmd, hw, -⟩, hn⟩
    obtain ⟨rfl, rfl⟩ := Intake.command.inj (hi.symm.trans hi')
    obtain ⟨rfl, rfl⟩ := List.cons.inj (hwords.symm.trans hw)
    exact hn
  · intro hn
    exact ⟨_, _, _, hi, harrives.2, ⟨_, hwords, by decide⟩, hn⟩

/-- At every stop, for every update: it is performed, or it throws and nothing is claimed, if
and only if `Kept` holds. -/
theorem notLost_iff_kept (gone : Option Reply) (s : Connected) (L : LuaState)
    (pending : Option (Text × ℕ)) (hs : s.world.status = .waiting L pending) (u : Update) :
    u.NotLost gone s ↔ u.Kept gone s := by
  cases u with
  | setValue frame name expression =>
    exact notLost_request (by simp) rfl (fun t => ⟨rfl, rfl⟩) hs
  | push value => exact notLost_request (by simp) rfl (fun t => ⟨rfl, rfl⟩) hs
  | pop => exact notLost_pop hs
  | popFrame => exact notLost_request (by simp) rfl (fun t => ⟨rfl, rfl⟩) hs
  | install b =>
    rw [notLost_install hs, Update.Kept]
    constructor
    · rintro ⟨hw, ha⟩
      exact ⟨hw, L, pending, hs, ha⟩
    · rintro ⟨hw, L', pending', hs', ha⟩
      obtain ⟨rfl, rfl⟩ := Status.waiting.inj (hs.symm.trans hs')
      exact ⟨hw, ha⟩

/-- The program has stopped, with `x` as its local variable, and nothing is unread. -/
def stoppedAtX : Connected where
  world := { World.start .ide (fun _ => []) [] with
    status := .waiting ((LuaState.mainChunk (txt "a.lua") 1).withLocals
      [(txt "x", .boolean true)]) none }
  readLines := 0
  changeEvents := 0
  fTarget := false
  listens := false

/-- A breakpoint on line 5 is armed. -/
theorem kept_lineFive : (Update.install
    ⟨.line, ID_PDA_DEBUG_MODEL, some (txt "/p/a.lua"), true, saturate 5, false⟩).NotLost none
      stoppedAtX := by
  apply (notLost_iff_kept none stoppedAtX _ none rfl _).mpr
  exact ⟨rfl, _, none, rfl, (arms_whole _ _).mpr (by decide)⟩

/-- ldb knows no `setvar`: it says so, the operation returns, and a change event is fired. -/
theorem setValue_is_lost :
    ¬ (Update.setValue (saturate 0) (txt "x") (txt "false")).NotLost none stoppedAtX ∧
      (stoppedAtX.receives (.setvar (saturate 0) (txt "x") (txt "false"))).nextLine =
        some (txt "ERROR, command not found: setvar") ∧
      (Call.setValue none (saturate 0) (txt "x") (txt "false") stoppedAtX).1 = some (.ok ()) ∧
      (Call.setValue none (saturate 0) (txt "x") (txt "false") stoppedAtX).2.changeEvents = 1 := by
  set q : Request := .setvar (saturate 0) (txt "x") (txt "false") with hq
  have hline : (stoppedAtX.receives q).nextLine =
      some (txt "ERROR, command not found: setvar") := by
    decide +kernel
  have hreply : (stoppedAtX.receives q).reply none =
      some (.line (txt "ERROR, command not found: setvar")) := by
    rw [Connected.reply, hline]
  have hcall : Call.setValue none (saturate 0) (txt "x") (txt "false") stoppedAtX =
      (some (.ok ()), { stoppedAtX.receives q with readLines := 1, changeEvents := 1 }) := by
    rcases sendRequest_cases none q stoppedAtX with ⟨hr, -⟩ | ⟨hr, -⟩ | ⟨reply, -, -, hrun⟩
    · simp [hreply] at hr
    · simp [hreply] at hr
    · rw [Call.setValue, bind_run, ← hq, hrun]
      simp only [Call.fireChangeEvent, receives_changeEvents]
      rfl
  refine ⟨?_, hline, by rw [hcall], by rw [hcall]⟩
  have hsame := sameProgram_receives (sameProgram_self (s := stoppedAtX) rfl) q
  apply lost_of_no_exception (by simp) rfl
  · rw [Update.call, hcall]
    exact hsame
  · rw [Update.call, hcall]
    simp

end LuaIde
