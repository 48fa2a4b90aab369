import LuaIde.CommandEffects
import LuaIde.Runs

/-! The command socket byte by byte: what the IDE has sent arrives while the program runs
or waits, and ldb takes it only inside of the parser. -/
namespace LuaIde

open LineText DecimalText Delimited Runs

/-- ldb and its command socket. `delivered` is everything that has arrived, of which ldb
has taken the first `taken` bytes. -/
structure SocketLink where
  world : World
  delivered : Text
  taken : ℕ
  closed : Bool

/-- Bytes arrive, the peer closes the socket, ldb calls `recv` and gets up to `n` bytes or the
end of the connection, the program comes to a hook event. -/
inductive SocketAction where
  | deliver (bytes : Text)
  | close
  | recv (n : ℕ)
  | hook (e : HookEvent)

def MAXRECV : ℕ := 500

def Status.isRunning : Status → Bool
  | .running => true
  | _ => false

theorem Status.isRunning_eq {st : Status} : st.isRunning = true ↔ st = .running := by
  cases st <;> simp [isRunning]

namespace SocketLink

def start (lines : ScriptLines) : SocketLink := ⟨World.start .ide lines [], [], 0, false⟩

def unread (s : SocketLink) : Text := s.delivered.drop s.taken

def step (s : SocketLink) : SocketAction → Option SocketLink
  | .deliver bytes =>
    if s.closed then none else some { s with delivered := s.delivered ++ bytes }
  | .close => some { s with closed := true }
  | .recv n =>
    match s.world.status with
    | .waiting L pending =>
      let piece := s.unread.take (min n MAXRECV)
      if piece ≠ [] then
        some { s with
          world := receive .ide L pending (.data piece) s.world
          taken := s.taken + piece.length }
      else if s.unread = [] ∧ s.closed = true then
        some { s with world := receive .ide L pending .closed s.world }
      else none
    | _ => none
  | .hook e =>
    match s.world.status with
    | .running => some { s with world := hookRoutine .ide e s.world }
    | _ => none

/-- A suspend command has arrived with its newline, which ldb has not taken yet. -/
def SuspendPending (s : SocketLink) : Prop :=
  ∃ front line rest, s.delivered = front ++ (line ++ '\n' :: rest) ∧
    (front = [] ∨ front.getLast? = some '\n') ∧ '\n' ∉ line ∧
      commandOf (line ++ ['\n']) = some .suspend ∧ s.taken ≤ front.length + line.length

/-- The program runs until a breakpoint. -/
def Continuing (s : SocketLink) : Prop :=
  s.world.status = .running ∧ s.world.state.debuggerStates = CONTINUING

/-- The hook calls the parser. -/
def Enters (s : SocketLink) (e : HookEvent) : Prop :=
  ∃ bp, (hookRoutine .ide e s.world).history = s.world.history ++ [.entered bp]

/-- A line event with a suspend command pending makes the program stop. -/
def honoursSuspend (s : SocketLink) : SocketAction → Prop
  | .hook (.line L) => s.Continuing → s.SuspendPending → s.Enters (.line L)
  | _ => True

/-- A line event with a suspend command pending is one at an armed line, and the lookup of the
line does not leave the list kept for the script. -/
def suspendsAtArmed (s : SocketLink) : SocketAction → Prop
  | .hook (.line L) => s.Continuing → s.SuspendPending →
      L.currentline ∈ s.world.state.getBreakPointList L.source ∧ lineFound s.world.state L
  | _ => True

theorem inputs_step (s : SocketLink) (a : SocketAction) (t : SocketLink)
    (hs : s.world.inputs = []) (ht : s.step a = some t) : t.world.inputs = [] := by
  cases a with
  | deliver bytes =>
    simp only [step] at ht
    split_ifs at ht
    obtain rfl := Option.some.inj ht
    exact hs
  | close =>
    obtain rfl := Option.some.inj ht
    exact hs
  | recv n =>
    simp only [step] at ht
    split at ht
    · next L pending hw =>
      split_ifs at ht
      · obtain rfl := Option.some.inj ht
        exact (receive_inputs L pending _ s.world).trans hs
      · obtain rfl := Option.some.inj ht
        exact hs
    · cases ht
  | hook e =>
    simp only [step] at ht
    split at ht
    · obtain rfl := Option.some.inj ht
      -- without inputs the hook reads nothing, and a stop leaves none
      simp only [hookRoutine_noInput e s.world hs]
      rcases stopReason s.world.state e with _ | ⟨L, bp⟩
      · exact hs
      · dsimp only
        split_ifs
        · rfl
        · exact hs
    · cases ht

/-- What the hook looks at are the breakpoints, and never the socket. -/
theorem enters_iff {s : SocketLink} (hin : s.world.inputs = []) (hs : s.Continuing)
    (L : LuaState) :
    s.Enters (.line L) ↔
      L.currentline ∈ s.world.state.getBreakPointList L.source ∧ lineFound s.world.state L := by
  have hreason : stopReason s.world.state (.line L) =
      if L.currentline ∈ s.world.state.getBreakPointList L.source then
        some (L, some L.currentline) else none := by
    simp only [stopReason, hs.2, if_true]
  rw [Enters, hookRoutine_noInput _ _ hin, hreason]
  by_cases hm : L.currentline ∈ s.world.state.getBreakPointList L.source
  · by_cases hf : lineFound s.world.state L
    · simp only [hm, hf, if_true, and_self, iff_true]
      exact ⟨_, rfl⟩
    · simp [hm, hf]
  · simp only [hm, if_false, false_and, iff_false]
    rintro ⟨bp, h⟩
    simp at h

/-- In every run: no line event passes with a suspend command pending if and only if every
such line event is at an armed line that the lookup finds. -/
theorem suspend_honoured_iff (lines : ScriptLines) (as : List SocketAction) :
    Along step honoursSuspend (start lines) as ↔ Along step suspendsAtArmed (start lines) as := by
  apply along_congr (I := fun s => s.world.inputs = []) inputs_step ?_ rfl
  intro s a hin
  cases a with
  | hook e =>
    cases e with
    | line L =>
      exact forall_congr' fun hs => forall_congr' fun _ => enters_iff hin hs L
    | other => rfl
  | _ => rfl

/-- The program is resumed at its first stop, and the IDE asks it to suspend. -/
def resumedThenSuspended : List SocketAction :=
  [.hook (.line (.mainChunk (txt "a.lua") 1)), .deliver (txt "resume\n"), .recv MAXRECV,
    .deliver (txt "suspend\n")]

/-- The next line is no breakpoint, and the program passes it. -/
theorem suspend_is_ignored :
    ¬ Along step honoursSuspend (start fun _ => [])
      (resumedThenSuspended ++ [.hook (.line (.mainChunk (txt "a.lua") 2))]) := by
  have hobs : (run step (start fun _ => []) resumedThenSuspended).map (fun s =>
      (s.world.status.isRunning, s.world.state.debuggerStates, s.delivered, s.taken)) =
        some (true, CONTINUING, txt "resume\nsuspend\n", 7) := by
    decide +kernel
  have hhook : (run step (start fun _ => []) resumedThenSuspended).map (fun s =>
      ((hookRoutine .ide (.line (.mainChunk (txt "a.lua") 2)) s.world).history.length,
        s.world.history.length)) = some (2, 2) := by
    decide +kernel
  rw [along_append]
  rintro ⟨-, h⟩
  obtain ⟨s, hrun, hs⟩ := Option.map_eq_some_iff.mp hobs
  simp only [Prod.mk.injEq] at hs
  obtain ⟨hst, hmode, hd, ht⟩ := hs
  have hp : s.SuspendPending := by
    refine ⟨txt "resume\n", txt "suspend", [], ?_, .inr rfl, by decide, by decide +kernel, ?_⟩
    · rw [hd]
      rfl
    · rw [ht]
      decide
  obtain ⟨bp, henter⟩ := (h s hrun).1 ⟨Status.isRunning_eq.mp hst, hmode⟩ hp
  rw [hrun, Option.map_some, Option.some.injEq, Prod.mk.injEq] at hhook
  rw [henter, List.length_append] at hhook
  simp only [List.length_singleton] at hhook
  omega

end SocketLink

end LuaIde
