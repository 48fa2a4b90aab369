import LuaIde.Inspection
import LuaIde.LdbHook
import LuaIde.Runs
import LuaIde.SourceLoading

/-! ldb on the console: the parser reads its commands from the standard input, which may end or
come in lines that are too long. When a call of the parser comes to its end. -/
namespace LuaIde

open LineText DecimalText CheckedFold InputStream Runs

/-- ldb with the standard input. `raised` says that a Lua error has taken control out of the last
call of the parser. -/
structure Console where
  world : World
  cin : Stream Char
  raised : Bool

namespace Console

/-- One pass of the loop of `commandParser` in ldb mode. -/
def pass (L : LuaState) (c : Console) : Console :=
  let read := c.cin.getline '\n' 160
  { world := react .ldb L c.world read.1 false
    cin := read.2
    raised :=
      match handle .ldb L c.world.state read.1 with
      | .error .luaError => true
      | _ => false }

/-- The pass that comes next, while the parser keeps going. -/
def next (c : Console) : Option Console :=
  match c.world.status with
  | .waiting L _ => some (c.pass L)
  | _ => none

/-- The call comes back to the Lua program behind these passes. -/
def returned (c : Console) : Prop :=
  match c.world.status with
  | .running => c.raised = false
  | _ => False

/-- Every pass of the loop consumes input, and the call returns. -/
structure EndsWithInput (c : Console) : Prop where
  consumes : ∀ n u v, steps next n c = some u → u.next = some v →
    v.cin.rest.length < u.cin.rest.length
  returns : ∃ n u, steps next n c = some u ∧ u.returned

/-- The console at a stop, in the loop of the parser. -/
def stopped (c : Console) (L : LuaState) (breakPoint : Option CInt) : Console :=
  { c with world := c.world.stopped .ldb L breakPoint, raised := false }

/-- The passes of a call, and what control comes back with. -/
def call : ℕ → Console → Option Console
  | 0, _ => none
  | fuel+1, c =>
    match c.world.status with
    | .waiting L _ => call fuel (c.pass L)
    | .running => some c
    | .over _ => none

/-- The program comes to a hook event. A call of the parser that does not come back within one
pass for every character that is left never does. -/
def hook (c : Console) (e : HookEvent) : Option Console :=
  match c.world.status with
  | .running =>
    match stopReason c.world.state e with
    | none => some c
    | some (L, breakPoint) =>
      if lineFound c.world.state L then
        call (c.cin.rest.length + 2) (c.stopped L breakPoint)
      else none
  | _ => none

/-- ldb on the console when the script starts. -/
def start (input : Text) (lines : ScriptLines) : Console :=
  ⟨World.start .ldb lines [], ⟨input, false⟩, false⟩

end Console

/-- A command that gives control back. -/
def resumes (data : Text) : Prop := ((commandOf data).bind selectedMode).isSome = true

instance (data : Text) : Decidable (resumes data) := inferInstanceAs (Decidable (_ = true))

/-- No read has failed yet, and among the lines that are left there is one that gives control
back; it and those in front of it are handled without a fault, and those in front of it fit into
the array. -/
def inputLasts (L : LuaState) (c : Console) : Prop :=
  c.cin.failed = false ∧
    ∃ (k : ℕ) (line : Text), (linesOf '\n' c.cin.rest)[k]? = some line ∧
      (resumes (line.take 159) ∧ handles .ldb L c.world.state (line.take 159)) ∧
        ∀ j < k, ∀ l, (linesOf '\n' c.cin.rest)[j]? = some l →
          l.length < 160 ∧ handles .ldb L c.world.state l

/-- On the console it is the lines kept of the script alone that a command may fail over. -/
theorem handles_console {L : LuaState} {d d' : Ldb} (h : d.allScriptsLines = d'.allScriptsLines)
    (data : Text) : handles .ldb L d data ↔ handles .ldb L d' data := by
  have hcompletes (c : Command) (args : List Text) :
      completes L d c args ↔ completes L d' c args := by
    cases c <;> simp only [completes, h]
  have hended (d : Ldb) : ¬ unterminated .ldb d data := fun hu => nomatch hu.1
  simp only [handles, hended, hcompletes]

namespace Console

section Pass

variable {L : LuaState} {c : Console}

@[simp] theorem pass_cin : (c.pass L).cin = (c.cin.getline '\n' 160).2 := rfl

theorem pass_lines :
    (c.pass L).world.state.allScriptsLines = c.world.state.allScriptsLines := by
  rcases react_cases .ldb L c.world (c.cin.getline '\n' 160).1 false with
    ⟨why, -, he⟩ | ⟨r, hr, he⟩
  · rw [pass, he]
  · rw [pass, he]
    exact handle_lines .ldb L _ _ r hr

/-- A line is performed, and gives control back if its command does so. -/
theorem pass_of_handles (h : handles .ldb L c.world.state (c.cin.getline '\n' 160).1) :
    (resumes (c.cin.getline '\n' 160).1 → (c.pass L).returned) ∧
      (¬ resumes (c.cin.getline '\n' 160).1 → (c.pass L).world.status = .waiting L none) := by
  obtain ⟨r, hr⟩ := (handle_isOk .ldb L c.world.state _).mpr h
  have hleave := (handle_effects .ldb L c.world.state _ r hr).2.2
  have hstatus : (c.pass L).world.status =
      if ((commandOf (c.cin.getline '\n' 160).1).bind selectedMode).isSome = true then .running
      else .waiting L none := by
    simp only [pass, react, hr, hleave, Bool.false_eq_true, or_false]
  have hraised : (c.pass L).raised = false := by
    simp only [pass, hr]
  constructor
  · intro hresumes
    rw [returned, hstatus.trans (if_pos hresumes)]
    exact hraised
  · exact fun hresumes => hstatus.trans (if_neg hresumes)

/-- A line that comes to a fault: ldb is over, or a Lua error has been raised. -/
theorem pass_of_fault (h : ¬ handles .ldb L c.world.state (c.cin.getline '\n' 160).1) :
    (∀ L' pending, (c.pass L).world.status ≠ .waiting L' pending) ∧ ¬ (c.pass L).returned := by
  cases hr : handle .ldb L c.world.state (c.cin.getline '\n' 160).1 with
  | error why =>
    have hstatus : (c.pass L).world.status = .afterFault why := by
      simp only [pass, react, hr]
    rw [returned, hstatus]
    cases why with
    | luaError =>
      have hraised : (c.pass L).raised = true := by
        simp only [pass, hr]
      refine ⟨fun _ _ hw => (nomatch hw), ?_⟩
      rw [Status.afterFault, hraised]
      exact Bool.noConfusion
    | _ => exact ⟨fun _ _ hw => (nomatch hw), not_false⟩
  | ok r => exact absurd ((handle_isOk .ldb L _ _).mp ⟨r, hr⟩) h

theorem next_of_waiting {pending : Option (Text × ℕ)} (h : c.world.status = .waiting L pending) :
    c.next = some (c.pass L) := by
  rw [next, h]

theorem next_eq_none (h : ∀ L pending, c.world.status ≠ .waiting L pending) : c.next = none := by
  rw [next]
  split
  · next L pending hw => exact absurd hw (h L pending)
  · rfl

theorem next_of_returned (h : c.returned) : c.next = none := by
  apply next_eq_none
  intro L pending hw
  rw [returned, hw] at h
  exact h

/-- A call whose first pass consumes ends as the rest of it does. -/
theorem endsWithInput_step {pending : Option (Text × ℕ)}
    (h : c.world.status = .waiting L pending)
    (hshort : (c.pass L).cin.rest.length < c.cin.rest.length) :
    c.EndsWithInput ↔ (c.pass L).EndsWithInput := by
  have hnext := next_of_waiting h
  have hsteps (n : ℕ) : steps next (n+1) c = steps next n (c.pass L) := by
    rw [steps, hnext, Option.bind_some]
  constructor
  · rintro ⟨hconsumes, n, u, hu, hreturned⟩
    refine ⟨fun n u v hu hv => hconsumes (n+1) u v (by rw [hsteps, hu]) hv, ?_⟩
    cases n with
    | zero =>
      obtain rfl := Option.some.inj hu
      rw [returned, h] at hreturned
      exact hreturned.elim
    | succ n => exact ⟨n, u, by rw [← hsteps, hu], hreturned⟩
  · rintro ⟨hconsumes, n, u, hu, hreturned⟩
    refine ⟨fun n u v hu hv => ?_, n+1, u, by rw [hsteps, hu], hreturned⟩
    cases n with
    | zero =>
      obtain rfl := Option.some.inj hu
      obtain rfl := Option.some.inj (hnext.symm.trans hv)
      exact hshort
    | succ n => exact hconsumes n u v (by rw [← hsteps, hu]) hv

theorem endsWithInput_of_returned (h : c.returned) : c.EndsWithInput := by
  have hnone := next_of_returned h
  refine ⟨fun n u v hu hv => ?_, 0, c, rfl, h⟩
  cases n with
  | zero =>
    obtain rfl := Option.some.inj hu
    rw [hnone] at hv
    cases hv
  | succ n =>
    rw [steps, hnone] at hu
    cases hu

/-- The loop has been left, but not by a return. -/
theorem not_endsWithInput_of_left (hnone : c.next = none) (h : ¬ c.returned) :
    ¬ c.EndsWithInput := by
  rintro ⟨-, n, u, hu, hreturned⟩
  cases n with
  | zero =>
    obtain rfl := Option.some.inj hu
    exact h hreturned
  | succ n =>
    rw [steps, hnone] at hu
    cases hu

/-- A pass that consumes nothing. -/
theorem not_endsWithInput_of_stuck {pending : Option (Text × ℕ)}
    (h : c.world.status = .waiting L pending)
    (hstuck : ¬ (c.pass L).cin.rest.length < c.cin.rest.length) : ¬ c.EndsWithInput := by
  intro hends
  exact hstuck (hends.consumes 0 c _ rfl (next_of_waiting h))

/-- What is read of a line: its first 159 characters. -/
theorem read_eq (hfailed : c.cin.failed = false) (hne : c.cin.rest ≠ []) :
    (c.cin.getline '\n' 160).1 =
      (c.cin.rest.takeWhile (fun x => decide (x ≠ '\n'))).take 159 := by
  set line := c.cin.rest.takeWhile (fun x => decide (x ≠ '\n')) with hline
  by_cases hroom : line.length < 160
  · rw [Stream.getline_of_room hfailed hne hroom, ← hline,
      List.take_of_length_le (by omega)]
  · have hpre : line <+: c.cin.rest := List.takeWhile_prefix _
    obtain ⟨rest, hrest⟩ := hpre
    rw [Stream.getline_of_long hfailed hne hroom, ← hrest,
      List.take_append_of_le_length (by omega)]

end Pass

/-- A first element with a property, behind elements with another one. -/
theorem exists_first_cons {α : Type*} {A B : α → Prop} {a : α} {l : List α} :
    (∃ (k : ℕ) (x : α), (a :: l)[k]? = some x ∧ A x ∧
        ∀ j < k, ∀ y, (a :: l)[j]? = some y → B y) ↔
      A a ∨ (B a ∧ ∃ (k : ℕ) (x : α), l[k]? = some x ∧ A x ∧
        ∀ j < k, ∀ y, l[j]? = some y → B y) := by
  constructor
  · rintro ⟨k, x, hx, hA, hB⟩
    cases k with
    | zero =>
      obtain rfl := Option.some.inj hx
      exact .inl hA
    | succ k =>
      exact .inr ⟨hB 0 (Nat.succ_pos k) a rfl, k, x, hx, hA,
        fun j hj y hy => hB (j+1) (Nat.succ_lt_succ hj) y hy⟩
  · rintro (hA | ⟨ha, k, x, hx, hA, hB⟩)
    · exact ⟨0, a, rfl, hA, fun j hj => absurd hj (Nat.not_lt_zero j)⟩
    · refine ⟨k+1, x, hx, hA, fun j hj y hy => ?_⟩
      cases j with
      | zero =>
        obtain rfl := Option.some.inj hy
        exact ha
      | succ j => exact hB j (Nat.lt_of_succ_lt_succ hj) y hy

/-- Beside the input, the lines kept of the scripts matter. -/
theorem inputLasts_congr {L : LuaState} {c c' : Console} (hcin : c.cin = c'.cin)
    (hlines : c.world.state.allScriptsLines = c'.world.state.allScriptsLines) :
    inputLasts L c ↔ inputLasts L c' := by
  simp only [inputLasts, hcin, handles_console hlines]

/-- The first line that is left gives control back, or leaves it to the others. -/
theorem inputLasts_cons {L : LuaState} {c : Console} {line : Text}
    (hfailed : c.cin.failed = false) (hne : c.cin.rest ≠ [])
    (hline : c.cin.rest.takeWhile (fun x => decide (x ≠ '\n')) = line) :
    inputLasts L c ↔
      (resumes (line.take 159) ∧ handles .ldb L c.world.state (line.take 159)) ∨
      ((line.length < 160 ∧ handles .ldb L c.world.state line) ∧
        inputLasts L { c with cin := ⟨c.cin.rest.drop (line.length + 1), false⟩ }) := by
  have hlines := linesOf_eq_cons '\n' hne
  rw [hline] at hlines
  rw [inputLasts, hlines, exists_first_cons, and_iff_right hfailed, inputLasts, and_iff_right rfl]

/-- A call ends with its input exactly if the input lasts until control is given back. -/
theorem endsWithInput_iff {L : LuaState} {c : Console} {pending : Option (Text × ℕ)}
    (h : c.world.status = .waiting L pending) : c.EndsWithInput ↔ inputLasts L c := by
  -- the input gets shorter from pass to pass, as long as no read has failed
  induction hn : c.cin.rest.length using Nat.strong_induction_on generalizing c pending with
  | _ n ih =>
    cases hfailed : c.cin.failed with
    | true =>
      refine iff_of_false (not_endsWithInput_of_stuck h ?_) ?_
      · rw [pass_cin, Stream.getline_of_failed hfailed]
        exact lt_irrefl _
      · rintro ⟨hgood, -⟩
        rw [hfailed] at hgood
        cases hgood
    | false =>
      by_cases hne : c.cin.rest = []
      · -- this read fails at the end of the input, and all others behind it
        refine iff_of_false (not_endsWithInput_of_stuck h ?_) ?_
        · rw [pass_cin, Stream.getline_at_end hfailed hne, hne]
          exact lt_irrefl _
        · rintro ⟨-, k, line, hline, -⟩
          rw [hne] at hline
          cases hline
      · have hshort : (c.pass L).cin.rest.length < c.cin.rest.length := by
          rw [pass_cin]
          exact Stream.getline_shortens hfailed hne (by decide)
        have hread := read_eq hfailed hne
        rw [endsWithInput_step h hshort, inputLasts_cons hfailed hne rfl, ← hread]
        set line := c.cin.rest.takeWhile (fun x => decide (x ≠ '\n')) with hline
        have hfit (hroom : line.length < 160) : (c.cin.getline '\n' 160).1 = line := by
          rw [hread, List.take_of_length_le (by omega)]
        by_cases hhandles : handles .ldb L c.world.state (c.cin.getline '\n' 160).1
        · obtain ⟨hback, hon⟩ := pass_of_handles hhandles
          by_cases hresumes : resumes (c.cin.getline '\n' 160).1
          · exact iff_of_true (endsWithInput_of_returned (hback hresumes))
              (.inl ⟨hresumes, hhandles⟩)
          · -- control stays: the other lines decide, unless this one has made the stream fail
            have hrest : inputLasts L (c.pass L) ↔
                inputLasts L { c with cin := (c.cin.getline '\n' 160).2 } :=
              inputLasts_congr rfl pass_lines
            rw [ih _ (hn ▸ hshort) (hon hresumes) rfl, hrest,
              or_iff_right fun hA => hresumes hA.1]
            by_cases hroom : line.length < 160
            · have hread' := Stream.getline_of_room hfailed hne hroom
              have hhere : handles .ldb L c.world.state line := hfit hroom ▸ hhandles
              rw [hread', ← hline]
              exact (and_iff_right ⟨hroom, hhere⟩).symm
            · rw [Stream.getline_of_long hfailed hne hroom]
              exact iff_of_false (fun hgood => Bool.noConfusion hgood.1) (fun hB => hroom hB.1.1)
        · obtain ⟨hleft, hnot⟩ := pass_of_fault hhandles
          refine iff_of_false (not_endsWithInput_of_left (next_eq_none hleft) hnot) ?_
          rintro (hA | ⟨⟨hroom, hhere⟩, -⟩)
          · exact hhandles hA.2
          · exact hhandles (hfit hroom ▸ hhere)

/-- A read that brings nothing is taken for an empty line. -/
theorem pass_status_of_empty {L : LuaState} {c : Console}
    (h : (c.cin.getline '\n' 160).1 = []) : (c.pass L).world.status = .waiting L none := by
  have hhandles : handles .ldb L c.world.state (c.cin.getline '\n' 160).1 := by
    rw [h]
    exact .inl rfl
  have hresumes : ¬ resumes (c.cin.getline '\n' 160).1 := by
    rw [h]
    decide
  exact (pass_of_handles hhandles).2 hresumes

/-- From a stream that has failed, control is never given back. -/
theorem not_returned_of_failed {L : LuaState} {c u : Console} {pending : Option (Text × ℕ)}
    (h : c.world.status = .waiting L pending) (hfailed : c.cin.failed = true) {n : ℕ}
    (hu : steps next n c = some u) : ¬ u.returned := by
  induction n generalizing c pending with
  | zero =>
    obtain rfl := Option.some.inj hu
    rw [returned, h]
    exact not_false
  | succ n ih =>
    rw [steps, next_of_waiting h, Option.bind_some] at hu
    have hread : c.cin.getline '\n' 160 = ([], c.cin) := Stream.getline_of_failed hfailed
    refine ih (pass_status_of_empty (by rw [hread])) ?_ hu
    rw [pass_cin, hread]
    exact hfailed

/-- A call that returns at all does so within one pass for every character and one more. -/
theorem call_eq_some {c u : Console} {n fuel : ℕ} (hu : steps next n c = some u)
    (hreturned : u.returned) (hfuel : c.cin.rest.length + 1 < fuel) : call fuel c = some u := by
  induction n generalizing c fuel with
  | zero =>
    obtain rfl := Option.some.inj hu
    obtain ⟨fuel, rfl⟩ : ∃ f, fuel = f+1 := ⟨fuel-1, by omega⟩
    rw [call]
    rw [returned] at hreturned
    split at hreturned
    · next hs => rw [hs]
    · exact hreturned.elim
  | succ n ih =>
    obtain ⟨fuel, rfl⟩ : ∃ f, fuel = f+1 := ⟨fuel-1, by omega⟩
    cases hs : c.world.status with
    | waiting L pending =>
      have hrest := hu
      rw [steps, next_of_waiting hs, Option.bind_some] at hrest
      have hgood : c.cin.failed = false := by
        by_contra hbad
        exact not_returned_of_failed hs (by simpa using hbad) hu hreturned
      have hne : c.cin.rest ≠ [] := by
        intro hend
        have hread : c.cin.getline '\n' 160 = ([], ⟨[], true⟩) :=
          Stream.getline_at_end hgood hend
        refine not_returned_of_failed (pass_status_of_empty (by rw [hread])) ?_ hrest hreturned
        rw [pass_cin, hread]
      have hshort : (c.pass L).cin.rest.length < c.cin.rest.length := by
        rw [pass_cin]
        exact Stream.getline_shortens hgood hne (by decide)
      simp only [call, hs]
      exact ih hrest (by omega)
    | _ =>
      have hnone : c.next = none := by rw [next, hs]
      rw [steps, hnone] at hu
      cases hu

/-- A call that ends with its input is one the hook comes back from. -/
theorem hook_of_endsWithInput {c : Console} {e : HookEvent} {L : LuaState}
    {breakPoint : Option CInt} (hrun : c.world.status = .running)
    (hstop : stopReason c.world.state e = some (L, breakPoint))
    (hfound : lineFound c.world.state L) (h : (c.stopped L breakPoint).EndsWithInput) :
    ∃ u, c.hook e = some u ∧ u.returned := by
  obtain ⟨n, u, hu, hreturned⟩ := h.returns
  refine ⟨u, ?_, hreturned⟩
  simp only [hook, hrun, hstop, if_pos hfound]
  exact call_eq_some hu hreturned (Nat.lt_succ_self _)

theorem call_running {fuel : ℕ} {c u : Console} (h : call fuel c = some u) :
    u.world.status = .running := by
  induction fuel generalizing c with
  | zero => cases h
  | succ fuel ih =>
    rw [call] at h
    split at h
    · exact ih h
    · next hs =>
      obtain rfl := Option.some.inj h
      exact hs
    · cases h

/-- Behind the hook the Lua program runs. -/
theorem hook_running {c u : Console} {e : HookEvent} (h : c.hook e = some u) :
    u.world.status = .running := by
  rw [hook] at h
  split at h
  · next hs =>
    split at h
    · obtain rfl := Option.some.inj h
      exact hs
    · split_ifs at h
      exact call_running h
  · cases h

/-- At a hook event: if it calls the parser, the call ends with its input, and the hook comes
back. -/
def callEnds (c : Console) (e : HookEvent) : Prop :=
  ∀ L breakPoint, stopReason c.world.state e = some (L, breakPoint) →
    lineFound c.world.state L →
      (c.stopped L breakPoint).EndsWithInput ∧ ∃ u, c.hook e = some u ∧ u.returned

/-- At a hook event: if it calls the parser, the input lasts. -/
def lastsAt (c : Console) (e : HookEvent) : Prop :=
  ∀ L breakPoint, stopReason c.world.state e = some (L, breakPoint) →
    lineFound c.world.state L → inputLasts L c

/-- Over all runs, for every standard input: each call of the parser consumes input in every
pass and returns, exactly if the input lasts at each of them. -/
theorem calls_end_iff (input : Text) (lines : ScriptLines) (hooks : List HookEvent) :
    Along hook callEnds (start input lines) hooks ↔
      Along hook lastsAt (start input lines) hooks := by
  refine along_congr (I := fun c => c.world.status = .running)
    (fun _ _ _ _ h => hook_running h) ?_ rfl hooks
  intro c e hrun
  apply forall₂_congr
  intro L breakPoint
  apply forall₂_congr
  intro hstop hfound
  have hlasts : (c.stopped L breakPoint).EndsWithInput ↔ inputLasts L c :=
    (endsWithInput_iff rfl).trans (inputLasts_congr rfl rfl)
  rw [← hlasts]
  exact and_iff_left_of_imp (hook_of_endsWithInput hrun hstop hfound)

/-- The input ends behind a command that does not give control back. -/
theorem endOfInput_runs_on :
    ¬ Along hook callEnds (start (txt "help\n") (fun _ => []))
      [.line (.mainChunk (txt "a.lua") 1)] := by
  rintro ⟨hends, -⟩
  have hlasts := (hends (.mainChunk (txt "a.lua") 1) none rfl (.inl rfl)).1
  obtain ⟨-, k, line, hline, ⟨hresumes, -⟩, -⟩ := (endsWithInput_iff rfl).mp hlasts
  have hlines : linesOf '\n' (txt "help\n") = [txt "help"] := by decide
  change (linesOf '\n' (txt "help\n"))[k]? = some line at hline
  rw [hlines] at hline
  cases k with
  | zero =>
    obtain rfl := Option.some.inj hline
    exact absurd hresumes (by decide)
  | succ k => cases hline

end Console

end LuaIde
