import LuaIde.LdbParser

/-! Which words name a command. A command can be shortened down to its abbreviation; the
dispatch looks at the abbreviation only. -/
namespace LuaIde

open LineText

/-- A command with its full name and the letters that are needed. -/
structure Verb where
  fullName : Text
  abbreviation : Text
  command : Command
deriving DecidableEq

/-- The commands, in the order of the dispatch. -/
def verbs : List Verb :=
  [⟨txt "getglobals", txt "getglobals", .getGlobals⟩, ⟨txt "data", txt "data", .dataForIde⟩,
   ⟨txt "var", txt "var", .varForIde⟩, ⟨txt "stackforide", txt "sta", .stackForIde⟩,
   ⟨txt "suspend", txt "su", .suspend⟩, ⟨txt "list", txt "l", .list⟩,
   ⟨txt "break", txt "b", .setbreak⟩, ⟨txt "clear", txt "cl", .clrbreak⟩,
   ⟨txt "display", txt "d", .display⟩, ⟨txt "assign", txt "a", .assign⟩,
   ⟨txt "step", txt "ste", .step⟩, ⟨txt "continue", txt "co", .resume⟩,
   ⟨txt "resume", txt "resume", .resume⟩, ⟨txt "print", txt "p", .print⟩,
   ⟨txt "quit", txt "q", .quit⟩, ⟨txt "help", txt "help", .help⟩]

namespace Verb

/-- The test of the dispatch and the branch behind it. -/
def test (v : Verb) : Text × Command := (v.abbreviation, v.command)

/-- The word is the name of the command or a shortening of it that has the needed letters. -/
def named (v : Verb) (w : Text) : Prop := v.abbreviation <+: w ∧ w <+: v.fullName

/-- The first test of the dispatch that succeeds on the word is that of the command. -/
def dispatched (v : Verb) (w : Text) : Prop :=
  dispatchTable.find? (fun e => e.1.isPrefixOf w) = some v.test

instance (v : Verb) (w : Text) : Decidable (v.named w) := inferInstanceAs (Decidable (_ ∧ _))

instance (v : Verb) (w : Text) : Decidable (v.dispatched w) :=
  inferInstanceAs (Decidable (_ = _))

end Verb

/-- The word is not found: whatever follows it, that is the answer, and nothing changes. -/
def rejected (w : Text) : Prop :=
  dispatch w = .notFound ∧ ∀ dbg L d args, execute dbg L d w args =
    .ok (.refusal dbg d (txt "ERROR, command not found: " ++ w))

/-- A command is dispatched at its name and its shortenings only, there is at most one such
command, and a word that names none is rejected. -/
def recognisedExactly (w : Text) : Prop :=
  (∀ v ∈ verbs, v.dispatched w ↔ v.named w) ∧
    (∀ u ∈ verbs, ∀ v ∈ verbs, u.named w → v.named w → u = v) ∧
      ((∀ v ∈ verbs, ¬ v.named w) → rejected w)

theorem dispatchTable_eq : dispatchTable = verbs.map Verb.test := rfl

/-- No two commands share a test, and no two can be shortened to the same word. -/
theorem verbs_distinct : ∀ u ∈ verbs, ∀ v ∈ verbs,
    u.test = v.test ∨ (u.abbreviation <+: v.fullName ∧ v.abbreviation <+: u.fullName) → u = v := by
  decide +kernel

/-- A full name passes no earlier test than its own. -/
theorem dispatched_fullName : ∀ v ∈ verbs, v.dispatched v.fullName := by decide +kernel

theorem named_unique {u v : Verb} {w : Text} (hu : u ∈ verbs) (hv : v ∈ verbs)
    (huw : u.named w) (hvw : v.named w) : u = v :=
  verbs_distinct u hu v hv (.inr ⟨huw.1.trans hvw.2, hvw.1.trans huw.2⟩)

/-- The first success stays the first when fewer tests succeed. -/
theorem find?_of_imp {α : Type*} {p q : α → Bool} {l : List α} {a : α}
    (h : l.find? p = some a) (ha : q a = true) (hqp : ∀ x, q x = true → p x = true) :
    l.find? q = some a := by
  obtain ⟨-, before, after, rfl, hbefore⟩ := List.find?_eq_some_iff_append.mp h
  refine List.find?_eq_some_iff_append.mpr ⟨ha, before, after, rfl, ?_⟩
  intro x hx
  cases hq : q x with
  | false => rfl
  | true =>
    have hp := hbefore x hx
    rw [hqp x hq] at hp
    cases hp

theorem Verb.dispatched.starts {v : Verb} {w : Text} (h : v.dispatched w) :
    v.abbreviation <+: w := by
  have htest : v.test.1.isPrefixOf w = true :=
    List.find?_some (p := fun e : Text × Command => e.1.isPrefixOf w) h
  exact List.isPrefixOf_iff_prefix.mp htest

/-- The name and its shortenings are dispatched to the command. -/
theorem dispatched_of_named {v : Verb} {w : Text} (hv : v ∈ verbs) (hw : v.named w) :
    v.dispatched w := by
  apply find?_of_imp (dispatched_fullName v hv)
  · exact List.isPrefixOf_iff_prefix.mpr hw.1
  · intro e he
    exact List.isPrefixOf_iff_prefix.mpr ((List.isPrefixOf_iff_prefix.mp he).trans hw.2)

/-- The word is found if a test succeeds, whichever it is. -/
theorem dispatch_eq_notFound_iff (w : Text) :
    dispatch w = .notFound ↔ ∀ v ∈ verbs, ¬ v.abbreviation <+: w := by
  have hcommand : ∀ v ∈ verbs, v.command ≠ .notFound := by decide
  rw [dispatch, dispatchTable_eq]
  cases hf : (verbs.map Verb.test).find? (fun e => e.1.isPrefixOf w) with
  | none =>
    rw [List.find?_eq_none] at hf
    simp only [true_iff]
    intro v hv hw
    exact hf v.test (List.mem_map_of_mem hv) (List.isPrefixOf_iff_prefix.mpr hw)
  | some e =>
    obtain ⟨v, hv, rfl⟩ := List.mem_map.mp (List.mem_of_find?_eq_some hf)
    have hw := Verb.dispatched.starts hf
    exact ⟨fun h => absurd h (hcommand v hv), fun h => absurd hw (h v hv)⟩

/-- Exactly the names with their shortenings and the words in which no test succeeds are
recognised as they should be. -/
theorem recognisedExactly_iff (w : Text) :
    recognisedExactly w ↔
      (∃ v ∈ verbs, v.named w) ∨ ∀ v ∈ verbs, ¬ v.abbreviation <+: w := by
  constructor
  · rintro ⟨-, -, hrejected⟩
    by_cases hnamed : ∃ v ∈ verbs, v.named w
    · exact .inl hnamed
    · push Not at hnamed
      exact .inr ((dispatch_eq_notFound_iff w).mp (hrejected hnamed).1)
  · rintro (⟨v, hv, hvw⟩ | hnone)
    · refine ⟨?_, fun _ hu _ hu' => named_unique hu hu', fun h => absurd hvw (h v hv)⟩
      intro u hu
      constructor
      · -- the test that succeeds first is the one of `v`, and no other command has it
        intro h
        have htest := Option.some.inj (h.symm.trans (dispatched_of_named hv hvw))
        rwa [verbs_distinct u hu v hv (.inl htest)]
      · exact dispatched_of_named hu
    · have hnotFound := (dispatch_eq_notFound_iff w).mpr hnone
      refine ⟨?_, fun _ hu _ hu' => named_unique hu hu', fun _ => ⟨hnotFound, ?_⟩⟩
      · intro v hv
        constructor
        · intro h
          exact absurd h.starts (hnone v hv)
        · intro h
          exact absurd h.1 (hnone v hv)
      · intro dbg L d args
        rw [execute, hnotFound]

/-- The word `drop` names no command and displays the variables. -/
theorem drop_dispatched :
    dispatch (txt "drop") = .display ∧ ¬ recognisedExactly (txt "drop") := by
  refine ⟨by decide, ?_⟩
  rintro ⟨-, -, hrejected⟩
  have hnone : ∀ v ∈ verbs, ¬ v.named (txt "drop") := by decide +kernel
  exact absurd (hrejected hnone).1 (by decide)

end LuaIde
