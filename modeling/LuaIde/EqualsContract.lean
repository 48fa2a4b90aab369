import Mathlib.Data.Set.Basic
import Mathlib.Tactic.Common

/-! The contract of a pair of methods `equals` and `hashCode` that may throw, on a set
of objects. -/
namespace EqualsContract

variable {α ε η κ : Type*}

/-- On the objects of `S`, `equals` is an equivalence and never throws, and objects that
are equal have the same hash code. -/
structure Contract (equals : α → α → Except ε Bool) (hashCode : α → Except ε η)
    (S : Set α) : Prop where
  answers : ∀ a ∈ S, ∀ b ∈ S, ∃ r, equals a b = .ok r
  refl : ∀ a ∈ S, equals a a = .ok true
  symm : ∀ a ∈ S, ∀ b ∈ S, equals a b = .ok true → equals b a = .ok true
  trans : ∀ a ∈ S, ∀ b ∈ S, ∀ c ∈ S,
    equals a b = .ok true → equals b c = .ok true → equals a c = .ok true
  hash : ∀ a ∈ S, ∀ b ∈ S,
    equals a b = .ok true → ∃ h, hashCode a = .ok h ∧ hashCode b = .ok h

variable {equals : α → α → Except ε Bool} {hashCode : α → Except ε η} {S : Set α}

/-- Methods that compare one key of the objects, and hash nothing but it, keep the
contract. -/
theorem contract_of_key [DecidableEq κ] (key : α → κ) (hashOf : κ → η)
    (hequals : ∀ a ∈ S, ∀ b ∈ S, equals a b = .ok (decide (key a = key b)))
    (hhash : ∀ a ∈ S, hashCode a = .ok (hashOf (key a))) : Contract equals hashCode S := by
  have hiff : ∀ a ∈ S, ∀ b ∈ S, (equals a b = .ok true ↔ key a = key b) := by
    intro a ha b hb
    rw [hequals a ha b hb, Except.ok.injEq, decide_eq_true_iff]
  constructor
  · intro a ha b hb
    exact ⟨_, hequals a ha b hb⟩
  · intro a ha
    exact (hiff a ha a ha).mpr rfl
  · intro a ha b hb h
    exact (hiff b hb a ha).mpr ((hiff a ha b hb).mp h).symm
  · intro a ha b hb c hc hab hbc
    apply (hiff a ha c hc).mpr
    calc key a = key b := (hiff a ha b hb).mp hab
      _ = key c := (hiff b hb c hc).mp hbc
  · intro a ha b hb h
    refine ⟨_, hhash a ha, ?_⟩
    rw [hhash b hb, (hiff a ha b hb).mp h]

end EqualsContract
