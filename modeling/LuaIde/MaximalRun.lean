import Mathlib.Tactic.Common

/-! The maximal run of elements with a property around an index of a list. -/
namespace MaximalRun

variable {α : Type*} (p : α → Bool) (l : List α)

/-- There is an element at the index, and it has the property. -/
def Holds (i : ℕ) : Prop := ∃ c, l[i]? = some c ∧ p c

instance (i : ℕ) : Decidable (Holds p l i) :=
  decidable_of_iff ((l[i]?).any p = true) (by simp [Holds, Option.any_eq_true])

/-- The elements from `start` up to `stop`, without the latter, are a maximal run. -/
structure IsRun (start stop : ℕ) : Prop where
  inside : ∀ i, start ≤ i → i < stop → Holds p l i
  left : ∀ i, i + 1 = start → ¬ Holds p l i
  right : ¬ Holds p l stop

variable {p l} {i start stop : ℕ}

theorem Holds.lt (h : Holds p l i) : i < l.length := by
  obtain ⟨c, hc, -⟩ := h
  exact (List.getElem?_eq_some_iff.mp hc).1

theorem holds_iff_of_getElem? {c : α} (h : l[i]? = some c) : Holds p l i ↔ p c := by
  simp [Holds, h]

/-- Of two runs around one index the first starts no earlier than the second. -/
theorem IsRun.start_le {start' stop' : ℕ} (h : IsRun p l start stop)
    (h' : IsRun p l start' stop') (hi : start ≤ i ∧ i < stop) (hi' : start' ≤ i ∧ i < stop') :
    start ≤ start' := by
  by_contra hlt
  -- the element in front of `start` is inside of the second run
  apply h.left (start - 1) (by omega)
  exact h'.inside (start - 1) (by omega) (by omega)

theorem IsRun.stop_le {start' stop' : ℕ} (h : IsRun p l start stop)
    (h' : IsRun p l start' stop') (hi : start ≤ i ∧ i < stop) (hi' : start' ≤ i ∧ i < stop') :
    stop' ≤ stop := by
  by_contra hlt
  exact h.right (h'.inside stop (by omega) (by omega))

/-- There is one maximal run around an index. -/
theorem IsRun.unique {start' stop' : ℕ} (h : IsRun p l start stop)
    (h' : IsRun p l start' stop') (hi : start ≤ i ∧ i < stop) (hi' : start' ≤ i ∧ i < stop') :
    start = start' ∧ stop = stop' :=
  ⟨Nat.le_antisymm (h.start_le h' hi hi') (h'.start_le h hi' hi),
    Nat.le_antisymm (h'.stop_le h hi' hi) (h.stop_le h' hi hi')⟩

end MaximalRun
