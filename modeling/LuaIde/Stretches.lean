import Mathlib.Data.List.SplitBy

/-! Stretches of a list, the longest parts in which every element is related to the one
before it, and the elements that start them. -/
namespace Stretches

variable {α : Type*}

/-- The first elements of the stretches. -/
def starts (r : α → α → Bool) (l : List α) : List α := (l.splitBy r).filterMap List.head?

@[simp] theorem starts_nil (r : α → α → Bool) : starts r [] = [] := rfl

/-- An element that is not related to the last one starts a stretch. -/
theorem starts_concat_of_not {r : α → α → Bool} {l : List α} {x : α}
    (h : ∀ y ∈ l.getLast?, r y x = false) : starts r (l ++ [x]) = starts r l ++ [x] := by
  have happend : (l ++ [x]).splitBy r = l.splitBy r ++ [[x]] := List.splitBy_append_cons [] h
  rw [starts, happend, List.filterMap_append]
  rfl

/-- A related element belongs to the last stretch. -/
theorem starts_concat_of_rel {r : α → α → Bool} {l : List α} {x y : α}
    (hy : l.getLast? = some y) (h : r y x = true) : starts r (l ++ [x]) = starts r l := by
  have hne : l.splitBy r ≠ [] := by
    apply List.splitBy_ne_nil.mpr
    intro hl
    rw [hl] at hy
    cases hy
  obtain ⟨gs, g, hgs⟩ : ∃ gs g, l.splitBy r = gs ++ [g] :=
    ⟨_, _, (List.dropLast_append_getLast hne).symm⟩
  obtain ⟨hjoin, hnil, hchain, hcut⟩ := List.splitBy_eq_iff.mp hgs
  have hg : g ≠ [] := by
    intro h0
    exact hnil (by simp [h0])
  have hlast : g.getLast? = some y := by
    rw [hjoin, List.flatten_append, List.flatten_singleton,
      List.getLast?_append_of_ne_nil _ hg] at hy
    exact hy
  -- the new element goes to the end of the last stretch
  have hlonger : (l ++ [x]).splitBy r = gs ++ [g ++ [x]] := by
    refine List.splitBy_eq_iff.mpr ⟨?_, ?_, ?_, ?_⟩
    · simp [hjoin]
    · intro hmem
      rcases List.mem_append.mp hmem with hmem | hmem
      · exact hnil (List.mem_append_left _ hmem)
      · simp at hmem
    · intro m hm
      rcases List.mem_append.mp hm with hm | hm
      · exact hchain m (List.mem_append_left _ hm)
      · rw [List.mem_singleton.mp hm, List.isChain_append]
        refine ⟨hchain g (by simp), List.isChain_singleton x, ?_⟩
        intro a ha b hb
        rw [hlast] at ha
        obtain rfl : y = a := Option.some.inj ha
        obtain rfl : x = b := Option.some.inj hb
        exact h
    · rw [List.isChain_append] at hcut ⊢
      refine ⟨hcut.1, List.isChain_singleton _, ?_⟩
      intro a ha b hb
      obtain rfl : g ++ [x] = b := Option.some.inj hb
      obtain ⟨hna, hng, hr⟩ := hcut.2.2 a ha g rfl
      exact ⟨hna, by simp, by rwa [List.head_append_of_ne_nil hng]⟩
  rw [starts, starts, hlonger, hgs, List.filterMap_append, List.filterMap_append]
  cases g with
  | nil => exact absurd rfl hg
  | cons a g => rfl

end Stretches
