import Mathlib.Data.List.Basic

/-! Operations that can fail, one after the other: a failure is noted and leaves the state as
it was. Two systems that fail alike are compared by a simulation. -/
namespace Attempts

variable {σ τ α ε : Type*}

/-- The state behind a list of operations, and the failure of each, if there was one. -/
def attempts (step : σ → α → Except ε σ) : σ → List α → σ × List (Option ε)
  | s, [] => (s, [])
  | s, a :: as =>
    match step s a with
    | .ok s' => ((attempts step s' as).1, none :: (attempts step s' as).2)
    | .error e => ((attempts step s as).1, some e :: (attempts step s as).2)

/-- One operation: both systems fail in the same way, or both go on in related states. -/
inductive Alike (R : σ → τ → Prop) (s : σ) (t : τ) : Except ε σ → Except ε τ → Prop where
  | ok {s' : σ} {t' : τ} (h : R s' t') : Alike R s t (.ok s') (.ok t')
  | error {e : ε} (h : R s t) : Alike R s t (.error e) (.error e)

/-- A simulation for the first `bound` operations, where `R n` relates the states behind `n`. -/
theorem attempts_alike {f : σ → α → Except ε σ} {g : τ → α → Except ε τ} {R : ℕ → σ → τ → Prop}
    {ok : α → Prop} {bound : ℕ}
    (hstep : ∀ n s t a, n < bound → ok a → R n s t → Alike (R (n+1)) s t (f s a) (g t a))
    {as : List α} (hok : ∀ a ∈ as, ok a) {n : ℕ} {s : σ} {t : τ} (h : R n s t)
    (hbound : n + as.length ≤ bound) :
    (attempts f s as).2 = (attempts g t as).2 ∧
      R (n + as.length) (attempts f s as).1 (attempts g t as).1 := by
  induction as generalizing n s t with
  | nil => exact ⟨rfl, h⟩
  | cons a as ih =>
    rw [List.length_cons] at hbound ⊢
    have hlen : n + (as.length + 1) = n + 1 + as.length := by omega
    have hrest : ∀ b ∈ as, ok b := fun b hb => hok b (List.mem_cons_of_mem a hb)
    have hone := hstep n s t a (by omega) (hok a List.mem_cons_self) h
    rw [attempts, attempts]
    generalize f s a = x at hone
    generalize g t a = y at hone
    cases hone with
    | ok h' =>
      obtain ⟨herrors, hR⟩ := ih hrest h' (by omega)
      rw [hlen]
      exact ⟨congrArg (none :: ·) herrors, hR⟩
    | error h' =>
      obtain ⟨herrors, hR⟩ := ih hrest h' (by omega)
      rw [hlen]
      exact ⟨congrArg (some _ :: ·) herrors, hR⟩

end Attempts
