import Mathlib.Data.List.Basic
import Mathlib.Tactic.Common

/-! Lists that are read from the front: cut into pieces of several kinds, and scanned by a loop
that passes over some elements in each turn. -/
namespace Pieces

variable {α κ π : Type*}

/-- A recursion over a list that drops an element or more in each call has the same value with
every fuel from the length of the list on. -/
theorem enough_fuel {β : Type*} {F : ℕ → List α → β} {z : β} {G : α → List α → (ℕ → β) → β}
    (hnil : ∀ fuel, F fuel [] = z)
    (hcons : ∀ fuel a s, F (fuel + 1) (a :: s) = G a s fun n => F fuel (s.drop n))
    (fuel : ℕ) (s : List α) (h : s.length ≤ fuel) : F fuel s = F s.length s := by
  suffices hboth : ∀ fuel' fuel (s : List α), s.length ≤ fuel → s.length ≤ fuel' →
      F fuel s = F fuel' s from hboth _ _ _ h (Nat.le_refl _)
  intro fuel'
  induction fuel' with
  | zero =>
    intro fuel s _ hs'
    rw [List.length_eq_zero_iff.mp (Nat.le_zero.mp hs'), hnil, hnil]
  | succ fuel' ih =>
    intro fuel s hs hs'
    cases s with
    | nil => rw [hnil, hnil]
    | cons a s =>
      cases fuel with
      | zero => exact absurd hs (Nat.not_succ_le_zero _)
      | succ fuel =>
        simp only [List.length_cons] at hs hs'
        have hrest (n : ℕ) : F fuel (s.drop n) = F fuel' (s.drop n) := by
          have hdrop := List.length_drop (l := s) (i := n)
          exact ih fuel _ (by omega) (by omega)
        simp only [hcons, hrest]

section Cut

variable (next : α → List α → κ × ℕ)

/-- The pieces of a list. Of the piece that starts with `a`, `next a s` says of which kind it is
and how many elements of `s` belong to it. -/
def cut : ℕ → List α → List (κ × List α)
  | 0, _ => []
  | _, [] => []
  | fuel + 1, a :: s =>
    ((next a s).1, a :: s.take (next a s).2) :: cut fuel (s.drop (next a s).2)

def cutUp (s : List α) : List (κ × List α) := cut next s.length s

theorem cut_eq_cutUp (fuel : ℕ) (s : List α) (h : s.length ≤ fuel) :
    cut next fuel s = cutUp next s :=
  enough_fuel (z := [])
    (G := fun a s k => ((next a s).1, a :: s.take (next a s).2) :: k (next a s).2)
    (fun fuel => by cases fuel <;> rfl) (fun _ _ _ => rfl) fuel s h

@[simp] theorem cutUp_nil : cutUp next [] = [] := rfl

theorem cutUp_cons (a : α) (s : List α) :
    cutUp next (a :: s) =
      ((next a s).1, a :: s.take (next a s).2) :: cutUp next (s.drop (next a s).2) := by
  rw [← cut_eq_cutUp next s.length (s.drop _) (by simp)]
  rfl

/-- What the elements of a cut list are, by the kinds of their pieces. -/
def spread (part : κ → π) : List (κ × List α) → List π
  | [] => []
  | (kind, piece) :: ps => List.replicate piece.length (part kind) ++ spread part ps

theorem length_spread_cutUp (part : κ → π) (s : List α) :
    (spread part (cutUp next s)).length = s.length := by
  induction hn : s.length using Nat.strongRecOn generalizing s with
  | _ n ih =>
    cases s with
    | nil => exact hn
    | cons a s =>
      let rest := s.drop (next a s).2
      have hdrop : rest.length = s.length - (next a s).2 := List.length_drop
      have htake := List.length_take (l := s) (i := (next a s).2)
      rw [List.length_cons] at hn
      calc
        (spread part (cutUp next (a :: s))).length =
            (s.take (next a s).2).length + 1 + (spread part (cutUp next rest)).length := by
          rw [cutUp_cons, spread, List.length_append, List.length_replicate, List.length_cons]
        _ = (s.take (next a s).2).length + 1 + rest.length := by
          rw [ih rest.length (by omega) rest rfl]
        _ = n := by omega

end Cut

section Scan

/-- What a scanning loop does with an element and the ones behind it: it fails, or passes over the
element and the next `n`, and goes on or is done. -/
inductive Turn
  | fail
  | more (n : ℕ)
  | done (n : ℕ)

variable (turn : α → List α → Turn)

def loop : ℕ → List α → Option (List α × List α)
  | 0, _ => none
  | _, [] => none
  | fuel + 1, a :: s =>
    match turn a s with
    | .fail => none
    | .more n => (loop fuel (s.drop n)).map fun (c, r) => (a :: (s.take n ++ c), r)
    | .done n => some (a :: s.take n, s.drop n)

/-- What the loop has passed over, and the rest; none if a turn fails or the list ends. -/
def scan (s : List α) : Option (List α × List α) := loop turn s.length s

theorem loop_eq_scan (fuel : ℕ) (s : List α) (h : s.length ≤ fuel) :
    loop turn fuel s = scan turn s :=
  enough_fuel (z := none)
    (G := fun a s k =>
      match turn a s with
      | .fail => none
      | .more n => (k n).map fun (c, r) => (a :: (s.take n ++ c), r)
      | .done n => some (a :: s.take n, s.drop n))
    (fun fuel => by cases fuel <;> rfl) (fun _ _ _ => rfl) fuel s h

theorem scan_nil : scan turn [] = none := rfl

theorem scan_cons (a : α) (s : List α) :
    scan turn (a :: s) =
      match turn a s with
      | .fail => none
      | .more n => (scan turn (s.drop n)).map fun (c, r) => (a :: (s.take n ++ c), r)
      | .done n => some (a :: s.take n, s.drop n) := by
  have hrest (n : ℕ) : scan turn (s.drop n) = loop turn s.length (s.drop n) :=
    (loop_eq_scan turn _ _ (by simp)).symm
  simp only [hrest]
  rfl

variable {turn}

/-- The rule for a loop that comes to its end: the turn that is done, and a turn that goes on. -/
theorem scan_induction {P : List α → List α → Prop}
    (done : ∀ a s n, turn a s = .done n → P (a :: s.take n) (s.drop n))
    (more : ∀ a s n c r, turn a s = .more n → c ≠ [] → s.drop n = c ++ r → P c r →
      P (a :: (s.take n ++ c)) r) {s c r : List α} (h : scan turn s = some (c, r)) :
    P c r ∧ c ≠ [] ∧ s = c ++ r := by
  induction hn : s.length using Nat.strongRecOn generalizing s c r with
  | _ n ih =>
    cases s with
    | nil => rw [scan_nil] at h; cases h
    | cons a s =>
      rw [scan_cons] at h
      cases hturn : turn a s with
      | fail =>
        simp only [hturn] at h
        cases h
      | done m =>
        simp only [hturn] at h
        cases h
        refine ⟨done a s m hturn, List.cons_ne_nil _ _, ?_⟩
        rw [List.cons_append, List.take_append_drop]
      | more m =>
        simp only [hturn, Option.map_eq_some_iff] at h
        obtain ⟨⟨c', r'⟩, hrest, heq⟩ := h
        cases heq
        have hdrop := List.length_drop (l := s) (i := m)
        simp only [List.length_cons] at hn
        obtain ⟨hP, hne, happ⟩ := ih _ (by omega) hrest rfl
        refine ⟨more a s m _ _ hturn hne happ hP, List.cons_ne_nil _ _, ?_⟩
        rw [List.cons_append, List.append_assoc, ← happ, List.take_append_drop]

theorem append_of_scan {s c r : List α} (h : scan turn s = some (c, r)) : s = c ++ r :=
  (scan_induction (P := fun _ _ => True) (fun _ _ _ _ => trivial)
    (fun _ _ _ _ _ _ _ _ _ => trivial) h).2.2

end Scan

end Pieces
