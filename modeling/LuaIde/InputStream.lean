import LuaIde.DelimitedText

/-! Input streams that are read line by line into an array: `istream::getline`, and the lines
of a text as such a reader comes by them. -/
namespace InputStream

open Delimited

variable {α : Type*} [DecidableEq α]

/-- The lines of a text. A separator at the very end ends the last line and begins no further
one. -/
def linesOf (sep : α) : List α → List (List α)
  | [] => []
  | c :: cs =>
    if c = sep then [] :: linesOf sep cs
    else
      match linesOf sep cs with
      | [] => [[c]]
      | line :: lines => (c :: line) :: lines

/-- The text with its last line ended. -/
def closed (sep : α) (s : List α) : List α :=
  if s = [] ∨ [sep] <:+ s then s else s ++ [sep]

/-- What is still to be read, and whether `failbit` is set. -/
structure Stream (α : Type*) where
  rest : List α
  failed : Bool

/-- `getline` into an array of `n` elements: the line is extracted with its separator; of a line
that has no room as much as there is room for, and the stream fails, as it does at its end. -/
def Stream.getline (sep : α) (n : ℕ) (s : Stream α) : List α × Stream α :=
  if s.failed then ([], s)
  else if s.rest = [] then ([], ⟨[], true⟩)
  else
    let line := s.rest.takeWhile (fun c => decide (c ≠ sep))
    if line.length < n then (line, ⟨s.rest.drop (line.length + 1), false⟩)
    else (s.rest.take (n-1), ⟨s.rest.drop (n-1), true⟩)

section Lines

variable {sep : α}

theorem linesOf_append_cons {p : List α} (hp : sep ∉ p) (s : List α) :
    linesOf sep (p ++ sep :: s) = p :: linesOf sep s := by
  induction p with
  | nil => simp [linesOf]
  | cons c p ih =>
    have hc : c ≠ sep := fun h => hp (by simp [h])
    have hrest := ih fun h => hp (List.mem_cons_of_mem c h)
    rw [List.cons_append, linesOf, if_neg hc, hrest]

/-- What stands in front of the first line and has no separator belongs to it. -/
theorem linesOf_append {p line : List α} {s : List α} {lines : List (List α)} (hp : sep ∉ p)
    (h : linesOf sep s = line :: lines) : linesOf sep (p ++ s) = (p ++ line) :: lines := by
  induction p with
  | nil => exact h
  | cons c p ih =>
    have hc : c ≠ sep := fun h => hp (by simp [h])
    rw [List.cons_append, linesOf, if_neg hc, ih fun h => hp (List.mem_cons_of_mem c h)]
    rfl

theorem linesOf_of_not_mem {p : List α} (hp : sep ∉ p) (hne : p ≠ []) :
    linesOf sep p = [p] := by
  induction p with
  | nil => exact absurd rfl hne
  | cons c p ih =>
    have hc : c ≠ sep := fun h => hp (by simp [h])
    rw [linesOf, if_neg hc]
    cases p with
    | nil => rfl
    | cons d p => rw [ih (fun h => hp (List.mem_cons_of_mem c h)) (List.cons_ne_nil d p)]

/-- The first line of a text and what is behind it. -/
theorem exists_firstLine (sep : α) {s : List α} (hne : s ≠ []) :
    let p := s.takeWhile (fun c => decide (c ≠ sep))
    sep ∉ p ∧ ((s = p ∧ p ≠ []) ∨ s = p ++ sep :: s.drop (p.length + 1)) := by
  intro p
  have hp : sep ∉ p := fun h => by simpa using List.mem_takeWhile_imp h
  refine ⟨hp, ?_⟩
  have hsplit : p ++ s.dropWhile (fun c => decide (c ≠ sep)) = s := List.takeWhile_append_dropWhile
  cases hd : s.dropWhile (fun c => decide (c ≠ sep)) with
  | nil =>
    rw [hd, List.append_nil] at hsplit
    exact .inl ⟨hsplit.symm, hsplit ▸ hne⟩
  | cons c r =>
    have hc : c = sep := by
      have hnot := List.head?_dropWhile_not (fun c => decide (c ≠ sep)) s
      simpa only [hd, List.head?_cons, decide_eq_false_iff_not, not_not] using hnot
    right
    rw [hd, hc] at hsplit
    have hrest : s.drop (p.length + 1) = r := by
      conv_lhs => rw [← hsplit]
      simp
    rw [hrest, hsplit]

/-- The lines of a text are its first line and those behind it. -/
theorem linesOf_eq_cons (sep : α) {s : List α} (hne : s ≠ []) :
    let p := s.takeWhile (fun c => decide (c ≠ sep))
    linesOf sep s = p :: linesOf sep (s.drop (p.length + 1)) := by
  intro p
  obtain ⟨hp, ⟨hs, hpne⟩ | hs⟩ := exists_firstLine sep hne
  · have hdrop : s.drop (p.length + 1) = [] := by
      rw [List.drop_eq_nil_iff, hs]
      exact Nat.le_succ _
    rw [hdrop, linesOf]
    conv_lhs => rw [hs]
    exact linesOf_of_not_mem hp hpne
  · conv_lhs => rw [hs]
    exact linesOf_append_cons hp _

theorem linesOf_ne_nil {s : List α} (hne : s ≠ []) : linesOf sep s ≠ [] := by
  rw [linesOf_eq_cons sep hne]
  exact List.cons_ne_nil _ _

theorem linesOf_terminated {ps : List (List α)} (h : ∀ p ∈ ps, sep ∉ p) :
    linesOf sep (terminated sep ps) = ps := by
  induction ps with
  | nil => rfl
  | cons p ps ih =>
    obtain ⟨hp, hps⟩ := List.forall_mem_cons.mp h
    rw [terminated_cons, linesOf_append_cons hp, ih hps]

theorem not_mem_linesOf {s p : List α} (hp : p ∈ linesOf sep s) : sep ∉ p := by
  induction s generalizing p with
  | nil => cases hp
  | cons c s ih =>
    rw [linesOf] at hp
    split_ifs at hp with hc
    · rcases List.mem_cons.mp hp with rfl | hp
      · simp
      · exact ih hp
    · split at hp
      · rw [List.mem_singleton.mp hp]
        simpa using Ne.symm hc
      · next line lines hlines =>
        rw [hlines] at ih
        rcases List.mem_cons.mp hp with rfl | hp
        · simpa [Ne.symm hc] using ih List.mem_cons_self
        · exact ih (List.mem_cons_of_mem line hp)

theorem closed_cons {c : α} {s : List α} (h : s ≠ [] ∨ c = sep) :
    closed sep (c :: s) = c :: closed sep s := by
  by_cases hs : s = []
  · have hc : c = sep := h.resolve_left (not_not.mpr hs)
    simp [closed, hs, hc]
  · have hsuffix : [sep] <:+ c :: s ↔ [sep] <:+ s := by
      rw [List.suffix_cons_iff]
      simp [Ne.symm hs]
    by_cases hend : [sep] <:+ s
    · simp [closed, hs, hsuffix, hend]
    · simp [closed, hs, hsuffix, hend]

/-- The lines, each with a separator behind it, are the text with its last line ended. -/
theorem terminated_linesOf (sep : α) (s : List α) :
    terminated sep (linesOf sep s) = closed sep s := by
  induction s with
  | nil => rfl
  | cons c s ih =>
    rw [linesOf]
    split_ifs with hc
    · rw [terminated_cons, List.nil_append, ih, closed_cons (.inr hc), hc]
    · cases hlines : linesOf sep s with
      | nil =>
        have hs : s = [] := by
          by_contra hne
          exact linesOf_ne_nil hne hlines
        have hend : ¬ [sep] <:+ [c] := by
          simpa [List.suffix_cons_iff] using Ne.symm hc
        simp [closed, hs, hend]
      | cons line lines =>
        have hs : s ≠ [] := by
          rintro rfl
          cases hlines
        rw [hlines] at ih
        rw [closed_cons (.inl hs), ← ih, terminated_cons, terminated_cons, List.cons_append]

theorem length_linesOf (sep : α) (s : List α) :
    (linesOf sep s).length = (closed sep s).count sep := by
  have h := length_splitOn sep (terminated sep (linesOf sep s))
  rw [splitOn_terminated sep _ fun p hp => not_mem_linesOf hp, terminated_linesOf] at h
  simpa using h

/-- The lines hold what the text holds. -/
theorem mem_of_mem_linesOf {s p : List α} {c : α} (hp : p ∈ linesOf sep s) (hc : c ∈ p) :
    c ∈ s := by
  have hclosed : c ∈ closed sep s := terminated_linesOf sep s ▸ mem_terminated_of_mem hp hc
  have hne : c ≠ sep := by
    rintro rfl
    exact not_mem_linesOf hp hc
  rw [closed] at hclosed
  split_ifs at hclosed with hend
  · exact hclosed
  · rcases List.mem_append.mp hclosed with h | h
    · exact h
    · exact absurd (List.mem_singleton.mp h) hne

theorem linesOf_closed (sep : α) (s : List α) : linesOf sep (closed sep s) = linesOf sep s := by
  rw [← terminated_linesOf, linesOf_terminated fun p hp => not_mem_linesOf hp]

/-- Two texts have the same lines if they differ at most in the end of the last one. -/
theorem linesOf_eq_iff (sep : α) (s t : List α) :
    linesOf sep s = linesOf sep t ↔ closed sep s = closed sep t := by
  constructor
  · intro h
    rw [← terminated_linesOf, h, terminated_linesOf]
  · intro h
    rw [← linesOf_closed, h, linesOf_closed]

end Lines

namespace Stream

variable {sep : α} {n : ℕ} {s : Stream α}

theorem getline_of_failed (h : s.failed = true) : s.getline sep n = ([], s) := by
  rw [getline, if_pos h]

theorem getline_at_end (h : s.failed = false) (hend : s.rest = []) :
    s.getline sep n = ([], ⟨[], true⟩) := by
  rw [getline, h, if_neg Bool.false_ne_true, if_pos hend]

/-- A line with room is read whole, and the stream goes on behind it. -/
theorem getline_of_room (h : s.failed = false) (hne : s.rest ≠ [])
    (hroom : (s.rest.takeWhile (fun c => decide (c ≠ sep))).length < n) :
    s.getline sep n = (s.rest.takeWhile (fun c => decide (c ≠ sep)),
      ⟨s.rest.drop ((s.rest.takeWhile (fun c => decide (c ≠ sep))).length + 1), false⟩) := by
  rw [getline, h, if_neg Bool.false_ne_true, if_neg hne]
  exact if_pos hroom

theorem getline_of_long (h : s.failed = false) (hne : s.rest ≠ [])
    (hlong : ¬ (s.rest.takeWhile (fun c => decide (c ≠ sep))).length < n) :
    s.getline sep n = (s.rest.take (n-1), ⟨s.rest.drop (n-1), true⟩) := by
  rw [getline, h, if_neg Bool.false_ne_true, if_neg hne]
  exact if_neg hlong

/-- A stream that has not failed yet and is not at its end gets shorter. -/
theorem getline_shortens (h : s.failed = false) (hne : s.rest ≠ []) (hn : 1 < n) :
    (s.getline sep n).2.rest.length < s.rest.length := by
  have hlen := List.length_pos_of_ne_nil hne
  by_cases hroom : (s.rest.takeWhile (fun c => decide (c ≠ sep))).length < n
  · rw [getline_of_room h hne hroom, List.length_drop]
    omega
  · rw [getline_of_long h hne hroom, List.length_drop]
    omega

end Stream

end InputStream
