import Mathlib.Data.List.Induction

/-! Lists kept by appending and by erasing the first match, against the history of these
edits: how often an element is still there, and when that agrees with a set. -/
namespace Tally

variable {α : Type*}

inductive Edit (α : Type*) where
  | add (a : α)
  | drop (a : α)
deriving DecidableEq

def apply [DecidableEq α] (l : List α) : Edit α → List α
  | .add a => l ++ [a]
  | .drop a => l.erase a

/-- The list after a history of edits. -/
def after [DecidableEq α] (es : List (Edit α)) : List α := es.foldl apply []

/-- The edits that name `a`: `true` for an addition, `false` for a drop. -/
def naming [DecidableEq α] (a : α) (es : List (Edit α)) : List Bool :=
  es.filterMap (fun e =>
    match e with
    | .add b => if b = a then some true else none
    | .drop b => if b = a then some false else none)

/-- A counter that stops at zero. -/
def tally (bs : List Bool) : ℕ := bs.foldl (fun c b => if b then c+1 else c-1) 0

theorem tally_append (bs : List Bool) (b : Bool) :
    tally (bs ++ [b]) = if b then tally bs + 1 else tally bs - 1 := by
  rw [tally, List.foldl_append]
  rfl

theorem after_append [DecidableEq α] (es : List (Edit α)) (e : Edit α) :
    after (es ++ [e]) = apply (after es) e := by
  rw [after, List.foldl_append]
  rfl

theorem naming_append [DecidableEq α] (a : α) (es fs : List (Edit α)) :
    naming a (es ++ fs) = naming a es ++ naming a fs := List.filterMap_append

/-- An element is there as often as the counter of the edits that name it says. -/
theorem count_after [DecidableEq α] (a : α) (es : List (Edit α)) :
    (after es).count a = tally (naming a es) := by
  induction es using List.reverseRecOn with
  | nil => rfl
  | append_singleton es e ih =>
    rw [after_append, naming_append]
    cases e with
    | add b =>
      by_cases h : b = a
      · rw [show naming a [.add b] = [true] by simp [naming, h], tally_append, ← ih]
        simp [apply, List.count_append, h]
      · rw [show naming a [.add b] = [] by simp [naming, h], List.append_nil, ← ih]
        simp [apply, List.count_append, h]
    | drop b =>
      by_cases h : b = a
      · rw [show naming a [.drop b] = [false] by simp [naming, h], tally_append, ← ih]
        simp [apply, h]
      · rw [show naming a [.drop b] = [] by simp [naming, h], List.append_nil, ← ih]
        simp [apply, List.count_erase_of_ne (Ne.symm h)]

/-- The counter is at most `k` when no suffix raises it by more than `k`. -/
theorem tally_le_iff (bs : List Bool) (k : ℕ) :
    tally bs ≤ k ↔ ∀ suf, suf <:+ bs → suf.count true ≤ suf.count false + k := by
  induction bs using List.reverseRecOn generalizing k with
  | nil =>
    simp [tally, List.suffix_nil]
  | append_singleton bs b ih =>
    -- the suffixes of a longer history are the empty one and those of the old, one longer
    have hsuf (p : List Bool → Prop) (hnil : p []) :
        (∀ suf, suf <:+ bs ++ [b] → p suf) ↔ ∀ suf, suf <:+ bs → p (suf ++ [b]) := by
      constructor
      · intro h suf hs
        exact h _ (List.suffix_concat_iff.mpr (.inr ⟨suf, rfl, hs⟩))
      · intro h suf hs
        rcases List.suffix_concat_iff.mp hs with rfl | ⟨t, rfl, ht⟩
        · exact hnil
        · exact h t ht
    rw [hsuf (fun suf => suf.count true ≤ suf.count false + k) (by simp), tally_append]
    cases b with
    | false =>
      -- a drop lets the counter be one higher before it
      have hstep : tally bs - 1 ≤ k ↔ tally bs ≤ k+1 := by omega
      rw [if_neg (by decide), hstep, ih]
      apply forall₂_congr
      intro suf _
      simp only [List.count_append, List.count_singleton, beq_self_eq_true, if_true]
      have hb : (false == true) = false := rfl
      simp only [hb, Bool.false_eq_true, if_false]
      omega
    | true =>
      rw [if_pos rfl]
      cases k with
      | zero =>
        constructor
        · intro h
          omega
        · intro h
          have := h [] (List.nil_suffix)
          simp at this
      | succ k =>
        rw [Nat.succ_le_succ_iff, ih]
        apply forall₂_congr
        intro suf _
        simp only [List.count_append, List.count_singleton, beq_self_eq_true, if_true]
        have hb : (true == false) = false := rfl
        simp only [hb, Bool.false_eq_true, if_false]
        omega

theorem tally_pos_of_getLast {bs : List Bool} (h : bs.getLast? = some true) : 0 < tally bs := by
  rcases List.eq_nil_or_concat bs with rfl | ⟨bs, b, rfl⟩
  · simp at h
  · rw [List.concat_eq_append] at h ⊢
    obtain rfl : b = true := by simpa using h
    rw [tally_append, if_pos rfl]
    omega

/-- Membership says what the latest edit says, as in a set, exactly when that edit is
an addition or the drops make up for the additions in every suffix of the history. -/
theorem mem_iff_latest_iff [DecidableEq α] (a : α) (es : List (Edit α)) :
    (a ∈ after es ↔ (naming a es).getLast? = some true) ↔
      (naming a es).getLast? = some true ∨
        ∀ suf, suf <:+ naming a es → suf.count true ≤ suf.count false := by
  have hmem : a ∈ after es ↔ 0 < tally (naming a es) := by
    rw [← count_after, List.count_pos_iff]
  have hzero := tally_le_iff (naming a es) 0
  simp only [Nat.le_zero, Nat.add_zero] at hzero
  rw [hmem, ← hzero]
  by_cases hl : (naming a es).getLast? = some true
  · simp [hl, tally_pos_of_getLast hl]
  · simp only [hl, iff_false, false_or]
    omega

end Tally
