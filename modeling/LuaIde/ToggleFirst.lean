import Mathlib.Data.List.Perm.Basic
import Mathlib.Tactic.Common

/-! A toggle on a list: the first element with a property goes, or a new one comes to the end
where there is none. -/
namespace ToggleFirst

open List

variable {α β : Type*} {p q : α → Bool} {new : α} {l l' : List α}

def toggleFirst (p : α → Bool) (new : α) (l : List α) : List α :=
  if l.any p then l.eraseP p else l ++ [new]

/-- The one thing a toggle does, where some element has the property. -/
theorem toggleFirst_of_any (new : α) (h : l.any p) :
    ∃ a pre post, p a ∧ l = pre ++ a :: post ∧ toggleFirst p new l = pre ++ post := by
  obtain ⟨b, hb, hpb⟩ := List.any_eq_true.mp h
  obtain ⟨a, pre, post, -, ha, hl, he⟩ := List.exists_of_eraseP hb hpb
  exact ⟨a, pre, post, ha, hl, by rw [toggleFirst, if_pos h, he]⟩

theorem toggleFirst_of_not_any (h : ¬ l.any p) : toggleFirst p new l = l ++ [new] :=
  if_neg h

/-- What has nothing to do with the property stays as it is. -/
theorem filter_toggleFirst (hq : ∀ a ∈ l, p a → ¬ q a) (hnew : ¬ q new) :
    (toggleFirst p new l).filter q = l.filter q := by
  by_cases h : l.any p
  · obtain ⟨a, pre, post, ha, rfl, ht⟩ := toggleFirst_of_any new h
    have hqa : ¬ q a := hq a (by simp) ha
    rw [ht, List.filter_append, List.filter_append, List.filter_cons_of_neg hqa]
  · rw [toggleFirst_of_not_any h, List.filter_append, List.filter_cons_of_neg hnew]
    simp

theorem countP_toggleFirst (hq : ∀ a ∈ l, p a → ¬ q a) (hnew : ¬ q new) :
    (toggleFirst p new l).countP q = l.countP q := by
  rw [List.countP_eq_length_filter, List.countP_eq_length_filter, filter_toggleFirst hq hnew]

/-- Of at most one element with the property none is left behind, and where there was none
there is the new one. -/
theorem countP_toggleFirst_self (hnew : p new) (hone : l.countP p ≤ 1) :
    (toggleFirst p new l).countP p = 1 - l.countP p := by
  by_cases h : l.any p
  · obtain ⟨a, pre, post, ha, rfl, ht⟩ := toggleFirst_of_any new h
    rw [List.countP_append, List.countP_cons_of_pos ha] at hone ⊢
    rw [ht, List.countP_append]
    omega
  · have hzero : l.countP p = 0 := by
      rw [List.countP_eq_zero]
      intro a ha hpa
      exact h (List.any_eq_true.mpr ⟨a, ha, hpa⟩)
    rw [toggleFirst_of_not_any h, List.countP_append, hzero, List.countP_singleton, if_pos hnew]

theorem any_iff_countP_pos : l.any p ↔ 0 < l.countP p := by
  rw [List.countP_pos_iff, List.any_eq_true]

/-- Where at most one element has the property, and it looks like the new one, toggling twice
restores the list but for its order; the list may be reordered in between. -/
theorem toggleFirst_twice (f : α → β) (hnew : p new) (hone : l.countP p ≤ 1)
    (hsame : ∀ a ∈ l, p a → f a = f new) (hl' : l'.Perm (toggleFirst p new l)) :
    ((toggleFirst p new l').map f).Perm (l.map f) := by
  have hcount : l'.countP p = 1 - l.countP p := by
    rw [hl'.countP_eq, countP_toggleFirst_self hnew hone]
  by_cases h : l.any p
  · -- the element goes, and comes back as the new one
    have hpos := any_iff_countP_pos.mp h
    have hno : ¬ l'.any p := fun h' => by
      have := any_iff_countP_pos.mp h'
      omega
    obtain ⟨a, pre, post, ha, rfl, ht⟩ := toggleFirst_of_any new h
    have hfa : f a = f new := hsame a (by simp) ha
    rw [toggleFirst_of_not_any hno]
    have hrest : l'.Perm (pre ++ post) := ht ▸ hl'
    calc (l' ++ [new]).map f
        ~ (new :: (pre ++ post)).map f :=
          ((List.perm_append_singleton new l').trans (hrest.cons new)).map f
      _ = (a :: (pre ++ post)).map f := by rw [List.map_cons, List.map_cons, hfa]
      _ ~ (pre ++ a :: post).map f := List.perm_middle.symm.map f
  · -- the new one comes, and is the one that goes
    rw [toggleFirst_of_not_any h] at hl'
    have hany : l'.any p :=
      List.any_eq_true.mpr ⟨new, hl'.mem_iff.mpr (by simp), hnew⟩
    obtain ⟨a, pre, post, ha, rfl, ht⟩ := toggleFirst_of_any new hany
    have hmem : a ∈ l ++ [new] := hl'.mem_iff.mp (by simp)
    have hanew : a = new := by
      rcases List.mem_append.mp hmem with hl | hs
      · exact absurd (List.any_eq_true.mpr ⟨a, hl, ha⟩) h
      · exact List.mem_singleton.mp hs
    subst hanew
    have hcons : (a :: (pre ++ post)).Perm (a :: l) :=
      List.perm_middle.symm.trans (hl'.trans (List.perm_append_singleton a l))
    rw [ht]
    exact hcons.cons_inv.map f

end ToggleFirst
