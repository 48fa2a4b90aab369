import Mathlib.Data.List.DropRight
import Mathlib.Data.List.TakeWhile

/-! Texts that are cut at a separator or at line ends. A writer puts a separator
after every piece; a reader splits, and the lemmas say when it gets the pieces back. -/
namespace Delimited

variable {α : Type*}

/-- Every piece followed by the separator. -/
def terminated (sep : α) (ps : List (List α)) : List α :=
  ps.flatMap (fun p => p ++ [sep])

@[simp] theorem terminated_nil (sep : α) : terminated sep [] = [] := rfl

@[simp] theorem terminated_cons (sep : α) (p : List α) (ps : List (List α)) :
    terminated sep (p :: ps) = p ++ sep :: terminated sep ps := by
  simp [terminated]

theorem terminated_append (sep : α) (ps qs : List (List α)) :
    terminated sep (ps ++ qs) = terminated sep ps ++ terminated sep qs := by
  simp [terminated]

theorem mem_terminated {sep c : α} {ps : List (List α)} (h : c ∈ terminated sep ps) :
    c = sep ∨ ∃ p ∈ ps, c ∈ p := by
  obtain ⟨p, hp, hc⟩ := List.mem_flatMap.mp h
  rcases List.mem_append.mp hc with hc | hc
  · exact Or.inr ⟨p, hp, hc⟩
  · exact Or.inl (List.mem_singleton.mp hc)

theorem mem_terminated_of_mem {sep c : α} {p : List α} {ps : List (List α)}
    (hp : p ∈ ps) (hc : c ∈ p) : c ∈ terminated sep ps :=
  List.mem_flatMap.mpr ⟨p, hp, List.mem_append_left _ hc⟩

variable [DecidableEq α]

/-- Splitting that drops the empty pieces at the end. A text without a separator
is one piece, also when it is empty. -/
def split (sep : α) (s : List α) : List (List α) :=
  if sep ∈ s then (s.splitOn sep).rdropWhile List.isEmpty else [s]

/-- The nonempty pieces between separators. -/
def words (sep : α) (s : List α) : List (List α) :=
  (s.splitOn sep).filter (fun w => !w.isEmpty)

theorem splitOn_terminated_append (sep : α) (ps : List (List α)) (t : List α)
    (h : ∀ p ∈ ps, sep ∉ p) :
    (terminated sep ps ++ t).splitOn sep = ps ++ t.splitOn sep := by
  induction ps with
  | nil => simp
  | cons p ps ih =>
    have hp : sep ∉ p := h p List.mem_cons_self
    have hps : ∀ q ∈ ps, sep ∉ q := fun q hq => h q (List.mem_cons_of_mem p hq)
    rw [terminated_cons, List.append_assoc, List.cons_append,
      List.splitOn_append_cons_self_of_not_mem hp, ih hps, List.cons_append]

theorem splitOn_terminated (sep : α) (ps : List (List α)) (h : ∀ p ∈ ps, sep ∉ p) :
    (terminated sep ps).splitOn sep = ps ++ [[]] := by
  simpa using splitOn_terminated_append sep ps [] h

/-- A piece has no separator, and the text holds all of it in its order. -/
theorem mem_splitOn (sep : α) (s p : List α) (hp : p ∈ s.splitOn sep) :
    sep ∉ p ∧ p.Sublist s := by
  induction s generalizing p with
  | nil =>
    have he : p = [] := by simpa using hp
    simp [he]
  | cons x s ih =>
    rw [List.splitOn_cons_eq_if_modifyHead] at hp
    by_cases hx : (x == sep) = true
    · rw [if_pos hx] at hp
      rcases List.mem_cons.mp hp with rfl | hp
      · simp
      · exact ⟨(ih p hp).1, (ih p hp).2.cons x⟩
    · rw [if_neg hx] at hp
      have hne : sep ≠ x := fun h => hx (by simp [h])
      cases hs : s.splitOn sep with
      | nil => exact absurd hs (List.splitOn_ne_nil sep s)
      | cons q qs =>
        rw [hs, List.modifyHead_cons] at hp
        rcases List.mem_cons.mp hp with rfl | hp
        -- the first piece grows by the character in front
        · have hq := ih q (by rw [hs]; exact List.mem_cons_self)
          refine ⟨fun h => ?_, hq.2.cons_cons x⟩
          rcases List.mem_cons.mp h with h | h
          · exact hne h
          · exact hq.1 h
        · have hq := ih p (by rw [hs]; exact List.mem_cons_of_mem q hp)
          exact ⟨hq.1, hq.2.cons x⟩

theorem mem_split (sep : α) (s p : List α) (hp : p ∈ split sep s) :
    sep ∉ p ∧ ∀ c ∈ p, c ∈ s := by
  unfold split at hp
  split_ifs at hp with hs
  · have h := mem_splitOn sep s p ((List.rdropWhile_prefix List.isEmpty (s.splitOn sep)).subset hp)
    exact ⟨h.1, fun c hc => h.2.subset hc⟩
  · rw [List.mem_singleton.mp hp]
    exact ⟨hs, fun c hc => hc⟩

theorem split_of_not_mem (sep : α) (s : List α) (h : sep ∉ s) : split sep s = [s] :=
  if_neg h

/-- Reading back a text whose pieces are all terminated. -/
theorem split_terminated (sep : α) (ps : List (List α)) (hne : ps ≠ [])
    (h : ∀ p ∈ ps, sep ∉ p) :
    split sep (terminated sep ps) = ps.rdropWhile List.isEmpty := by
  have hs : sep ∈ terminated sep ps := by
    obtain ⟨p, qs, rfl⟩ := List.exists_cons_of_ne_nil hne
    simp
  rw [split, if_pos hs, splitOn_terminated sep ps h,
    List.rdropWhile_concat_pos _ _ _ (by simp)]

theorem split_terminated_last (sep : α) (ps : List (List α)) (p : List α) (hp : p ≠ [])
    (h : ∀ q ∈ ps ++ [p], sep ∉ q) :
    split sep (terminated sep (ps ++ [p])) = ps ++ [p] := by
  rw [split_terminated sep _ (by simp) h]
  exact List.rdropWhile_concat_neg _ _ _ (by simpa using hp)

theorem splitOn_terminated_flatMap (sep : α) (ps : List (List α)) :
    (terminated sep ps).splitOn sep = ps.flatMap (fun p => p.splitOn sep) ++ [[]] := by
  induction ps with
  | nil => simp
  | cons p ps ih =>
    rw [terminated_cons, List.splitOn_append_cons_self, ih, List.flatMap_cons, List.append_assoc]

/-- The pieces of a text, each followed by the separator, are the text with one behind it. -/
theorem terminated_splitOn (sep : α) (s : List α) :
    terminated sep (s.splitOn sep) = s ++ [sep] := by
  induction s with
  | nil => simp
  | cons x s ih =>
    rw [List.splitOn_cons_eq_if_modifyHead]
    by_cases hx : x = sep
    · simp [hx, ih]
    · have hb : (x == sep) = false := by simpa using hx
      obtain ⟨q, qs, hq⟩ := List.exists_cons_of_ne_nil (List.splitOn_ne_nil sep s)
      rw [hq, terminated_cons] at ih
      simp [hb, hq, ih]

/-- A text is made of terminated segments, at least one, if it ends with the terminator. -/
theorem segments_iff (sep : α) (t : List α) :
    (∃ segs, segs ≠ [] ∧ (∀ s ∈ segs, sep ∉ s) ∧ t = terminated sep segs) ↔ [sep] <:+ t := by
  constructor
  · rintro ⟨segs, hne, -, rfl⟩
    rw [← List.dropLast_concat_getLast hne, terminated_append]
    exact ⟨terminated sep segs.dropLast ++ segs.getLast hne, by simp⟩
  · rintro ⟨s, rfl⟩
    exact ⟨s.splitOn sep, List.splitOn_ne_nil sep s,
      fun p hp => (mem_splitOn sep s p hp).1, (terminated_splitOn sep s).symm⟩

theorem length_splitOn (sep : α) (s : List α) : (s.splitOn sep).length = s.count sep + 1 := by
  induction s with
  | nil => simp
  | cons x s ih =>
    rw [List.splitOn_cons_eq_if_modifyHead]
    by_cases hx : x = sep
    · simp [hx, ih]
    · have hb : (x == sep) = false := by simpa using hx
      simp [hb, ih, List.count_cons]

theorem length_flatMap_splitOn (sep : α) (ps : List (List α)) :
    (ps.flatMap (fun p => p.splitOn sep)).length = ps.length + ps.flatten.count sep := by
  induction ps with
  | nil => rfl
  | cons p ps ih =>
    rw [List.flatMap_cons, List.length_append, ih, length_splitOn, List.flatten_cons,
      List.count_append, List.length_cons]
    omega

theorem splitOn_concat (sep c : α) (s : List α) (hc : c ≠ sep) :
    ∃ ps q, (s ++ [c]).splitOn sep = ps ++ [q ++ [c]] := by
  induction s with
  | nil => exact ⟨[], [], by simp [List.splitOn_eq_singleton, hc.symm]⟩
  | cons x s ih =>
    obtain ⟨ps, q, h⟩ := ih
    rw [List.cons_append, List.splitOn_cons_eq_if_modifyHead, h]
    by_cases hx : (x == sep) = true
    · exact ⟨[] :: ps, q, by rw [if_pos hx, List.cons_append]⟩
    · rw [if_neg hx]
      cases ps with
      | nil => exact ⟨[], x :: q, by simp⟩
      | cons p ps => exact ⟨(x :: p) :: ps, q, by simp⟩

/-- When the last piece ends in no separator, only the end of the text is dropped. -/
theorem split_terminated_concat (sep c : α) (ps : List (List α)) (s : List α) (hc : c ≠ sep) :
    split sep (terminated sep (ps ++ [s ++ [c]])) =
      (ps ++ [s ++ [c]]).flatMap (fun p => p.splitOn sep) := by
  obtain ⟨qs, q, hq⟩ := splitOn_concat sep c s hc
  have hs : sep ∈ terminated sep (ps ++ [s ++ [c]]) := by
    simp [terminated_append]
  rw [split, if_pos hs, splitOn_terminated_flatMap, List.rdropWhile_concat_pos _ _ _ (by simp),
    List.flatMap_append, List.flatMap_singleton, hq, ← List.append_assoc]
  exact List.rdropWhile_concat_neg _ _ _ (by simp)

/-- So many pieces come back only if no separator was in them. -/
theorem not_mem_of_length_split (sep c : α) (ps : List (List α)) (s : List α) (hc : c ≠ sep)
    (h : (split sep (terminated sep (ps ++ [s ++ [c]]))).length = (ps ++ [s ++ [c]]).length) :
    ∀ p ∈ ps ++ [s ++ [c]], sep ∉ p := by
  rw [split_terminated_concat sep c ps s hc, length_flatMap_splitOn] at h
  have hzero : (ps ++ [s ++ [c]]).flatten.count sep = 0 := by omega
  intro p hp hsep
  apply List.count_eq_zero.mp hzero
  exact List.mem_flatten.mpr ⟨p, hp, hsep⟩

/-- A writer's pieces come back, as many and with the right one at the end, only if they
are without separators and the last is not empty. -/
theorem clean_of_split_terminated (sep : α) (ps : List (List α)) (p : List α)
    (hlen : (split sep (terminated sep (ps ++ [p]))).length = (ps ++ [p]).length)
    (hlast : (split sep (terminated sep (ps ++ [p]))).getLast? = some p) :
    (∀ q ∈ ps ++ [p], sep ∉ q) ∧ p ≠ [] := by
  have hmem := List.mem_of_getLast? hlast
  have hp : sep ∉ p := (mem_split sep _ p hmem).1
  have hs : sep ∈ terminated sep (ps ++ [p]) := by
    simp [terminated_append]
  have hne : p ≠ [] := by
    rw [split, if_pos hs] at hlast
    have hk : (List.rdropWhile List.isEmpty ((terminated sep (ps ++ [p])).splitOn sep)) ≠ [] := by
      intro h
      simp [h] at hlast
    have hl := List.rdropWhile_last_not List.isEmpty _ hk
    rw [List.getLast?_eq_some_getLast hk, Option.some.injEq] at hlast
    rw [hlast] at hl
    simpa using hl
  obtain ⟨s, c, rfl⟩ := (List.eq_nil_or_concat' p).resolve_left hne
  have hc : c ≠ sep := fun h => hp (by simp [h])
  exact ⟨not_mem_of_length_split sep c ps s hc hlen, hne⟩

theorem split_pair (sep : α) (a b : List α) (ha : sep ∉ a) (hb : sep ∉ b) (hne : b ≠ []) :
    split sep (a ++ sep :: b) = [a, b] := by
  rw [split, if_pos (by simp), List.splitOn_append_cons_self_of_not_mem ha,
    List.splitOn_eq_singleton hb]
  exact List.rdropWhile_concat_neg _ [a] b (by simpa using hne)

/-- With nothing behind the separator there is at most one piece. -/
theorem split_empty_right (sep : α) (a : List α) (ha : sep ∉ a) :
    split sep (a ++ [sep]) = if a = [] then [] else [a] := by
  have h := split_terminated sep [a] (by simp) (by simpa using ha)
  rw [terminated_cons, terminated_nil] at h
  rw [h, List.rdropWhile_singleton]
  simp

theorem exists_mem_splitOn (sep : α) (s : List α) (c : α) (hc : c ∈ s) (hne : c ≠ sep) :
    ∃ p ∈ s.splitOn sep, c ∈ p := by
  induction s with
  | nil => simp at hc
  | cons x s ih =>
    rw [List.splitOn_cons_eq_if_modifyHead]
    by_cases hx : x = sep
    · have hcs : c ∈ s := (List.mem_cons.mp hc).resolve_left (fun h => hne (h.trans hx))
      obtain ⟨p, hp, hcp⟩ := ih hcs
      exact ⟨p, by simp [hx, hp], hcp⟩
    · have hb : (x == sep) = false := by simpa using hx
      cases hs : s.splitOn sep with
      | nil => exact absurd hs (List.splitOn_ne_nil sep s)
      | cons q qs =>
        simp only [hb, Bool.false_eq_true, ↓reduceIte, List.modifyHead_cons]
        rcases List.mem_cons.mp hc with rfl | hcs
        · exact ⟨c :: q, List.mem_cons_self, List.mem_cons_self⟩
        · obtain ⟨p, hp, hcp⟩ := ih hcs
          rw [hs] at hp
          rcases List.mem_cons.mp hp with rfl | hp
          · exact ⟨x :: p, List.mem_cons_self, List.mem_cons_of_mem x hcp⟩
          · exact ⟨p, List.mem_cons_of_mem _ hp, hcp⟩

theorem splitOn_head (sep : α) (s : List α) :
    (s.splitOn sep).head? = some (s.takeWhile (fun c => decide (c ≠ sep))) := by
  induction s with
  | nil => simp
  | cons x s ih =>
    rw [List.splitOn_cons_eq_if_modifyHead]
    by_cases hx : x = sep
    · simp [hx]
    · have hb : (x == sep) = false := by simpa using hx
      cases hs : s.splitOn sep with
      | nil => exact absurd hs (List.splitOn_ne_nil sep s)
      | cons q qs =>
        rw [hs, List.head?_cons, Option.some.injEq] at ih
        simp [hb, hx, ih]

theorem takeWhile_append_of_not_mem {sep : α} {s : List α} (h : sep ∉ s) (t : List α) :
    (s ++ t).takeWhile (fun c => decide (c ≠ sep)) =
      s ++ t.takeWhile (fun c => decide (c ≠ sep)) := by
  apply List.takeWhile_append_of_pos
  intro c hc
  exact decide_eq_true (fun he => h (he ▸ hc))

/-- The first piece runs to the first separator, unless the text is all separators. -/
theorem split_head (sep : α) (s : List α) (h : ∃ c ∈ s, c ≠ sep) :
    (split sep s)[0]? = some (s.takeWhile (fun c => decide (c ≠ sep))) := by
  obtain ⟨c, hc, hne⟩ := h
  by_cases hs : sep ∈ s
  · rw [split, if_pos hs]
    -- the piece of `c` is not empty, and no piece in front of it is dropped
    have hkeep : (s.splitOn sep).rdropWhile List.isEmpty ≠ [] := by
      intro hz
      obtain ⟨p, hp, hcp⟩ := exists_mem_splitOn sep s c hc hne
      have he := List.rdropWhile_eq_nil_iff.mp hz p hp
      rw [List.isEmpty_iff.mp he] at hcp
      exact List.not_mem_nil hcp
    have hp := List.rdropWhile_prefix (p := List.isEmpty) (s.splitOn sep)
    obtain ⟨q, qs, hq⟩ := List.exists_cons_of_ne_nil hkeep
    obtain ⟨t, ht⟩ := hp
    have hh := splitOn_head sep s
    rw [← ht, hq, List.cons_append, List.head?_cons] at hh
    rw [hq, List.getElem?_cons_zero, hh]
  · rw [split_of_not_mem sep s hs, List.getElem?_cons_zero]
    have hself := takeWhile_append_of_not_mem hs []
    rw [List.append_nil, List.takeWhile_nil, List.append_nil] at hself
    rw [hself]

theorem words_of_not_mem (sep : α) (s : List α) (h : sep ∉ s) (hne : s ≠ []) :
    words sep s = [s] := by
  have he : (!s.isEmpty) = true := by simpa using hne
  simp [words, List.splitOn_eq_singleton h, he]

theorem words_cons (sep : α) (w s : List α) (h : sep ∉ w) (hne : w ≠ []) :
    words sep (w ++ sep :: s) = w :: words sep s := by
  have he : (!w.isEmpty) = true := by simpa using hne
  simp [words, List.splitOn_append_cons_self_of_not_mem h, he]

theorem mem_words (sep : α) (s w : List α) (hw : w ∈ words sep s) :
    w ≠ [] ∧ sep ∉ w ∧ w.Sublist s := by
  obtain ⟨hm, hne⟩ := List.mem_filter.mp hw
  exact ⟨by simpa using hne, mem_splitOn sep s w hm⟩

theorem flatten_splitOn (sep : α) (s : List α) :
    (s.splitOn sep).flatten = s.filter (fun c => decide (c ≠ sep)) := by
  induction s with
  | nil => simp
  | cons x s ih =>
    rw [List.splitOn_cons_eq_if_modifyHead, List.filter_cons, ← ih]
    by_cases hx : x = sep
    · simp [hx]
    · have hb : (x == sep) = false := by simpa using hx
      obtain ⟨q, qs, hq⟩ := List.exists_cons_of_ne_nil (List.splitOn_ne_nil sep s)
      simp [hb, hx, hq]

/-- The words hold everything but the separators. -/
theorem flatten_words (sep : α) (s : List α) :
    (words sep s).flatten = s.filter (fun c => decide (c ≠ sep)) := by
  rw [words, ← flatten_splitOn]
  induction s.splitOn sep with
  | nil => rfl
  | cons p ps ih =>
    rw [List.filter_cons]
    by_cases hp : p = []
    · simp [hp, ih]
    · have he : (!p.isEmpty) = true := by simpa using hp
      rw [if_pos he, List.flatten_cons, List.flatten_cons, ih]

theorem words_eq_nil_iff (sep : α) (s : List α) : words sep s = [] ↔ ∀ c ∈ s, c = sep := by
  have hflat := flatten_words sep s
  constructor
  · intro h
    rw [h, List.flatten_nil, eq_comm, List.filter_eq_nil_iff] at hflat
    simpa using hflat
  · intro h
    have hnil : (words sep s).flatten = [] := by
      rw [hflat, List.filter_eq_nil_iff]
      simpa using h
    apply List.eq_nil_iff_forall_not_mem.mpr
    intro w hw
    exact (mem_words sep s w hw).1 (List.flatten_eq_nil_iff.mp hnil w hw)

/-- What is behind a text adds nothing to its words just when it is separators. -/
theorem words_append_eq_left_iff (sep : α) (s t : List α) :
    words sep (s ++ t) = words sep s ↔ ∀ c ∈ t, c = sep := by
  constructor
  · intro h
    have hflat := congrArg List.flatten h
    rw [flatten_words, flatten_words, List.filter_append, List.append_right_eq_self,
      List.filter_eq_nil_iff] at hflat
    simpa using hflat
  · intro h
    cases t with
    | nil => rw [List.append_nil]
    | cons c t =>
      obtain rfl := h c List.mem_cons_self
      have ht := (words_eq_nil_iff c t).mpr (fun d hd => h d (List.mem_cons_of_mem _ hd))
      have hsplit : words c (s ++ c :: t) = words c s ++ words c t := by
        rw [words, List.splitOn_append_cons_self, List.filter_append]
        rfl
      rw [hsplit, ht, List.append_nil]

/-- A character that separates nothing is in some word. -/
theorem mem_words_flatten {sep c : α} {s : List α} (hc : c ∈ s) (hne : c ≠ sep) :
    ∃ w ∈ words sep s, c ∈ w := by
  have h : c ∈ (words sep s).flatten := by
    rw [flatten_words]
    simpa [hne] using hc
  exact List.mem_flatten.mp h
/-- Up to a piece that is not empty nothing is dropped. -/
theorem split_getElem? (sep : α) (s p : List α) {i j : ℕ} (hij : i ≤ j)
    (hj : (s.splitOn sep)[j]? = some p) (hp : p ≠ []) :
    (split sep s)[i]? = (s.splitOn sep)[i]? := by
  unfold split
  split_ifs with hs
  · have hcut := (List.rdropWhile_append_rtakeWhile (l := s.splitOn sep) (p := List.isEmpty)).symm
    rw [hcut] at hj ⊢
    have hlt : j < ((s.splitOn sep).rdropWhile List.isEmpty).length := by
      by_contra hge
      rw [List.getElem?_append_right (by omega)] at hj
      have he := List.mem_rtakeWhile_imp (List.mem_of_getElem? hj)
      exact hp (by simpa using he)
    rw [List.getElem?_append_left (by omega), List.rdropWhile_append_rtakeWhile]
  · rw [List.splitOn_eq_singleton hs]

end Delimited
