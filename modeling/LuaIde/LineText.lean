import LuaIde.DelimitedText

/-! Texts as lists of characters, C strings, and the lines a buffered reader cuts
out of a stream: a line ends at LF, at CR or at CR LF. -/

abbrev Text := List Char

/-- A literal text. -/
def txt (s : String) : Text := s.toList

namespace LineText

open Delimited

/-- The part of a byte string that C string functions see. -/
def cstr (s : Text) : Text := s.takeWhile (fun c => decide (c ≠ '\x00'))

/-- No character of the text ends a line. -/
def OneLine (s : Text) : Prop := '\n' ∉ s ∧ '\r' ∉ s

instance (s : Text) : Decidable (OneLine s) := inferInstanceAs (Decidable (_ ∧ _))

/-- The text up to its first line end. -/
def firstLine (s : Text) : Text := s.takeWhile (fun c => decide (c ≠ '\n' ∧ c ≠ '\r'))

/-- The complete lines of a stream. `skip` records that a CR has just ended a line,
so that an LF right behind it belongs to the same line end. -/
def linesFrom (skip : Bool) (line : Text) : Text → List Text
  | [] => []
  | c :: cs =>
    if c = '\n' then
      if skip then linesFrom false line cs else line.reverse :: linesFrom false [] cs
    else if c = '\r' then line.reverse :: linesFrom true [] cs
    else linesFrom false (c :: line) cs

def lines (s : Text) : List Text := linesFrom false [] s

theorem cstr_append {s : Text} (h : '\x00' ∉ s) (t : Text) : cstr (s ++ t) = s ++ cstr t :=
  Delimited.takeWhile_append_of_not_mem h t

theorem cstr_eq_self {s : Text} (h : '\x00' ∉ s) : cstr s = s := by
  simpa [cstr] using cstr_append h []

theorem cstr_eq_self_iff (s : Text) : cstr s = s ↔ '\x00' ∉ s := by
  refine ⟨fun h hz => ?_, cstr_eq_self⟩
  have hc := List.takeWhile_eq_self_iff.mp h '\x00' hz
  simp at hc

theorem cstr_subset {s : Text} {c : Char} (h : c ∈ cstr s) : c ∈ s :=
  (List.takeWhile_prefix _).subset h

theorem zero_not_mem_cstr (s : Text) : '\x00' ∉ cstr s := by
  intro h
  have hc := List.mem_takeWhile_imp h
  simp at hc

theorem cstr_cstr (s : Text) : cstr (cstr s) = cstr s := cstr_eq_self (zero_not_mem_cstr s)

@[simp] theorem oneLine_nil : OneLine [] := by simp [OneLine]

theorem oneLine_append (s t : Text) : OneLine (s ++ t) ↔ OneLine s ∧ OneLine t := by
  simp only [OneLine, List.mem_append]
  tauto

theorem oneLine_cons (c : Char) (s : Text) :
    OneLine (c :: s) ↔ (c ≠ '\n' ∧ c ≠ '\r') ∧ OneLine s := by
  simp only [OneLine, List.mem_cons]
  tauto

theorem oneLine_of_subset {s t : Text} (h : ∀ c ∈ s, c ∈ t) (ht : OneLine t) : OneLine s :=
  ⟨fun hn => ht.1 (h _ hn), fun hr => ht.2 (h _ hr)⟩

theorem oneLine_flatMap {α : Type*} (f : α → Text) (l : List α) :
    OneLine (l.flatMap f) ↔ ∀ a ∈ l, OneLine (f a) := by
  induction l with
  | nil => simp
  | cons a l ih => simp [List.flatMap_cons, oneLine_append, ih]

theorem oneLine_terminated (sep : Char) (hsep : sep ≠ '\n' ∧ sep ≠ '\r') (ps : List Text) :
    OneLine (terminated sep ps) ↔ ∀ p ∈ ps, OneLine p := by
  rw [terminated, oneLine_flatMap]
  simp [oneLine_append, oneLine_cons, hsep.1, hsep.2]

theorem oneLine_firstLine (s : Text) : OneLine (firstLine s) := by
  constructor <;> intro h
  · have := List.mem_takeWhile_imp h
    simp at this
  · have := List.mem_takeWhile_imp h
    simp at this

theorem firstLine_subset {s : Text} {c : Char} (h : c ∈ firstLine s) : c ∈ s :=
  (List.takeWhile_prefix _).subset h

theorem firstLine_eq_self {s : Text} (h : OneLine s) : firstLine s = s := by
  apply List.takeWhile_eq_self_iff.mpr
  intro c hc
  simp only [decide_eq_true_eq]
  exact ⟨fun he => h.1 (he ▸ hc), fun he => h.2 (he ▸ hc)⟩

/-- The newline a writer puts behind a text does not change what is read of it. -/
theorem firstLine_newline (s : Text) : firstLine (s ++ ['\n']) = firstLine s := by
  induction s with
  | nil => rfl
  | cons c s ih =>
    unfold firstLine at ih ⊢
    rw [List.cons_append, List.takeWhile_cons, List.takeWhile_cons, ih]

theorem linesFrom_append_newline (s t line : Text) (h : OneLine s) (skip : Bool)
    (hskip : skip = true → s ≠ []) :
    linesFrom skip line (s ++ '\n' :: t) = (line.reverse ++ s) :: linesFrom false [] t := by
  induction s generalizing skip line with
  | nil =>
    have hf : skip = false := by
      cases skip
      · rfl
      · exact absurd rfl (hskip rfl)
    simp [linesFrom, hf]
  | cons c s ih =>
    obtain ⟨⟨hn, hr⟩, hs⟩ := (oneLine_cons c s).mp h
    rw [List.cons_append, linesFrom, if_neg hn, if_neg hr, ih (c :: line) hs false (by simp)]
    simp

/-- A reader cuts a stream of newline-terminated lines where its writer ended them. -/
theorem lines_terminated_append (ps : List Text) (t : Text) (h : ∀ p ∈ ps, OneLine p) :
    lines (terminated '\n' ps ++ t) = ps ++ lines t := by
  induction ps with
  | nil => simp
  | cons p ps ih =>
    have hp : OneLine p := h p List.mem_cons_self
    have hps : ∀ q ∈ ps, OneLine q := fun q hq => h q (List.mem_cons_of_mem p hq)
    rw [terminated_cons, List.append_assoc, List.cons_append, lines,
      linesFrom_append_newline p _ [] hp false (by simp), List.reverse_nil, List.nil_append]
    exact congrArg (p :: ·) (ih hps)

theorem lines_terminated (ps : List Text) (h : ∀ p ∈ ps, OneLine p) :
    lines (terminated '\n' ps) = ps := by
  simpa [lines, linesFrom] using lines_terminated_append ps [] h

/-- A longer stream has the same lines in front. -/
theorem linesFrom_prefix (skip : Bool) (line s t : Text) :
    linesFrom skip line s <+: linesFrom skip line (s ++ t) := by
  induction s generalizing skip line with
  | nil => simp [linesFrom]
  | cons c s ih =>
    simp only [List.cons_append, linesFrom]
    split_ifs
    · exact ih false line
    · exact (List.prefix_cons_inj _).mpr (ih false [])
    · exact (List.prefix_cons_inj _).mpr (ih true [])
    · exact ih false (c :: line)

theorem lines_prefix {s t : Text} (h : s <+: t) : lines s <+: lines t := by
  obtain ⟨u, rfl⟩ := h
  exact linesFrom_prefix false [] s u

end LineText
