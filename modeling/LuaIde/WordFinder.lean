import LuaIde.LineText
import LuaIde.MaximalRun

/-! `WordFinder`: the identifier under the mouse pointer of the editor. -/
namespace LuaIde

open MaximalRun

/-- The `BadLocationException` of a document. -/
inductive BadLocation where
  | badLocation
deriving DecidableEq

/-- A region of a document. -/
structure Region where
  offset : ℤ
  length : ℤ
deriving DecidableEq

namespace WordFinder

variable {α : Type} (isJavaIdentifierPart : α → Bool) (document : List α)

def getChar (pos : ℕ) : Except BadLocation α :=
  match document[pos]? with
  | some c => .ok c
  | none => .error .badLocation

/-- The loop to the front, over `pos + 1`; it ends with -1 at the start of the document. -/
def findStart : ℕ → Except BadLocation ℤ
  | 0 => .ok (-1)
  | pos + 1 => do
    let c ← getChar document pos
    if isJavaIdentifierPart c then findStart pos else return (pos : ℤ)

/-- The loop to the back; the first argument is `length - pos`. -/
def findEnd : ℕ → ℕ → Except BadLocation ℤ
  | 0, pos => .ok pos
  | rest + 1, pos => do
    let c ← getChar document pos
    if isJavaIdentifierPart c then findEnd rest (pos + 1) else return (pos : ℤ)

/-- Both loops, as far as they get: an exception leaves -1 in what it does not reach. -/
def borders (offset : ℕ) : ℤ × ℤ :=
  match findStart isJavaIdentifierPart document (offset + 1) with
  | .error _ => (-1, -1)
  | .ok start =>
    match findEnd isJavaIdentifierPart document (document.length - offset) offset with
    | .error _ => (start, -1)
    | .ok stop => (start, stop)

/-- `WordFinder.findWord`; `none` is null. -/
def findWord (offset : ℕ) : Option Region :=
  let (start, stop) := borders isJavaIdentifierPart document offset
  if start > -1 ∧ stop > -1 then
    if start = offset ∧ stop = offset then some ⟨offset, 0⟩
    else if start = offset then some ⟨start, stop - start⟩
    else some ⟨start + 1, stop - start - 1⟩
  else none

/-- What the hover is for: the whole word at the offset, and nothing but words. -/
structure FindsWord (offset : ℕ) : Prop where
  whole : Holds isJavaIdentifierPart document offset →
    ∃ start stop : ℕ, IsRun isJavaIdentifierPart document start stop ∧
      (start ≤ offset ∧ offset < stop) ∧
      findWord isJavaIdentifierPart document offset = some ⟨start, (stop : ℤ) - start⟩
  nothing : (findWord isJavaIdentifierPart document offset = none ∨
      ∃ o, findWord isJavaIdentifierPart document offset = some ⟨o, 0⟩) ↔
    ¬ Holds isJavaIdentifierPart document offset

variable {isJavaIdentifierPart document}

theorem getChar_eq_ok {pos : ℕ} {c : α} :
    getChar document pos = .ok c ↔ document[pos]? = some c := by
  unfold getChar
  cases h : document[pos]? <;> simp

theorem getChar_of_lt {pos : ℕ} (h : pos < document.length) :
    getChar document pos = .ok document[pos] :=
  getChar_eq_ok.mpr (List.getElem?_eq_getElem h)

theorem findStart_succ {pos : ℕ} (h : pos < document.length) :
    findStart isJavaIdentifierPart document (pos + 1) =
      if isJavaIdentifierPart document[pos] then findStart isJavaIdentifierPart document pos
      else .ok (pos : ℤ) := by
  rw [findStart, getChar_of_lt h]
  rfl

theorem findEnd_succ {rest pos : ℕ} (h : pos < document.length) :
    findEnd isJavaIdentifierPart document (rest + 1) pos =
      if isJavaIdentifierPart document[pos] then
        findEnd isJavaIdentifierPart document rest (pos + 1)
      else .ok (pos : ℤ) := by
  rw [findEnd, getChar_of_lt h]
  rfl

theorem holds_getElem (isJavaIdentifierPart : α → Bool) {pos : ℕ} (h : pos < document.length) :
    Holds isJavaIdentifierPart document pos ↔ isJavaIdentifierPart document[pos] :=
  holds_iff_of_getElem? (List.getElem?_eq_getElem h)

/-- The loop to the front stops in front of the run. -/
theorem findStart_spec (isJavaIdentifierPart : α → Bool) (n : ℕ) (hn : n ≤ document.length) :
    ∃ start ≤ n, findStart isJavaIdentifierPart document n = .ok ((start : ℤ) - 1) ∧
      (∀ i, start ≤ i → i < n → Holds isJavaIdentifierPart document i) ∧
      ∀ i, i + 1 = start → ¬ Holds isJavaIdentifierPart document i := by
  induction n with
  | zero =>
    refine ⟨0, le_rfl, rfl, ?_, ?_⟩
    · intro i _ hi
      omega
    · intro i hi
      omega
  | succ pos ih =>
    have hholds := holds_getElem isJavaIdentifierPart hn
    by_cases hpart : isJavaIdentifierPart document[pos]
    · obtain ⟨start, hle, hs, hin, hleft⟩ := ih (by omega)
      refine ⟨start, by omega, ?_, ?_, hleft⟩
      · rw [findStart_succ hn, if_pos hpart, hs]
      · intro i hi hlt
        rcases Nat.lt_succ_iff_lt_or_eq.mp hlt with h | h
        · exact hin i hi h
        · exact h ▸ hholds.mpr hpart
    · refine ⟨pos + 1, le_rfl, ?_, ?_, ?_⟩
      · rw [findStart_succ hn, if_neg hpart]
        simp
      · intro i hi hlt
        omega
      · intro i hi
        obtain rfl : i = pos := by omega
        exact fun h => hpart (hholds.mp h)

/-- The loop to the back stops behind the run. -/
theorem findEnd_spec (isJavaIdentifierPart : α → Bool) (rest pos : ℕ)
    (h : pos + rest = document.length) :
    ∃ stop : ℕ, findEnd isJavaIdentifierPart document rest pos = .ok (stop : ℤ) ∧ pos ≤ stop ∧
      (∀ i, pos ≤ i → i < stop → Holds isJavaIdentifierPart document i) ∧
      ¬ Holds isJavaIdentifierPart document stop := by
  induction rest generalizing pos with
  | zero =>
    refine ⟨pos, rfl, le_rfl, ?_, ?_⟩
    · intro i hi hlt
      omega
    · intro hp
      have := hp.lt
      omega
  | succ rest ih =>
    have hpos : pos < document.length := by omega
    have hholds := holds_getElem isJavaIdentifierPart hpos
    by_cases hpart : isJavaIdentifierPart document[pos]
    · obtain ⟨stop, hs, hle, hin, hright⟩ := ih (pos + 1) (by omega)
      refine ⟨stop, ?_, by omega, ?_, hright⟩
      · rw [findEnd_succ hpos, if_pos hpart, hs]
      · intro i hi hlt
        rcases Nat.eq_or_lt_of_le hi with h | h
        · exact h ▸ hholds.mpr hpart
        · exact hin i h hlt
    · refine ⟨pos, ?_, le_rfl, ?_, fun h => hpart (hholds.mp h)⟩
      · rw [findEnd_succ hpos, if_neg hpart]
      · intro i hi hlt
        omega

/-- At or behind the end of the document there is no word. -/
theorem findWord_of_length_le {offset : ℕ} (h : document.length ≤ offset) :
    findWord isJavaIdentifierPart document offset = none := by
  have hget : getChar document offset = .error .badLocation := by
    rw [getChar, List.getElem?_eq_none h]
  have hb : borders isJavaIdentifierPart document offset = (-1, -1) := by
    rw [borders, findStart, hget]
    rfl
  simp [findWord, hb]

/-- `start` is the first character of the run of identifier characters that ends in front
of or at the offset, `stop` the first character behind it. -/
theorem borders_spec {offset : ℕ} (h : offset < document.length) :
    ∃ start stop : ℕ, borders isJavaIdentifierPart document offset = ((start : ℤ) - 1, ↑stop) ∧
      start ≤ offset + 1 ∧ offset ≤ stop ∧
      (∀ i, start ≤ i → i ≤ offset → Holds isJavaIdentifierPart document i) ∧
      (∀ i, i + 1 = start → ¬ Holds isJavaIdentifierPart document i) ∧
      (∀ i, offset ≤ i → i < stop → Holds isJavaIdentifierPart document i) ∧
      ¬ Holds isJavaIdentifierPart document stop := by
  have hlength : offset + (document.length - offset) = document.length := by omega
  obtain ⟨start, hle, hs, hin, hleft⟩ := findStart_spec isJavaIdentifierPart (offset + 1) h
  obtain ⟨stop, he, hge, hin', hright⟩ :=
    findEnd_spec isJavaIdentifierPart (document.length - offset) offset hlength
  refine ⟨start, stop, ?_, hle, hge, ?_, hleft, hin', hright⟩
  · rw [borders, hs, he]
  · intro i hi hlt
    exact hin i hi (by omega)

/-- On an identifier character the result is the maximal run around it, or null where that
run starts the document. -/
theorem findWord_of_holds {offset : ℕ} (h : Holds isJavaIdentifierPart document offset) :
    ∃ start stop : ℕ, IsRun isJavaIdentifierPart document start stop ∧
      (start ≤ offset ∧ offset < stop) ∧
      findWord isJavaIdentifierPart document offset =
        if start = 0 then none else some ⟨start, (stop : ℤ) - start⟩ := by
  obtain ⟨start, stop, hb, hle, hge, hin, hleft, hin', hright⟩ := borders_spec h.lt
  have hstart : start ≤ offset := by
    by_contra hlt
    exact hleft offset (by omega) h
  have hstop : offset < stop := by
    rcases Nat.eq_or_lt_of_le hge with heq | hlt
    · exact absurd (heq ▸ h) hright
    · exact hlt
  refine ⟨start, stop, ⟨?_, hleft, hright⟩, ⟨hstart, hstop⟩, ?_⟩
  · intro i hi hlt
    by_cases hio : i ≤ offset
    · exact hin i hi hio
    · exact hin' i (by omega) hlt
  · by_cases h0 : start = 0
    · simp [findWord, hb, h0]
    · have h1 : (start : ℤ) - 1 > -1 ∧ (stop : ℤ) > -1 := by omega
      have h2 : ¬ ((start : ℤ) - 1 = offset ∧ (stop : ℤ) = offset) := by omega
      have h3 : ¬ ((start : ℤ) - 1 = offset) := by omega
      have h4 : (start : ℤ) - 1 + 1 = start := by omega
      have h5 : (stop : ℤ) - (start - 1) - 1 = stop - start := by omega
      simp only [findWord, hb, if_pos h1, if_neg h2, if_neg h3, if_neg h0, h4, h5]

/-- On any other character the result is the empty region there. -/
theorem findWord_of_not_holds {offset : ℕ} (hlt : offset < document.length)
    (h : ¬ Holds isJavaIdentifierPart document offset) :
    findWord isJavaIdentifierPart document offset = some ⟨offset, 0⟩ := by
  obtain ⟨start, stop, hb, hle, hge, hin, -, hin', -⟩ := borders_spec hlt
  have hstart : start = offset + 1 := by
    by_contra hne
    exact h (hin offset (by omega) le_rfl)
  have hstop : stop = offset := by
    by_contra hne
    exact h (hin' offset le_rfl (by omega))
  have h1 : (start : ℤ) - 1 > -1 ∧ (stop : ℤ) > -1 := by omega
  have h2 : (start : ℤ) - 1 = offset ∧ (stop : ℤ) = offset := by omega
  simp only [findWord, hb, if_pos h1, if_pos h2]

/-- Whichever maximal run is around the offset, it is the one that is found. -/
theorem FindsWord.region {start stop : ℕ}
    (h : FindsWord isJavaIdentifierPart document offset)
    (hrun : IsRun isJavaIdentifierPart document start stop)
    (haround : start ≤ offset ∧ offset < stop) :
    findWord isJavaIdentifierPart document offset = some ⟨start, (stop : ℤ) - start⟩ := by
  obtain ⟨start', stop', hrun', haround', hfind⟩ :=
    h.whole (hrun.inside offset haround.1 haround.2)
  obtain ⟨rfl, rfl⟩ := hrun'.unique hrun haround' haround
  exact hfind

/-- The hover finds the word exactly where some character at or in front of the offset is
no identifier character: -1 is also how the loop to the front ends at the start of the
document, and the test takes it for a failure. -/
theorem findsWord_iff (isJavaIdentifierPart : α → Bool) (document : List α) (offset : ℕ) :
    FindsWord isJavaIdentifierPart document offset ↔
      ∃ i ≤ offset, ¬ Holds isJavaIdentifierPart document i := by
  by_cases h : Holds isJavaIdentifierPart document offset
  · obtain ⟨start, stop, hrun, haround, hfind⟩ := findWord_of_holds h
    by_cases h0 : start = 0
    · -- everything up to the offset is in the run
      have hall : ¬ ∃ i ≤ offset, ¬ Holds isJavaIdentifierPart document i := by
        rintro ⟨i, hi, hn⟩
        exact hn (hrun.inside i (by omega) (by omega))
      refine iff_of_false ?_ hall
      intro hf
      exact (hf.nothing.mp (Or.inl (by rw [hfind, if_pos h0]))) h
    · rw [if_neg h0] at hfind
      refine iff_of_true ⟨fun _ => ⟨start, stop, hrun, haround, hfind⟩, ?_⟩ ?_
      · refine iff_of_false ?_ (not_not.mpr h)
        rintro (hn | ⟨o, ho⟩)
        · rw [hfind] at hn
          exact nomatch hn
        · rw [hfind, Option.some.injEq, Region.mk.injEq] at ho
          omega
      · exact ⟨start - 1, by omega, hrun.left (start - 1) (by omega)⟩
  · refine iff_of_true ⟨fun hh => absurd hh h, iff_of_true ?_ h⟩ ⟨offset, le_rfl, h⟩
    by_cases hlt : offset < document.length
    · exact Or.inr ⟨offset, findWord_of_not_holds hlt h⟩
    · exact Or.inl (findWord_of_length_le (by omega))

/-- `Character.isJavaIdentifierPart` on the ASCII characters. -/
def asciiIdentifierPart (c : Char) : Bool :=
  c.isAlphanum || c == '_' || c == '$' || c.toNat ≤ 8 ||
    (0x0E ≤ c.toNat && c.toNat ≤ 0x1B) || c.toNat == 0x7F

/-- The `x` at the start of `x = 1`. -/
theorem first_word_missed :
    findWord asciiIdentifierPart (txt "x = 1") 0 = none ∧
      ¬ FindsWord asciiIdentifierPart (txt "x = 1") 0 := by
  refine ⟨by decide, ?_⟩
  rw [findsWord_iff]
  decide

end WordFinder

end LuaIde
