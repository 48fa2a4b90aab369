import LuaIde.SourceLines

/-! The indices with which source lines are looked up: those of the list command, and the line
numbers that Lua counts while it reads the chunk. -/
namespace LuaIde

open LineText DecimalText InputStream

def currIsNewline (c : Char) : Prop := c = '\n' ∨ c = '\r'

instance (c : Char) : Decidable (currIsNewline c) := inferInstanceAs (Decidable (_ ∨ _))

/-- How often `inclinenumber` is called for a text: LF, CR, CR LF and LF CR end a line. -/
def lineEnds : Text → ℕ
  | [] => 0
  | [old] => if currIsNewline old then 1 else 0
  | old :: current :: cs =>
    if currIsNewline old then
      if currIsNewline current ∧ current ≠ old then lineEnds cs + 1
      else lineEnds (current :: cs) + 1
    else lineEnds (current :: cs)

/-- The line of an instruction made of what the chunk has up to a position. -/
def lineAt (chunk : Text) (position : ℕ) : ℤ := 1 + lineEnds (chunk.take position)

/-- No index lies outside of the list, unless it is empty: neither those of the list command nor
the line of the event, of which the hook looks up the text. -/
structure IndexedInRange (list args : List Text) (chunk : Text) (position : ℕ) : Prop where
  listed : Inspect.listCommand list args = .ok ()
  stopped : ∃ line, Inspect.getFileLine list (lineAt chunk position) = .ok line

/-- The first line is not negative, or no line is listed. -/
def listsForward (args : List Text) : Prop :=
  0 ≤ ((args[0]?.map atoi).map CInt.val).getD 1 ∨
    ∃ pLine, args[1]? = some pLine ∧
      ((atoi pLine).val = 0 ∨ (atoi pLine).val < ((args[0]?.map atoi).map CInt.val).getD 1)

theorem listCommand_of_empty (args : List Text) : Inspect.listCommand [] args = .ok () := by
  have hlines (f l : ℤ) : Inspect.listLines [] f l = .ok () :=
    (listLines_eq_ok [] f l).mpr fun _ _ _ => .inl rfl
  unfold Inspect.listCommand
  dsimp only
  by_cases hfirst : ((args[0]?.map atoi).map CInt.val).getD 1 = 0
  · rw [if_pos hfirst]
  · rw [if_neg hfirst]
    cases args[1]? with
    | none => exact hlines _ _
    | some pLine =>
      dsimp only
      split_ifs
      · exact hlines _ _
      · rfl
      · exact hlines _ _

/-- The list command stays inside of the list if it lists forward. -/
theorem listCommand_eq_ok {list : List Text} (hne : list ≠ []) (args : List Text) :
    Inspect.listCommand list args = .ok () ↔ listsForward args := by
  have hpos := List.length_pos_of_ne_nil hne
  have hlines (f l : ℤ) (hf : f ≠ 0) (hl : l ≤ list.length) :
      Inspect.listLines list f l = .ok () ↔ 0 ≤ f ∨ l < f := by
    rw [listLines_eq_ok]
    constructor
    · -- a loop that starts below 1 and is not empty starts with an index outside of the list
      intro h
      by_contra hbad
      have hfirst := (h f le_rfl (by omega)).resolve_left hne
      omega
    · intro h index _ _
      exact .inr ⟨by omega, by omega⟩
  unfold Inspect.listCommand listsForward
  dsimp only
  generalize ((args[0]?.map atoi).map CInt.val).getD 1 = first
  by_cases hfirst : first = 0
  · simp [hfirst]
  · rw [if_neg hfirst]
    cases args[1]? with
    | none =>
      simp only [reduceCtorEq, false_and, exists_false, or_false]
      split_ifs
      · rw [hlines _ _ hfirst (by omega)]
        omega
      · rw [hlines _ _ hfirst le_rfl]
        omega
    | some pLine =>
      simp only [Option.some.injEq, exists_eq_left']
      split_ifs with hmore hzero
      · rw [hlines _ _ hfirst le_rfl]
        omega
      · exact iff_of_true rfl (.inr (.inl hzero))
      · rw [hlines _ _ hfirst (by omega)]
        omega

/-- Exactly if the list is empty, or the list command lists forward and Lua has counted fewer
line ends in front of the event than the list has lines. -/
theorem indexedInRange_iff (list args : List Text) (chunk : Text) (position : ℕ) :
    IndexedInRange list args chunk position ↔
      list = [] ∨ (listsForward args ∧ lineEnds (chunk.take position) < list.length) := by
  by_cases hne : list = []
  · refine iff_of_true ⟨?_, (Inspect.getFileLine_isOk _ _).mpr (.inl hne)⟩ (.inl hne)
    rw [hne]
    exact listCommand_of_empty args
  · have hstopped : (∃ line, Inspect.getFileLine list (lineAt chunk position) = .ok line) ↔
        lineEnds (chunk.take position) < list.length := by
      rw [Inspect.getFileLine_isOk, or_iff_right hne, lineAt]
      omega
    rw [or_iff_right hne, ← listCommand_eq_ok hne, ← hstopped]
    exact ⟨fun h => ⟨h.listed, h.stopped⟩, fun h => ⟨h.1, h.2⟩⟩

/-- `list -3` at a stop in the only line of a script looks up the line with the index -3. -/
theorem negative_line_listed :
    ¬ IndexedInRange [txt "1  x = 1"] [txt "-3"] (txt "x = 1\n") 0 := by
  intro h
  have hforward := (listCommand_eq_ok (List.cons_ne_nil _ _) _).mp h.listed
  rcases hforward with h | ⟨pLine, hp, -⟩
  · exact absurd h (by decide)
  · cases hp

section OwnList

/-- The CRs that end a line on their own. -/
def loneReturns : Text → ℕ
  | [] => 0
  | [old] => if old = '\r' then 1 else 0
  | old :: current :: cs =>
    if currIsNewline old then
      if currIsNewline current ∧ current ≠ old then loneReturns cs
      else loneReturns (current :: cs) + if old = '\r' then 1 else 0
    else loneReturns (current :: cs)

/-- Lua counts the LFs, and the CRs without an LF next to them. -/
theorem lineEnds_eq (chunk : Text) : lineEnds chunk = chunk.count '\n' + loneReturns chunk := by
  induction chunk using lineEnds.induct with
  | case1 => rfl
  | case2 old h =>
    rcases h with rfl | rfl <;> decide
  | case3 old h =>
    obtain ⟨hn, hr⟩ := not_or.mp h
    simp [lineEnds, loneReturns, currIsNewline, hn, hr]
  | case4 old current cs hold hpair ih =>
    -- one of the two is the LF
    have hcount : (old :: current :: cs).count '\n' = cs.count '\n' + 1 := by
      rcases hold with rfl | rfl
      · rw [hpair.1.resolve_left hpair.2]
        simp
      · rw [hpair.1.resolve_right hpair.2]
        simp
    rw [lineEnds, loneReturns, if_pos hold, if_pos hpair, if_pos hold, if_pos hpair, hcount, ih]
    omega
  | case5 old current cs hold hpair ih =>
    rw [lineEnds, loneReturns, if_pos hold, if_neg hpair, if_pos hold, if_neg hpair, ih]
    rcases hold with rfl | rfl
    · rw [List.count_cons_self, if_neg (by decide)]
      omega
    · have hother : ('\r' :: current :: cs).count '\n' = (current :: cs).count '\n' :=
        List.count_cons_of_ne (by decide)
      rw [hother, if_pos rfl]
      omega
  | case6 old current cs hold ih =>
    have hne : old ≠ '\n' := fun h => hold (.inl h)
    rw [lineEnds, loneReturns, if_neg hold, if_neg hold, ih, List.count_cons_of_ne hne]

theorem length_linesOf_lastOverwritten {script : Text} (hne : script ≠ []) :
    (linesOf '\n' (lastOverwritten script)).length = script.dropLast.count '\n' + 1 := by
  have hclosed : closed '\n' (lastOverwritten script) = script.dropLast ++ ['\n'] := by
    rw [closed_lastOverwritten, lastOverwritten, if_neg hne]
  rw [length_linesOf, hclosed, List.count_append, List.count_singleton_self]

/-- If every CR in front of a stop has an LF next to it, the list that the scan of the script
keeps has the line of the stop. -/
theorem own_line_found {script name : Text} {position : ℕ} {m : ScriptLines}
    (hm : readSourcefromStringBuffer .unbounded script name (fun _ => []) = .ok m)
    (hz : '\x00' ∉ script) (hposition : position < script.length)
    (hlone : loneReturns (script.take position) = 0) :
    ∃ line, Inspect.getFileLine (m name) (lineAt script position) = .ok line := by
  rw [readSourcefromStringBuffer_eq, cstr_eq_self hz] at hm
  obtain ⟨-, rfl⟩ := storeLines_eq_ok.mp hm
  have hne : script ≠ [] := by
    rintro rfl
    cases hposition
  -- the LFs in front of the stop are not the last character
  have hcount : (script.take position).count '\n' ≤ script.dropLast.count '\n' := by
    rw [List.dropLast_eq_take]
    exact (List.take_sublist_take_left (by omega)).count_le '\n'
  have hlength := length_linesOf_lastOverwritten hne
  rw [Inspect.getFileLine_isOk, Function.update_self, lineAt, lineEnds_eq, hlone]
  simp only [List.nil_append, numberedFrom, List.length_mapIdx, hlength]
  omega

end OwnList

end LuaIde
