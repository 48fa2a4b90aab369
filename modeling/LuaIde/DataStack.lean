import LuaIde.PdaTarget
import LuaIde.StackTexts

/-! The register stack from ldb to the data stack of the IDE: the reply of
`stackDumpForIde` taken apart by `PDADebugTarget.getDataStack`. -/
namespace LuaIde

open LineText Delimited PDADebugTarget

/-- What is shown of a value. -/
def rendering : LuaValue → Text
  | .string s => s
  | .boolean b => if b then txt "true" else txt "false"
  | .number n => n.text
  | v => v.typename

/-- The line the IDE reads as the reply to `data`, with arrays as long as needed. -/
def dataReply (L : LuaState) : Reply :=
  match stackDumpForIde .unbounded L with
  | .ok results => .line (firstLine (results ++ ['\n']))
  | .error _ => .eof

/-- The values of the stack from the top down, each with its distance from the top. -/
def DataStackComesBack (L : LuaState) : Prop :=
  getDataStack (dataReply L) = .ok (numbered (L.stack.map rendering))

/-- A stack whose texts come through. Every number shows as the one read from the top, and
the empty text is lost at the end of the reply. -/
structure StackDumpable (L : LuaState) : Prop where
  strings : ∀ s, .string s ∈ L.stack → '|' ∉ s ∧ '\r' ∉ s ∧ '\x00' ∉ s
  numbers : ∀ n, .number n ∈ L.stack → n.text = topNumber L
  top : L.stack.getLast? ≠ some (.string [])

theorem dataReply_eq (L : LuaState) : dataReply L = .line (firstLine (dumpText L)) := by
  have h : stackDumpForIde .unbounded L = .ok (dumpText L) :=
    (stackDumpForIde_eq_ok _ Buffers.inhabited_unbounded L _).mpr ⟨rfl, rfl⟩
  simp only [dataReply, h, firstLine_newline]

theorem topNumber_not_mem (L : LuaState) {c : Char} (hc : c.isAlphanum = false)
    (hs : c ∉ ['+', '-', '.', '#']) : c ∉ topNumber L := by
  have hzero : c ∉ txt "0" := by
    intro h
    rw [List.mem_singleton.mp h] at hc
    exact absurd hc (by decide)
  unfold topNumber
  split
  · exact LuaNumber.not_mem _ hc hs
  · next s _ =>
    cases L.str2d s with
    | none => exact hzero
    | some n => exact n.not_mem hc hs
  · exact hzero

/-- A character no number and no type name has gets into the reply with a string only. -/
theorem dataText_not_mem (L : LuaState) (v : LuaValue) {c : Char} (hc : c.isAlphanum = false)
    (hs : c ∉ ['+', '-', '.', '#']) (hv : ∀ s, v = .string s → c ∉ cstr s) :
    c ∉ dataText L v := by
  have hword (s : String) (h : ∀ d ∈ txt s, d.isAlphanum = true) : c ∉ txt s := by
    intro hm
    simp [h c hm] at hc
  cases v with
  | string s => exact hv s rfl
  | number n => exact topNumber_not_mem L hc hs
  | boolean b => cases b <;> exact hword _ (by simp [txt])
  | _ => exact hword _ (by simp [txt])

/-- Only the empty string shows as nothing. -/
theorem rendering_eq_nil {v : LuaValue} : rendering v = [] ↔ v = .string [] := by
  cases v with
  | string s => simp [rendering]
  | number n => simpa [rendering] using n.ne_nil
  | boolean b => cases b <;> simp [rendering, txt]
  | _ => simp [rendering, LuaValue.typename, txt]

variable {L : LuaState}

theorem StackDumpable.dataText_eq (h : StackDumpable L) :
    ∀ v ∈ L.stack, dataText L v = rendering v := by
  intro v hv
  cases v with
  | string s => exact cstr_eq_self (h.strings s hv).2.2
  | number n => exact (h.numbers n hv).symm
  | _ => rfl

/-- Clean strings make a reply of one line that is cut where its pieces end. -/
theorem split_firstLine_dumpText (hne : L.stack ≠ [])
    (hstrings : ∀ s, .string s ∈ L.stack → '|' ∉ s ∧ OneLine s) :
    split '|' (firstLine (dumpText L)) = (L.stack.map (dataText L)).rdropWhile List.isEmpty := by
  have htext {c : Char} (hc : c.isAlphanum = false) (hs : c ∉ ['+', '-', '.', '#'])
      (hall : ∀ s, .string s ∈ L.stack → c ∉ s) : ∀ t ∈ L.stack.map (dataText L), c ∉ t := by
    rw [List.forall_mem_map]
    intro v hv
    exact dataText_not_mem L v hc hs (fun s he hm => hall s (he ▸ hv) (cstr_subset hm))
  have hline : OneLine (dumpText L) := by
    rw [dumpText, oneLine_terminated _ (by decide)]
    intro t ht
    exact ⟨htext (by decide) (by decide) (fun s hs => (hstrings s hs).2.1) t ht,
      htext (by decide) (by decide) (fun s hs => (hstrings s hs).2.2) t ht⟩
  rw [firstLine_eq_self hline, dumpText]
  exact split_terminated '|' _ (by simpa using hne)
    (htext (by decide) (by decide) (fun s hs => (hstrings s hs).1))

/-- What is read back is what was cut, unless the first line of the reply is empty. -/
theorem dataStackComesBack_iff (hne : L.stack ≠ []) :
    DataStackComesBack L ↔
      firstLine (dumpText L) ≠ [] ∧ split '|' (firstLine (dumpText L)) = L.stack.map rendering := by
  rw [DataStackComesBack, dataReply_eq, getDataStack_line, Except.ok.injEq]
  by_cases hfl : firstLine (dumpText L) = []
  · simp only [hfl, if_true, ne_eq, not_true_eq_false, false_and, iff_false]
    intro h
    exact hne (by simpa using h.symm)
  · rw [if_neg hfl, numbered_inj]
    simp [hfl]

/-- The values read back are pieces of the reply: no bar, no line end and no zero is in them. -/
theorem strings_of_comesBack (hne : L.stack ≠ []) (h : DataStackComesBack L) :
    ∀ s, .string s ∈ L.stack → '|' ∉ s ∧ OneLine s ∧ '\x00' ∉ s := by
  have hsplit := ((dataStackComesBack_iff hne).mp h).2
  intro s hs
  have hpiece : s ∈ split '|' (firstLine (dumpText L)) := by
    rw [hsplit]
    exact List.mem_map_of_mem (f := rendering) hs
  obtain ⟨hbar, hmem⟩ := mem_split '|' _ _ hpiece
  refine ⟨hbar, oneLine_of_subset hmem (oneLine_firstLine _), fun hz => ?_⟩
  rcases mem_terminated (firstLine_subset (hmem _ hz)) with hz | ⟨t, ht, hz⟩
  · exact absurd hz (by decide)
  · obtain ⟨v, -, rfl⟩ := List.mem_map.mp ht
    exact dataText_not_mem L v (by decide) (by decide) (fun s _ => zero_not_mem_cstr s) hz

theorem StackDumpable.comesBack (h : StackDumpable L)
    (hscript : ∀ s, .string s ∈ L.stack → '\n' ∉ s) : DataStackComesBack L := by
  by_cases hne : L.stack = []
  · have hd : dumpText L = [] := by simp [dumpText, hne]
    rw [DataStackComesBack, dataReply_eq, getDataStack_line, hne, hd]
    rfl
  · have hsplit := split_firstLine_dumpText hne
      (fun s hs => ⟨(h.strings s hs).1, hscript s hs, (h.strings s hs).2.1⟩)
    rw [List.map_congr_left h.dataText_eq] at hsplit
    -- the last piece is not empty, so nothing is dropped
    obtain ⟨vs, v, hv⟩ := (List.eq_nil_or_concat' L.stack).resolve_left hne
    have hlast : rendering v ≠ [] := by
      intro he
      apply h.top
      rw [hv, List.getLast?_concat, rendering_eq_nil.mp he]
    have hkeep : (L.stack.map rendering).rdropWhile List.isEmpty = L.stack.map rendering := by
      rw [hv, List.map_append, List.map_singleton]
      exact List.rdropWhile_concat_neg _ _ _ (by simpa using hlast)
    rw [hkeep] at hsplit
    refine (dataStackComesBack_iff hne).mpr ⟨fun hfl => ?_, hsplit⟩
    -- an empty line would be the one empty piece
    rw [hfl, split_of_not_mem _ _ (by simp), hv, List.map_append, List.map_singleton] at hsplit
    have he := congrArg List.getLast? hsplit
    rw [List.getLast?_concat] at he
    exact hlast (by simpa using he.symm)

theorem stackDumpable_of_comesBack (hne : L.stack ≠ []) (h : DataStackComesBack L) :
    StackDumpable L := by
  have hstrings := strings_of_comesBack hne h
  have hsplit := split_firstLine_dumpText hne (fun s hs => ⟨(hstrings s hs).1, (hstrings s hs).2.1⟩)
  rw [((dataStackComesBack_iff hne).mp h).2] at hsplit
  -- as many pieces come back as were written, so none was dropped
  have hall : L.stack.map (dataText L) = L.stack.map rendering := by
    rw [hsplit]
    symm
    apply (List.rdropWhile_prefix List.isEmpty _).eq_of_length
    rw [← hsplit, List.length_map, List.length_map]
  refine ⟨fun s hs => ⟨(hstrings s hs).1, (hstrings s hs).2.1.2, (hstrings s hs).2.2⟩, ?_, ?_⟩
  · intro n hn
    exact (List.map_inj_left.mp hall _ hn).symm
  · intro htop
    obtain ⟨vs, hv⟩ := List.getLast?_eq_some_iff.mp htop
    have hempty : (dataText L (.string [])).isEmpty = true := rfl
    rw [hv, List.map_append, List.map_append, List.map_singleton, List.map_singleton,
      List.rdropWhile_concat_pos _ _ _ hempty] at hsplit
    have hlen := (List.rdropWhile_prefix List.isEmpty (vs.map (dataText L))).length_le
    rw [← hsplit, List.length_append, List.length_map, List.length_map,
      List.length_singleton] at hlen
    omega

/-- The data stack of the IDE is the register stack just for these stacks. -/
theorem dataStack_comes_back_iff (L : LuaState) (hscript : ∀ s, .string s ∈ L.stack → '\n' ∉ s) :
    DataStackComesBack L ↔ StackDumpable L := by
  refine ⟨fun h => ?_, fun h => h.comesBack hscript⟩
  by_cases hne : L.stack = []
  · exact ⟨by simp [hne], by simp [hne], by simp [hne]⟩
  · exact stackDumpable_of_comesBack hne h

/-- A stop with two locals. -/
def twoLocals (a b : LuaValue) : LuaState :=
  (LuaState.mainChunk (txt "@a.lua") 3).withLocals [(txt "a", a), (txt "b", b)]

theorem number_and_string_come_back :
    DataStackComesBack (twoLocals (.string (txt "x y")) (.number (digit 1))) := by
  apply (dataStack_comes_back_iff _ (by simp [twoLocals, LuaState.withLocals, LuaState.stack,
    LuaState.mainChunk, LuaFrame.locals, txt])).mpr
  constructor
  all_goals simp [twoLocals, LuaState.withLocals, LuaState.stack, LuaState.mainChunk,
    LuaFrame.locals, txt, topNumber]

/-- The lower one of two numbers shows as the upper one. -/
theorem two_numbers_do_not_come_back :
    ¬ DataStackComesBack (twoLocals (.number (digit 1)) (.number (digit 2))) := by
  unfold DataStackComesBack
  decide +kernel

end LuaIde
