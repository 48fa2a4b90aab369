import LuaIde.PdaDecoding
import LuaIde.StackTexts

/-! One local from the stopped program to the value the IDE shows: the reply of
`getLocalVarValue` taken apart by `PDAVariable.getValue`. -/
namespace LuaIde

open LineText DecimalText Delimited CheckedFold

theorem varRoom_unbounded (L : LuaState) (nLevel : ℤ) (name : Text) :
    varRoom .unbounded L nLevel (some name) := by
  refine ⟨rfl, fun _ _ => .inl (by simp), fun i n v _ => ⟨?_, rfl⟩⟩
  cases v with
  | table ref => exact fun e _ => elementRoom_unbounded n e.1 e.2
  | _ => rfl

theorem getLocalVarValue_unbounded (L : LuaState) (nLevel : ℤ) (name : Text) :
    getLocalVarValue .unbounded L nLevel (some name) = .ok (varText L nLevel (some name)) :=
  (getLocalVarValue_eq_ok _ Buffers.inhabited_unbounded L nLevel (some name) _).mpr
    ⟨varRoom_unbounded L nLevel name, rfl⟩

/-- The line the IDE reads as the reply for a local, with arrays as long as needed. -/
def localReply (L : LuaState) (nLevel : ℤ) (name : Text) : Reply :=
  match getLocalVarValue .unbounded L nLevel (some name) with
  | .ok val => .line (firstLine (val ++ ['\n']))
  | .error _ => .eof

/-- The local number `i+1` of that level, with no earlier local of the same name. -/
def FirstOfName (L : LuaState) (nLevel : ℤ) (i : ℕ) (name : Text) (v : LuaValue) : Prop :=
  ∃ level, L.getstack nLevel = some level ∧ (L.getlocals level)[i]? = some (name, v) ∧
    ∀ x ∈ (L.getlocals level).take i, x.1 ≠ name

/-- The value shown represents the Lua value: a number or a boolean as Lua writes it, a
string by its first 63 characters, a table by one child for each element, and any other
value by some text without children. -/
def Represents (L : LuaState) (name : Text) (shown : PDAValue) : LuaValue → Prop
  | .number n => shown = ⟨some n.text, []⟩
  | .boolean b => shown = ⟨some (if b then txt "true" else txt "false"), []⟩
  | .string s => shown = ⟨some (s.take 63), []⟩
  | .table ref => shown = ⟨some (txt "table"), (L.heap ref).map (child name)⟩
  | _ => shown.fValue ≠ none ∧ shown.vars = []

/-- The values that come through. For the local number `i+1` the encoder looks for the
truth of a boolean in the stack slot behind that number. -/
def ComesThrough (L : LuaState) (i : ℕ) (name : Text) : LuaValue → Prop
  | .boolean b => (L.slot [.boolean b] (i+2)).toboolean = b
  | .string s => ∀ c ∈ s.take 63, c ≠ '|' ∧ c ≠ '\n' ∧ c ≠ '\r' ∧ c ≠ '\x00'
  | .table ref => L.heap ref ≠ [] ∧
      ∀ e ∈ L.heap ref, CleanElement name e ∧ e.2.printIt ≠ []
  | _ => True

theorem localReply_eq (L : LuaState) (nLevel : ℤ) (i : ℕ) (name : Text) (v : LuaValue)
    (h : FirstOfName L nLevel i name v) :
    localReply L nLevel name = .line (firstLine (localText L (i+1) name v)) := by
  obtain ⟨level, hlevel, hget, hfirst⟩ := h
  have hw : wantedLocal L nLevel (some name) = some (1 + i, name, v) := by
    rw [wantedLocal, hlevel, Option.bind_some]
    exact firstLocal_of_getElem hget hfirst
  rw [localReply, getLocalVarValue_unbounded]
  simp only [firstLine_newline, varText, hw]
  rw [Nat.add_comm]

theorem getValue_local (name : Text) (frame : ℕ) (sendRequest : Text → Reply) (line : Text)
    (h : sendRequest (PDAVariable.varRequest frame name) = .line line) :
    (PDAVariable.new name : Variable).getValue frame sendRequest =
      if '|' ∈ line then PDAVariable.init line else .ok ⟨some line, []⟩ := by
  simp only [PDAVariable.getValue, PDAVariable.new, Bool.false_eq_true, and_self, if_false, h]

theorem init_eq_ok {line : Text} {value : PDAValue} :
    PDAVariable.init line = .ok value ↔
      value.fValue = some (txt "table") ∧
        List.Forall₂ (fun s e => tableElement s = .ok e) (split '|' line) value.vars := by
  rw [PDAVariable.init, bind_eq_ok]
  constructor
  · rintro ⟨vars, hvars, hv⟩
    obtain rfl : (⟨some (txt "table"), vars⟩ : PDAValue) = value := Except.ok.inj hv
    exact ⟨rfl, mapM_eq_ok.mp hvars⟩
  · rintro ⟨hval, hvars⟩
    refine ⟨value.vars, mapM_eq_ok.mpr hvars, ?_⟩
    rw [← hval]
    rfl

/-- The value decoded from a reply line. -/
def decodeLocal (line : Text) : Except JavaError PDAValue :=
  if '|' ∈ line then PDAVariable.init line else .ok ⟨some line, []⟩

theorem decodeLocal_scalar {t : Text} (hbar : '|' ∉ t) (ho : OneLine t) :
    decodeLocal (firstLine t) = .ok ⟨some t, []⟩ := by
  rw [firstLine_eq_self ho, decodeLocal, if_neg hbar]

/-- A string comes back as its first 63 characters just if none of them is special. -/
theorem decodeLocal_string_iff (s : Text) :
    decodeLocal (firstLine ((cstr s).take 63)) = .ok ⟨some (s.take 63), []⟩ ↔
      ∀ c ∈ s.take 63, c ≠ '|' ∧ c ≠ '\n' ∧ c ≠ '\r' ∧ c ≠ '\x00' := by
  have hsub {c : Char} (hc : c ∈ firstLine ((cstr s).take 63)) : c ∈ s.take 63 := by
    have hline := firstLine_subset hc
    rw [cstr, List.take_takeWhile] at hline
    exact cstr_subset hline
  constructor
  · intro h
    by_cases hbar : '|' ∈ firstLine ((cstr s).take 63)
    · -- a structured value would have to show the word `table`
      rw [decodeLocal, if_pos hbar] at h
      have htable : some (s.take 63) = some (txt "table") := (init_eq_ok.mp h).1
      have hmem := hsub hbar
      rw [Option.some.inj htable] at hmem
      exact absurd hmem (by decide)
    · rw [decodeLocal, if_neg hbar] at h
      have hself : firstLine ((cstr s).take 63) = s.take 63 :=
        Option.some.inj (congrArg PDAValue.fValue (Except.ok.inj h))
      intro c hc
      have hc' := hself ▸ hc
      have hline := oneLine_firstLine ((cstr s).take 63)
      refine ⟨?_, ?_, ?_, ?_⟩
      · rintro rfl
        exact hbar hc'
      · rintro rfl
        exact hline.1 hc'
      · rintro rfl
        exact hline.2 hc'
      · rintro rfl
        exact zero_not_mem_cstr s (List.mem_of_mem_take (firstLine_subset hc'))
  · intro h
    have hcstr : (cstr s).take 63 = s.take 63 := by
      rw [cstr, List.take_takeWhile]
      exact cstr_eq_self (fun hm => (h _ hm).2.2.2 rfl)
    rw [hcstr]
    exact decodeLocal_scalar (fun hm => (h _ hm).1 rfl)
      ⟨fun hm => (h _ hm).2.1 rfl, fun hm => (h _ hm).2.2.1 rfl⟩

theorem forall₂_map_left {α β γ : Type} {R : β → γ → Prop} {f : α → β} {g : α → γ} {l : List α} :
    List.Forall₂ R (l.map f) (l.map g) ↔ ∀ a ∈ l, R (f a) (g a) := by
  rw [List.forall₂_map_left_iff, List.forall₂_map_right_iff, List.forall₂_same]

/-- The pieces of a table whose elements are clean. -/
theorem split_pieces (name : Text) (es : Table) (hne : es ≠ [])
    (h : ∀ e ∈ es, CleanElement name e) :
    split '|' (terminated '|' (es.map (elementPiece name))) = es.map (elementPiece name) := by
  obtain ⟨es', e, rfl⟩ := (List.eq_nil_or_concat es).resolve_left hne
  rw [List.concat_eq_append, List.map_append, List.map_singleton]
  apply split_terminated_last
  · exact elementPiece_ne_nil name e
  · intro q hq
    rw [← List.map_singleton, ← List.map_append] at hq
    obtain ⟨x, hx, rfl⟩ := List.mem_map.mp hq
    exact (elementPiece_clean (h x (by rwa [List.concat_eq_append]))).1

/-- A table comes back with its children just if it is not empty and each of its elements
is clean and has a value to show. -/
theorem decodeLocal_table_iff (name : Text) (es : Table) :
    decodeLocal (firstLine (es.flatMap (fun e => elementText name e.1 e.2))) =
        .ok ⟨some (txt "table"), es.map (child name)⟩ ↔
      es ≠ [] ∧ ∀ e ∈ es, CleanElement name e ∧ e.2.printIt ≠ [] := by
  rw [flatMap_elementText]
  -- clean elements leave one line, cut at the ends of its pieces
  have hclean (hne : es ≠ []) (hc : ∀ e ∈ es, CleanElement name e) :
      decodeLocal (firstLine (terminated '|' (es.map (elementPiece name)))) =
          .ok ⟨some (txt "table"), es.map (child name)⟩ ↔ ∀ e ∈ es, e.2.printIt ≠ [] := by
    have hone : OneLine (terminated '|' (es.map (elementPiece name))) := by
      rw [oneLine_terminated '|' (by decide), List.forall_mem_map]
      exact fun e he => (elementPiece_clean (hc e he)).2
    have hbar : '|' ∈ terminated '|' (es.map (elementPiece name)) := by
      obtain ⟨e, es', rfl⟩ := List.exists_cons_of_ne_nil hne
      simp
    rw [firstLine_eq_self hone, decodeLocal, if_pos hbar, init_eq_ok,
      split_pieces name es hne hc, forall₂_map_left]
    simp only [true_and]
    exact forall₂_congr fun e he => tableElement_piece_iff (hc e he)
  constructor
  · intro h
    have hne : es ≠ [] := by
      rintro rfl
      have hempty : decodeLocal [] ≠ .ok ⟨some (txt "table"), []⟩ := by decide
      exact hempty h
    have hc : ∀ e ∈ es, CleanElement name e := by
      intro e he
      have hline := oneLine_firstLine (terminated '|' (es.map (elementPiece name)))
      by_cases hbar : '|' ∈ firstLine (terminated '|' (es.map (elementPiece name)))
      · -- each child was made from a part of the reply, which has no separator in it
        rw [decodeLocal, if_pos hbar, init_eq_ok] at h
        obtain ⟨s, hs, hse⟩ := exists_of_mem_right h.2 (List.mem_map_of_mem he)
        obtain ⟨hns, hsub⟩ := mem_split '|' _ s hs
        exact clean_of_tableElement hns (oneLine_of_subset hsub hline) hse
      · rw [decodeLocal, if_neg hbar] at h
        have hnil := congrArg PDAValue.vars (Except.ok.inj h)
        exact absurd (List.map_eq_nil_iff.mp hnil.symm) hne
    exact ⟨hne, fun e he => ⟨hc e he, (hclean hne hc).mp h e he⟩⟩
  · rintro ⟨hne, hall⟩
    exact (hclean hne (fun e he => (hall e he).1)).mpr (fun e he => (hall e he).2)

/-- The value the IDE shows for a local is `decodeLocal` of the line ldb sends for it. -/
theorem getValue_localReply (L : LuaState) (nLevel : ℤ) (i frame : ℕ) (name : Text) (v : LuaValue)
    (h : FirstOfName L nLevel i name v) :
    (PDAVariable.new name : Variable).getValue frame (fun _ => localReply L nLevel name) =
      decodeLocal (firstLine (localText L (i+1) name v)) :=
  getValue_local name frame _ _ (localReply_eq L nLevel i name v h)

/-- A stop with one local `x`. -/
def oneLocal (v : LuaValue) : LuaState :=
  (LuaState.mainChunk (txt "a.lua") 1).withLocals [(txt "x", v)]

end LuaIde
