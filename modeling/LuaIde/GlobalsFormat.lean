import LuaIde.PdaDecoding

/-! The reply to `getglobals` as pieces between `|`, and the variables it is to be shown
as. -/
namespace LuaIde

open LineText DecimalText Delimited CheckedFold

/-- The line the IDE reads as the reply to `getglobals`, with arrays as long as needed. -/
def globalsReply (L : LuaState) : Reply :=
  match getGlobals .unbounded L with
  | .ok val => .line (firstLine (val ++ ['\n']))
  | .error _ => .eof

/-- The globals that are to be shown. -/
def shownGlobals (L : LuaState) : Table :=
  (L.heap L.globals).filter (fun e => !e.2.isFunction)

def ownName : LuaValue → Text
  | .string s => s
  | v => (tostring v).getD []

/-- How ldb writes a value that is no table, read off the value itself. -/
def ownRendering : LuaValue → Text
  | .number n => n.text
  | .string s => (cstr s).take 63
  | .boolean b => if b then txt "true" else txt "false"
  | v => txt "type " ++ v.typename ++ txt " = not yet displayable"

/-- The elements of a table that are not left out. -/
def survivors (name : Text) (es : Table) : Table :=
  es.filter (fun e => decide (OneLine (elementPiece name e)))

/-- The variable that is to be shown for a global. -/
def ownVar (L : LuaState) (e : LuaValue × LuaValue) : Variable :=
  match e.2 with
  | .table ref =>
    tableVar (ownName e.1) ((survivors (ownName e.1) (L.heap ref)).map (child (ownName e.1)))
  | v => globalVarOf (ownName e.1) (ownRendering v)

/-- What a global writes, cut at `|`. -/
def pieces (L : LuaState) (e : LuaValue × LuaValue) : List Text :=
  let name := (tostring e.1).getD []
  match e.2 with
  | .function => []
  | .table ref =>
    startGlobalTable :: ((survivors name (L.heap ref)).map (elementPiece name) ++ [endGlobalTable])
  | v => [name ++ '=' :: globalValueText L e.1 v]

theorem eq_mem_pieces (L : LuaState) (e : LuaValue × LuaValue) : ∀ p ∈ pieces L e, '=' ∈ p := by
  have hmarkers : '=' ∈ startGlobalTable ∧ '=' ∈ endGlobalTable := by decide +kernel
  obtain ⟨key, v⟩ := e
  intro p hp
  cases v with
  | function => simp [pieces] at hp
  | table ref =>
    simp only [pieces, List.mem_cons, List.mem_append, List.mem_map, List.not_mem_nil,
      or_false] at hp
    rcases hp with rfl | ⟨x, -, rfl⟩ | rfl
    · exact hmarkers.1
    · simp [elementPiece]
    · exact hmarkers.2
  | _ =>
    simp only [pieces, List.mem_singleton] at hp
    simp [hp]

theorem bracket_mem_elementPiece (name : Text) (e : LuaValue × LuaValue) :
    '[' ∈ elementPiece name e := by
  simp [elementPiece, txt]

theorem oneLine_elementPiece (name : Text) (e : LuaValue × LuaValue) :
    OneLine (elementPiece name e) ↔ OneLine name ∧ OneLine e.1.printIt ∧ OneLine e.2.printIt := by
  have h := oneLine_elementText name e.1 e.2
  rw [elementText_eq, oneLine_append] at h
  have hbar : OneLine ['|'] := by decide
  tauto

theorem survivors_congr {a b : Text} (ha : OneLine a) (hb : OneLine b) (es : Table) :
    survivors a es = survivors b es := by
  apply List.filter_congr
  intro e _
  rw [decide_eq_decide, oneLine_elementPiece, oneLine_elementPiece]
  tauto

theorem globalValueText_eq_iff (L : LuaState) (key v : LuaValue) (ht : ∀ ref, v ≠ .table ref) :
    globalValueText L key v = ownRendering v ↔
      ∀ b, v = .boolean b → (L.slot [.table L.globals, key, .boolean b] 1).toboolean = b := by
  cases v with
  | boolean b =>
    simp only [globalValueText, ownRendering, LuaValue.boolean.injEq, forall_eq']
    have hne : txt "true" ≠ txt "false" := by decide
    cases (L.slot [.table L.globals, key, .boolean b] 1).toboolean <;> cases b <;>
      simp [hne, hne.symm]
  | table ref => exact absurd rfl (ht ref)
  | _ => simp [globalValueText, ownRendering]

theorem flatMap_keptElement (name : Text) (es : Table) :
    es.flatMap (keptElement name) =
      terminated '|' ((survivors name es).map (elementPiece name)) := by
  rw [← flatMap_elementText]
  induction es with
  | nil => rfl
  | cons e es ih =>
    have hline : OneLine (elementText name e.1 e.2) ↔ OneLine (elementPiece name e) := by
      rw [oneLine_elementText, oneLine_elementPiece]
    rw [List.flatMap_cons, ih, keptElement, survivors, survivors, List.filter_cons]
    by_cases h : OneLine (elementPiece name e)
    · simp [hline, h]
    · simp [hline, h]

theorem entryText_eq (L : LuaState) (e : LuaValue × LuaValue) (h : displayable e.2 = true) :
    entryText L e = terminated '|' (pieces L e) := by
  obtain ⟨key, v⟩ := e
  cases v with
  | table ref =>
    simp only [entryText, pieces, tableText, flatMap_keptElement, terminated_cons,
      terminated_append, terminated_nil]
    simp [txt]
  | nil | lightuserdata | userdata | thread => simp [displayable] at h
  | function => rfl
  | _ => simp [entryText, pieces, pairText, txt]

/-- Functions write nothing, so the texts are made of the pieces of the other globals. -/
theorem flatMap_entryText (L : LuaState) (es : Table) (h : ∀ e ∈ es, displayable e.2 = true) :
    es.flatMap (entryText L) =
      terminated '|' ((es.filter (fun e => !e.2.isFunction)).flatMap (pieces L)) := by
  induction es with
  | nil => rfl
  | cons e es ih =>
    have htail := ih (fun x hx => h x (List.mem_cons_of_mem e hx))
    rw [List.flatMap_cons, htail, entryText_eq L e (h e List.mem_cons_self), List.filter_cons]
    obtain ⟨key, v⟩ := e
    cases v with
    | function => simp [LuaValue.isFunction, pieces]
    | _ => simp [LuaValue.isFunction, terminated_append]

theorem globalsText_eq_pieces (L : LuaState) (h : ∀ e ∈ shownGlobals L, displayable e.2 = true) :
    globalsText L (L.heap L.globals) =
      terminated '|' ((shownGlobals L).flatMap (pieces L)) := by
  have hall : ∀ e ∈ L.heap L.globals, displayable e.2 = true := by
    rintro ⟨key, v⟩ he
    cases v with
    | function => rfl
    | _ => exact h _ (List.mem_filter.mpr ⟨he, rfl⟩)
  rw [globalsText_of_displayable L _ hall, shownGlobals, flatMap_entryText L _ hall]

theorem entryRoom_unbounded (L : LuaState) {e : LuaValue × LuaValue}
    (hkey : ∃ s, e.1 = .string s) : entryRoom .unbounded L e := by
  obtain ⟨key, v⟩ := e
  obtain ⟨s, rfl⟩ : ∃ s, key = .string s := hkey
  cases v with
  | table ref => exact fun x _ => ⟨by simp [tostring], elementRoom_unbounded _ _ _, rfl⟩
  | number n => exact ⟨rfl, by simp [tostring]⟩
  | string t => exact ⟨rfl, by simp [tostring]⟩
  | boolean b => exact ⟨rfl, by simp [tostring]⟩
  | function => trivial
  | _ => rfl

/-- With arrays as long as needed `getGlobals` comes to its end behind all globals. -/
theorem getGlobals_unbounded (L : LuaState)
    (hkeys : ∀ e ∈ L.heap L.globals, ∃ s, e.1 = .string s) :
    getGlobals .unbounded L = .ok (globalsText L (L.heap L.globals)) :=
  (getGlobals_eq_ok _ Buffers.inhabited_unbounded L _).mpr
    ⟨_, globalsWalk_of_strings L hkeys, fun e he => entryRoom_unbounded L (hkeys e he),
      fun _ _ => rfl, rfl⟩

/-- Then the reply is the texts of all globals. -/
theorem globalsReply_eq (L : LuaState) (hkeys : ∀ e ∈ L.heap L.globals, ∃ s, e.1 = .string s) :
    globalsReply L = .line (firstLine (globalsText L (L.heap L.globals))) := by
  simp only [globalsReply, getGlobals_unbounded L hkeys, firstLine_newline]

theorem shownGlobals_key {L : LuaState} (hkeys : ∀ e ∈ L.heap L.globals, ∃ s, e.1 = .string s) :
    ∀ e ∈ shownGlobals L, (∃ s, e.1 = .string s) ∧ e.2.isFunction = false := by
  intro e he
  obtain ⟨hmem, hshown⟩ := List.mem_filter.mp he
  exact ⟨hkeys e hmem, by simpa using hshown⟩

end LuaIde
