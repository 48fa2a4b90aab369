import LuaIde.CheckedFold
import LuaIde.PdaModel
import LuaIde.ReplyTexts

/-! What the pieces of a reply decode to. A piece that was made from clean parts gives
them back, and what comes out of a piece is clean. -/
namespace LuaIde

open LineText DecimalText Delimited CheckedFold

/-- A text that no separator of the `name=value|` format and no line end cuts. -/
def Clean (s : Text) : Prop := '|' ∉ s ∧ '=' ∉ s ∧ OneLine s

instance (s : Text) : Decidable (Clean s) := inferInstanceAs (Decidable (_ ∧ _ ∧ _))

theorem clean_append (s t : Text) : Clean (s ++ t) ↔ Clean s ∧ Clean t := by
  simp only [Clean, List.mem_append, oneLine_append]
  tauto

theorem LuaNumber.clean (n : LuaNumber) : Clean n.text :=
  ⟨n.not_mem (by decide) (by decide), n.not_mem (by decide) (by decide), n.oneLine⟩

theorem LuaValue.clean_typename (v : LuaValue) : Clean v.typename := by
  cases v <;> simp only [typename] <;> decide

/-- The element made from `name` and `val`. -/
def elementVar (name val : Text) : TableElement :=
  { PDAVariable.new name with val := some val, table := true }

theorem arrayAt_eq_ok {α : Type} {a : List α} {i : ℕ} {x : α} :
    arrayAt a i = .ok x ↔ a[i]? = some x := by
  unfold arrayAt
  cases a[i]? with
  | none => simp
  | some y => simp

theorem parseIntOrThrow_eq_ok {s : Text} {i : CInt} :
    parseIntOrThrow s = .ok i ↔ parseInt s = some i := by
  unfold parseIntOrThrow
  cases parseInt s with
  | none => simp
  | some j => simp

theorem tableElement_eq_ok {s : Text} {e : TableElement} :
    tableElement s = .ok e ↔
      ∃ a b, (split '=' s)[0]? = some a ∧ (split '=' s)[1]? = some b ∧ e = elementVar a b := by
  simp only [tableElement, bind_eq_ok, arrayAt_eq_ok]
  constructor
  · rintro ⟨a, ha, b, hb, he⟩
    exact ⟨a, b, ha, hb, (Except.ok.inj he).symm⟩
  · rintro ⟨a, b, ha, hb, rfl⟩
    exact ⟨a, ha, b, hb, rfl⟩

theorem tableElement_pair {a b : Text} (ha : '=' ∉ a) (hb : '=' ∉ b) (hne : b ≠ []) :
    tableElement (a ++ '=' :: b) = .ok (elementVar a b) := by
  rw [tableElement_eq_ok, split_pair '=' a b ha hb hne]
  exact ⟨a, b, rfl, rfl, rfl⟩

/-- Without a value there is no second piece to take. -/
theorem tableElement_no_value {a : Text} (ha : '=' ∉ a) (e : TableElement) :
    tableElement (a ++ ['=']) ≠ .ok e := by
  rw [ne_eq, tableElement_eq_ok, split_empty_right '=' a ha]
  rintro ⟨x, y, -, hy, -⟩
  split_ifs at hy
  · simp at hy
  · simp at hy

/-- What comes out of a piece is made of its characters and has no `=`. -/
theorem tableElement_parts {s a b : Text} (h : tableElement s = .ok (elementVar a b)) :
    ('=' ∉ a ∧ ∀ c ∈ a, c ∈ s) ∧ '=' ∉ b ∧ ∀ c ∈ b, c ∈ s := by
  obtain ⟨x, y, hx, hy, he⟩ := tableElement_eq_ok.mp h
  have hname : a = x := congrArg PDAVariable.fName he
  have hval : some b = some y := congrArg PDAVariable.val he
  obtain rfl := Option.some.inj hval
  subst hname
  exact ⟨mem_split '=' s a (List.mem_of_getElem? hx), mem_split '=' s b (List.mem_of_getElem? hy)⟩

/-- The child an element of the table `name` is to become. -/
def child (name : Text) (e : LuaValue × LuaValue) : TableElement :=
  elementVar (name ++ (txt "[" ++ (e.1.printIt ++ txt "]"))) e.2.printIt

/-- The piece between two `|` of an element. -/
def elementPiece (name : Text) (e : LuaValue × LuaValue) : Text :=
  name ++ (txt "[" ++ (e.1.printIt ++ txt "]")) ++ '=' :: e.2.printIt

theorem elementText_eq (name : Text) (e : LuaValue × LuaValue) :
    elementText name e.1 e.2 = elementPiece name e ++ ['|'] := by
  simp [elementText, elementPiece, txt]

theorem flatMap_elementText (name : Text) (es : Table) :
    es.flatMap (fun e => elementText name e.1 e.2) =
      terminated '|' (es.map (elementPiece name)) := by
  simp [terminated, List.flatMap_map, elementText_eq]

theorem elementPiece_ne_nil (name : Text) (e : LuaValue × LuaValue) : elementPiece name e ≠ [] := by
  simp [elementPiece]

/-- The parts of an element that its reader can take apart again. -/
def CleanElement (name : Text) (e : LuaValue × LuaValue) : Prop :=
  Clean name ∧ Clean e.1.printIt ∧ Clean e.2.printIt

instance (name : Text) (e : LuaValue × LuaValue) : Decidable (CleanElement name e) :=
  inferInstanceAs (Decidable (_ ∧ _ ∧ _))

theorem clean_brackets (name : Text) (key : Text) :
    Clean (name ++ (txt "[" ++ (key ++ txt "]"))) ↔ Clean name ∧ Clean key := by
  have h : Clean (txt "[") ∧ Clean (txt "]") := by decide
  simp only [clean_append]
  tauto

theorem elementPiece_clean {name : Text} {e : LuaValue × LuaValue} (h : CleanElement name e) :
    '|' ∉ elementPiece name e ∧ OneLine (elementPiece name e) := by
  have hn := (clean_brackets name e.1.printIt).mpr ⟨h.1, h.2.1⟩
  have heq : '|' ∉ txt "=" ∧ OneLine (txt "=") := by decide
  have hpiece : elementPiece name e =
      (name ++ (txt "[" ++ (e.1.printIt ++ txt "]"))) ++ (txt "=" ++ e.2.printIt) := rfl
  rw [hpiece]
  refine ⟨fun hm => ?_, (oneLine_append _ _).mpr
    ⟨hn.2.2, (oneLine_append _ _).mpr ⟨heq.2, h.2.2.2.2⟩⟩⟩
  rcases List.mem_append.mp hm with hm | hm
  · exact hn.1 hm
  · rcases List.mem_append.mp hm with hm | hm
    · exact heq.1 hm
    · exact h.2.2.1 hm

/-- A clean element comes back exactly when its value is not empty. -/
theorem tableElement_piece_iff {name : Text} {e : LuaValue × LuaValue} (h : CleanElement name e) :
    tableElement (elementPiece name e) = .ok (child name e) ↔ e.2.printIt ≠ [] := by
  have hn := (clean_brackets name e.1.printIt).mpr ⟨h.1, h.2.1⟩
  constructor
  · intro hok hnil
    rw [elementPiece, hnil] at hok
    exact tableElement_no_value hn.2.1 _ hok
  · intro hne
    exact tableElement_pair hn.2.1 h.2.2.2.1 hne

/-- An element that comes out as a child was clean, if its piece has no separators. -/
theorem clean_of_tableElement {s name : Text} {e : LuaValue × LuaValue} (hs : '|' ∉ s)
    (ho : OneLine s) (h : tableElement s = .ok (child name e)) : CleanElement name e := by
  obtain ⟨⟨hna, hsa⟩, hnb, hsb⟩ := tableElement_parts h
  have hclean {t : Text} (he : '=' ∉ t) (hsub : ∀ c ∈ t, c ∈ s) : Clean t :=
    ⟨fun hc => hs (hsub _ hc), he, oneLine_of_subset hsub ho⟩
  have hparts := (clean_brackets name e.1.printIt).mp (hclean hna hsa)
  exact ⟨hparts.1, hparts.2, hclean hnb hsb⟩

end LuaIde
