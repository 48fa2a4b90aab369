import LuaIde.GlobalsFormat

/-! The second half of `PDAStackFrame.init` on the pieces of the globals: when it gives one
of them back, and what it can give back at all. -/
namespace LuaIde

open LineText DecimalText Delimited CheckedFold

/-- The name of a table is looked up in what follows its start marker: behind the first
element that is left, and behind the end marker if there is none. -/
def nameAhead (name : Text) (left : Table) (rest : List Text) : Prop :=
  match left with
  | [] => ∃ piece, rest.head? = some piece ∧ piece.takeWhile (fun c => decide (c ≠ '[')) = name
  | [_] => False
  | _ :: _ :: _ => '[' ∉ name

/-- A global that comes through, with the pieces behind its own. A boolean is read from
the first stack slot. -/
def GlobalReadable (L : LuaState) (rest : List Text) (e : LuaValue × LuaValue) : Prop :=
  let name := ownName e.1
  match e.2 with
  | .table ref =>
    (∀ x ∈ survivors name (L.heap ref), '\x00' ∉ name ∧ CleanElement name x ∧ x.2.printIt ≠ []) ∧
      nameAhead name (survivors name (L.heap ref)) rest
  | v => displayable v = true ∧ '\x00' ∉ name ∧ Clean name ∧ Clean (ownRendering v) ∧
      ownRendering v ≠ [] ∧ name ++ '=' :: ownRendering v ≠ startGlobalTable ∧
      ∀ b, v = .boolean b → (L.slot [.table L.globals, e.1, .boolean b] 1).toboolean = b

def GlobalsReadable (L : LuaState) : Table → Prop
  | [] => True
  | e :: es => GlobalReadable L (es.flatMap (pieces L)) e ∧ GlobalsReadable L es

/-- A text that neither `|` nor a line end cuts. -/
def OnePiece (s : Text) : Prop := '|' ∉ s ∧ OneLine s

theorem onePiece_of_subset {s t : Text} (h : ∀ c ∈ s, c ∈ t) (ht : OnePiece t) : OnePiece s :=
  ⟨fun hc => ht.1 (h _ hc), oneLine_of_subset h ht.2⟩

/-- What comes out of the pieces of a line. -/
def Decoded (v : Variable) : Prop :=
  OnePiece v.fName ∧ (∀ val, v.globalVal = some val → '=' ∉ val ∧ OnePiece val) ∧
    ∀ array, v.pdavars = some array → ∀ x ∈ array, OnePiece x.fName ∧
      ∀ val, x.val = some val → OnePiece val

theorem tableElement_onePiece {s : Text} {e : TableElement} (hs : OnePiece s)
    (h : tableElement s = .ok e) : OnePiece e.fName ∧ ∀ val, e.val = some val → OnePiece val := by
  obtain ⟨a, b, -, -, rfl⟩ := tableElement_eq_ok.mp h
  have hparts := tableElement_parts h
  refine ⟨onePiece_of_subset hparts.1.2 hs, ?_⟩
  intro val hval
  obtain rfl : b = val := Option.some.inj hval
  exact onePiece_of_subset hparts.2.2 hs

theorem tableElements_onePiece {strings rest : List Text} {array : List TableElement}
    (hs : ∀ s ∈ strings, OnePiece s) (h : tableElements strings = .ok (array, rest)) :
    (∀ x ∈ array, OnePiece x.fName ∧ ∀ val, x.val = some val → OnePiece val) ∧
      ∀ s ∈ rest, OnePiece s := by
  induction strings generalizing array with
  | nil => simp [tableElements] at h
  | cons s strings ih =>
    have htail : ∀ t ∈ strings, OnePiece t := fun t ht => hs t (List.mem_cons_of_mem s ht)
    rw [tableElements] at h
    split_ifs at h with hend
    · obtain ⟨rfl, rfl⟩ := Prod.mk.inj (Except.ok.inj h)
      exact ⟨by simp, htail⟩
    · obtain ⟨e, he, h⟩ := bind_eq_ok.mp h
      obtain ⟨⟨es, rest'⟩, hes, h⟩ := bind_eq_ok.mp h
      obtain ⟨rfl, rfl⟩ := Prod.mk.inj (Except.ok.inj h)
      obtain ⟨harray, hrest⟩ := ih htail hes
      refine ⟨?_, hrest⟩
      intro x hx
      rcases List.mem_cons.mp hx with rfl | hx
      · exact tableElement_onePiece (hs s List.mem_cons_self) he
      · exact harray x hx

theorem globalVar_table_eq_ok {strings rest : List Text} {v : Variable} :
    globalVar (startGlobalTable :: strings) = .ok (v, rest) ↔
      ∃ ahead name array, strings[1]? = some ahead ∧ (split '[' ahead)[0]? = some name ∧
        tableElements strings = .ok (array, rest) ∧ v = tableVar name array := by
  have hfirst : (split '=' startGlobalTable)[0]? = some (txt "startglobaltable") := by
    decide +kernel
  simp only [globalVar, bind_eq_ok, arrayAt_eq_ok, hfirst, Option.some.injEq, exists_eq_left',
    if_true]
  constructor
  · rintro ⟨ahead, hahead, name, hname, ⟨array, rest'⟩, helements, h⟩
    obtain ⟨rfl, rfl⟩ := Prod.mk.inj (Except.ok.inj h)
    exact ⟨ahead, name, array, hahead, hname, helements, rfl⟩
  · rintro ⟨ahead, name, array, hahead, hname, helements, rfl⟩
    exact ⟨ahead, hahead, name, hname, (array, rest), helements, rfl⟩

theorem globalVar_pair_eq_ok {curLine : Text} {strings rest : List Text} {v : Variable}
    (hne : curLine ≠ startGlobalTable) :
    globalVar (curLine :: strings) = .ok (v, rest) ↔
      ∃ name val, (split '=' curLine)[0]? = some name ∧ (split '=' curLine)[1]? = some val ∧
        v = globalVarOf name val ∧ rest = strings := by
  simp only [globalVar, bind_eq_ok, arrayAt_eq_ok, if_neg hne]
  constructor
  · rintro ⟨name, hname, val, hval, h⟩
    obtain ⟨rfl, rfl⟩ := Prod.mk.inj (Except.ok.inj h)
    exact ⟨name, val, hname, hval, rfl, rfl⟩
  · rintro ⟨name, val, hname, hval, rfl, rfl⟩
    exact ⟨name, hname, val, hval, rfl⟩

theorem globalVar_decoded {strings rest : List Text} {v : Variable}
    (hs : ∀ s ∈ strings, OnePiece s) (h : globalVar strings = .ok (v, rest)) :
    Decoded v ∧ ∀ s ∈ rest, OnePiece s := by
  cases strings with
  | nil => simp [globalVar] at h
  | cons curLine strings =>
    have hcur : OnePiece curLine := hs curLine List.mem_cons_self
    have htail : ∀ t ∈ strings, OnePiece t := fun t ht => hs t (List.mem_cons_of_mem curLine ht)
    have hpart {sep : Char} {s t : Text} {i : ℕ} (hs : OnePiece s)
        (ht : (split sep s)[i]? = some t) : OnePiece t :=
      onePiece_of_subset (mem_split sep s t (List.mem_of_getElem? ht)).2 hs
    by_cases hstart : curLine = startGlobalTable
    · rw [hstart, globalVar_table_eq_ok] at h
      obtain ⟨ahead, name, array, hahead, hname, helements, rfl⟩ := h
      obtain ⟨harray, hrest⟩ := tableElements_onePiece htail helements
      refine ⟨⟨hpart (htail ahead (List.mem_of_getElem? hahead)) hname, ?_, ?_⟩, hrest⟩
      · intro val hval
        simp [tableVar, PDAVariable.new] at hval
      · intro array' harray'
        obtain rfl : array = array' := Option.some.inj harray'
        exact harray
    · rw [globalVar_pair_eq_ok hstart] at h
      obtain ⟨name, val, hname, hval, rfl, rfl⟩ := h
      refine ⟨⟨hpart hcur hname, ?_, ?_⟩, htail⟩
      · intro val' hval'
        obtain rfl : val = val' := Option.some.inj hval'
        exact ⟨(mem_split '=' curLine val (List.mem_of_getElem? hval)).1, hpart hcur hval⟩
      · intro array harray
        simp [globalVarOf, PDAVariable.new] at harray

theorem globalVars_decoded {n : ℕ} {strings : List Text} {vs : List Variable}
    (hs : ∀ s ∈ strings, OnePiece s) (h : globalVars n strings = .ok vs) :
    vs.length = n ∧ ∀ v ∈ vs, Decoded v := by
  induction n generalizing strings vs with
  | zero =>
    rw [globalVars, Except.ok.injEq] at h
    simp [← h]
  | succ n ih =>
    rw [globalVars, bind_eq_ok] at h
    obtain ⟨⟨v, rest⟩, hv, h⟩ := h
    obtain ⟨vs', hvs, h⟩ := bind_eq_ok.mp h
    obtain rfl : v :: vs' = vs := Except.ok.inj h
    obtain ⟨hdecoded, hrest⟩ := globalVar_decoded hs hv
    obtain ⟨hlen, hall⟩ := ih hrest hvs
    exact ⟨by rw [List.length_cons, hlen], List.forall_mem_cons.mpr ⟨hdecoded, hall⟩⟩

theorem onePiece_pair (a w : Text) : OnePiece (a ++ '=' :: w) ↔ OnePiece a ∧ OnePiece w := by
  have h : '|' ≠ '=' ∧ '=' ≠ '\n' ∧ '=' ≠ '\r' := by decide
  simp only [OnePiece, List.mem_append, List.mem_cons, oneLine_append, oneLine_cons]
  tauto

/-- Reading a `name=value` piece back. -/
theorem globalVar_pair_iff {s w r : Text} {rest rest' : List Text} (hw : '=' ∉ w ∨ w = r)
    (hpiece : OnePiece (cstr s ++ '=' :: w)) :
    globalVar ((cstr s ++ '=' :: w) :: rest) = .ok (globalVarOf s r, rest') ↔
      ('\x00' ∉ s ∧ Clean s ∧ Clean r ∧ r ≠ [] ∧ s ++ '=' :: r ≠ startGlobalTable ∧ w = r) ∧
        rest' = rest := by
  obtain ⟨hname, hval⟩ := (onePiece_pair _ _).mp hpiece
  constructor
  · intro h
    have hstart : cstr s ++ '=' :: w ≠ startGlobalTable := by
      intro hstart
      rw [hstart, globalVar_table_eq_ok] at h
      obtain ⟨-, name, array, -, -, -, hvar⟩ := h
      -- a table would come out where a value is expected
      have htable := congrArg PDAVariable.table hvar
      simp [globalVarOf, tableVar, PDAVariable.new] at htable
    rw [globalVar_pair_eq_ok hstart] at h
    obtain ⟨name, val, hfirst, hsecond, hvar, rfl⟩ := h
    obtain rfl : s = name := congrArg PDAVariable.fName hvar
    obtain rfl : r = val := Option.some.inj (congrArg PDAVariable.globalVal hvar)
    have hs : '=' ∉ s := (mem_split '=' _ s (List.mem_of_getElem? hfirst)).1
    have hr : '=' ∉ r := (mem_split '=' _ r (List.mem_of_getElem? hsecond)).1
    have hcs : '=' ∉ cstr s := fun hc => hs (cstr_subset hc)
    have hw' : '=' ∉ w := hw.elim id (fun he => he ▸ hr)
    by_cases hne : w = []
    · -- an empty value leaves no second string
      rw [hne, split_empty_right '=' (cstr s) hcs] at hsecond
      split_ifs at hsecond
      · simp at hsecond
      · simp at hsecond
    · rw [split_pair '=' (cstr s) w hcs hw' hne] at hfirst hsecond
      obtain rfl : w = r := by simpa using hsecond
      have hself : cstr s = s := by simpa using hfirst
      rw [hself] at hstart hname
      exact ⟨⟨(cstr_eq_self_iff s).mp hself, ⟨hname.1, hs, hname.2⟩, ⟨hval.1, hw', hval.2⟩, hne,
        hstart, rfl⟩, rfl⟩
  · rintro ⟨⟨hzero, hs, hr, hne, hstart, rfl⟩, rfl⟩
    rw [cstr_eq_self hzero, globalVar_pair_eq_ok hstart, split_pair '=' s w hs.2.1 hr.2.1 hne]
    exact ⟨s, w, rfl, rfl, rfl, rfl⟩

/-- The end marker has no bracket, so no element is taken for it. -/
theorem elementPiece_ne_endGlobalTable (name : Text) (x : LuaValue × LuaValue) :
    elementPiece name x ≠ endGlobalTable := by
  intro h
  have hb := bracket_mem_elementPiece name x
  rw [h] at hb
  exact absurd hb (by decide +kernel)

theorem tableElements_eq_ok {name : Text} {left : Table} {rest rest' : List Text}
    {array : List TableElement} :
    tableElements (left.map (elementPiece name) ++ endGlobalTable :: rest) = .ok (array, rest') ↔
      List.Forall₂ (fun x e => tableElement (elementPiece name x) = .ok e) left array ∧
        rest' = rest := by
  induction left generalizing array with
  | nil =>
    simp only [List.map_nil, List.nil_append, tableElements, if_true, Except.ok.injEq,
      Prod.mk.injEq, List.forall₂_nil_left_iff]
    tauto
  | cons x left ih =>
    have hne := elementPiece_ne_endGlobalTable name x
    rw [List.map_cons, List.cons_append, tableElements, if_neg hne, bind_eq_ok]
    constructor
    · rintro ⟨e, he, h⟩
      obtain ⟨⟨es, rest''⟩, hes, h⟩ := bind_eq_ok.mp h
      obtain ⟨rfl, rfl⟩ := Prod.mk.inj (Except.ok.inj h)
      obtain ⟨hall, rfl⟩ := ih.mp hes
      exact ⟨List.Forall₂.cons he hall, rfl⟩
    · rintro ⟨hall, rfl⟩
      cases hall with
      | cons he hes => exact ⟨_, he, bind_eq_ok.mpr ⟨_, ih.mpr ⟨hes, rfl⟩, rfl⟩⟩

theorem cleanElement_of_subset {a b : Text} {x : LuaValue × LuaValue} (h : ∀ c ∈ a, c ∈ b)
    (hx : CleanElement b x) : CleanElement a x :=
  ⟨⟨fun hc => hx.1.1 (h _ hc), fun hc => hx.1.2.1 (h _ hc), oneLine_of_subset h hx.1.2.2⟩, hx.2⟩

/-- Reading an element of a table back, under the name its table has. -/
theorem tableElement_child_iff {s : Text} {x : LuaValue × LuaValue}
    (hpiece : OnePiece (elementPiece (cstr s) x)) :
    tableElement (elementPiece (cstr s) x) = .ok (child s x) ↔
      '\x00' ∉ s ∧ CleanElement s x ∧ x.2.printIt ≠ [] := by
  constructor
  · intro h
    have hclean : CleanElement s x := clean_of_tableElement hpiece.1 hpiece.2 h
    have hcstr : CleanElement (cstr s) x := cleanElement_of_subset (fun c => cstr_subset) hclean
    have hne : x.2.printIt ≠ [] := by
      intro hnil
      have hn := (clean_brackets (cstr s) x.1.printIt).mpr ⟨hcstr.1, hcstr.2.1⟩
      rw [elementPiece, hnil] at h
      exact tableElement_no_value hn.2.1 _ h
    rw [(tableElement_piece_iff hcstr).mpr hne] at h
    have hnames := congrArg PDAVariable.fName (Except.ok.inj h)
    exact ⟨(cstr_eq_self_iff s).mp (List.append_cancel_right hnames), hclean, hne⟩
  · rintro ⟨hzero, hclean, hne⟩
    rw [cstr_eq_self hzero]
    exact (tableElement_piece_iff hclean).mpr hne

theorem split_bracket {ahead : Text} (h : '=' ∈ ahead) :
    (split '[' ahead)[0]? = some (ahead.takeWhile (fun c => decide (c ≠ '['))) :=
  split_head '[' ahead ⟨'=', h, by decide⟩

theorem takeWhile_elementPiece {name : Text} {x : LuaValue × LuaValue} :
    (elementPiece name x).takeWhile (fun c => decide (c ≠ '[')) = name ↔ '[' ∉ name := by
  constructor
  · intro h hb
    rw [← h] at hb
    exact absurd (List.mem_takeWhile_imp hb) (by simp)
  · intro h
    have hpiece : elementPiece name x =
        name ++ ('[' :: (x.1.printIt ++ txt "]" ++ '=' :: x.2.printIt)) := by
      simp [elementPiece, txt]
    rw [hpiece, takeWhile_append_of_not_mem h]
    simp

/-- The name that is found for a table. -/
theorem nameAhead_iff {s : Text} {left : Table} {rest : List Text} (hrest : ∀ p ∈ rest, '=' ∈ p)
    (hleft : ∀ x ∈ left, '\x00' ∉ s ∧ CleanElement s x ∧ x.2.printIt ≠ []) :
    (∃ ahead, (left.map (elementPiece (cstr s)) ++ endGlobalTable :: rest)[1]? = some ahead ∧
      (split '[' ahead)[0]? = some s) ↔ nameAhead s left rest := by
  cases left with
  | nil =>
    simp only [List.map_nil, List.nil_append, List.getElem?_cons_succ, nameAhead]
    rw [← List.head?_eq_getElem?]
    apply exists_congr
    intro ahead
    apply and_congr_right
    intro hahead
    rw [split_bracket (hrest ahead (List.mem_of_head? hahead)), Option.some.injEq]
  | cons x left =>
    obtain ⟨hzero, hclean, -⟩ := hleft x List.mem_cons_self
    cases left with
    | nil =>
      -- the only element leaves the end marker ahead
      simp only [List.map_cons, List.map_nil, List.cons_append, List.nil_append,
        List.getElem?_cons_succ, List.getElem?_cons_zero, Option.some.injEq, exists_eq_left',
        nameAhead, iff_false]
      rw [split_of_not_mem '[' endGlobalTable (by decide +kernel), List.getElem?_cons_zero,
        Option.some.injEq]
      rintro rfl
      exact hclean.1.2.1 (by decide +kernel)
    | cons y left =>
      have hmem : '=' ∈ elementPiece s y := by
        simp [elementPiece]
      simp only [List.map_cons, List.cons_append, List.getElem?_cons_succ, List.getElem?_cons_zero,
        Option.some.injEq, exists_eq_left', nameAhead]
      rw [cstr_eq_self hzero, split_bracket hmem, Option.some.injEq, takeWhile_elementPiece]

/-- Reading a table back. -/
theorem globalVar_table_iff (L : LuaState) (s : Text) (ref : ℕ) (rest rest' : List Text)
    (hs : OneLine s) (hrest : ∀ p ∈ rest, '=' ∈ p)
    (hpieces : ∀ p ∈ pieces L (.string s, .table ref), OnePiece p) :
    globalVar (pieces L (.string s, .table ref) ++ rest) =
        .ok (ownVar L (.string s, .table ref), rest') ↔
      GlobalReadable L rest (.string s, .table ref) ∧ rest' = rest := by
  have hleft : survivors (cstr s) (L.heap ref) = survivors s (L.heap ref) :=
    survivors_congr (oneLine_of_subset (fun c => cstr_subset) hs) hs _
  have hstrings : pieces L (.string s, .table ref) ++ rest =
      startGlobalTable ::
        ((survivors s (L.heap ref)).map (elementPiece (cstr s)) ++ endGlobalTable :: rest) := by
    simp [pieces, tostring, hleft]
  have hpiece : ∀ x ∈ survivors s (L.heap ref), OnePiece (elementPiece (cstr s) x) := by
    intro x hx
    apply hpieces
    simp only [pieces, tostring, Option.getD_some, hleft]
    exact List.mem_cons_of_mem _ (List.mem_append_left _ (List.mem_map_of_mem hx))
  have hforall : List.Forall₂ (fun x e => tableElement (elementPiece (cstr s) x) = .ok e)
      (survivors s (L.heap ref)) ((survivors s (L.heap ref)).map (child s)) ↔
      ∀ x ∈ survivors s (L.heap ref), '\x00' ∉ s ∧ CleanElement s x ∧ x.2.printIt ≠ [] := by
    rw [List.forall₂_map_right_iff, List.forall₂_same]
    exact forall₂_congr (fun x hx => tableElement_child_iff (hpiece x hx))
  rw [hstrings, globalVar_table_eq_ok]
  simp only [tableElements_eq_ok]
  constructor
  · rintro ⟨ahead, name, array, hahead, hname, ⟨hall, rfl⟩, hvar⟩
    obtain rfl : s = name := congrArg PDAVariable.fName hvar
    obtain rfl : (survivors s (L.heap ref)).map (child s) = array :=
      Option.some.inj (congrArg PDAVariable.pdavars hvar)
    have hclean := hforall.mp hall
    exact ⟨⟨hclean, (nameAhead_iff hrest hclean).mp ⟨ahead, hahead, hname⟩⟩, rfl⟩
  · rintro ⟨⟨hclean, hname⟩, rfl⟩
    obtain ⟨ahead, hahead, hfound⟩ := (nameAhead_iff hrest hclean).mpr hname
    exact ⟨ahead, s, _, hahead, hfound, ⟨hforall.mpr hclean, rfl⟩, rfl⟩

/-- A global whose pieces are those of the reply. -/
structure Written (L : LuaState) (e : LuaValue × LuaValue) : Prop where
  key : ∃ s, e.1 = .string s ∧ OneLine s
  shown : e.2.isFunction = false
  displayed : displayable e.2 = true
  onePiece : ∀ p ∈ pieces L e, OnePiece p

/-- Reading one global back, one case for each kind of value. -/
theorem globalVar_iff (L : LuaState) (e : LuaValue × LuaValue) (h : Written L e)
    (rest rest' : List Text) (hrest : ∀ p ∈ rest, '=' ∈ p) :
    globalVar (pieces L e ++ rest) = .ok (ownVar L e, rest') ↔
      GlobalReadable L rest e ∧ rest' = rest := by
  obtain ⟨key, v⟩ := e
  obtain ⟨s, rfl, hs⟩ : ∃ s, key = .string s ∧ OneLine s := h.key
  have hvalue (ht : ∀ ref, v ≠ .table ref) (hp : pieces L (.string s, v) =
        [cstr s ++ '=' :: globalValueText L (.string s) v])
      (hown : ownVar L (.string s, v) = globalVarOf s (ownRendering v))
      (heq : '=' ∉ globalValueText L (.string s) v ∨
        globalValueText L (.string s) v = ownRendering v) :
      globalVar (pieces L (.string s, v) ++ rest) = .ok (ownVar L (.string s, v), rest') ↔
        ('\x00' ∉ s ∧ Clean s ∧ Clean (ownRendering v) ∧ ownRendering v ≠ [] ∧
          s ++ '=' :: ownRendering v ≠ startGlobalTable ∧
          ∀ b, v = .boolean b →
            (L.slot [.table L.globals, .string s, .boolean b] 1).toboolean = b) ∧
          rest' = rest := by
    have hpiece := h.onePiece _ (by rw [hp]; exact List.mem_singleton_self _)
    rw [hp, hown, ← globalValueText_eq_iff L (.string s) v ht]
    exact globalVar_pair_iff heq hpiece
  cases v with
  | table ref => exact globalVar_table_iff L s ref rest rest' hs hrest h.onePiece
  | boolean b =>
    have heq : '=' ∉ globalValueText L (.string s) (.boolean b) := by
      simp only [globalValueText]
      split_ifs <;> decide
    rw [hvalue (by simp) rfl rfl (.inl heq)]
    simp [GlobalReadable, displayable, ownName]
  | number n =>
    rw [hvalue (by simp) rfl rfl (.inr rfl)]
    simp [GlobalReadable, displayable, ownName]
  | string t =>
    rw [hvalue (by simp) rfl rfl (.inr rfl)]
    simp [GlobalReadable, displayable, ownName]
  | function => exact absurd h.shown (by simp [LuaValue.isFunction])
  | nil | lightuserdata | userdata | thread => exact absurd h.displayed (by simp [displayable])

theorem globalVars_iff (L : LuaState) (es : Table) (h : ∀ e ∈ es, Written L e) :
    globalVars es.length (es.flatMap (pieces L)) = .ok (es.map (ownVar L)) ↔
      GlobalsReadable L es := by
  induction es with
  | nil => simp [globalVars, GlobalsReadable]
  | cons e es ih =>
    have he : Written L e := h e List.mem_cons_self
    have hes : ∀ x ∈ es, Written L x := fun x hx => h x (List.mem_cons_of_mem e hx)
    have hrest : ∀ p ∈ es.flatMap (pieces L), '=' ∈ p := by
      intro p hp
      obtain ⟨x, -, hx⟩ := List.mem_flatMap.mp hp
      exact eq_mem_pieces L x p hx
    rw [List.length_cons, List.flatMap_cons, globalVars, bind_eq_ok, GlobalsReadable, ← ih hes]
    constructor
    · rintro ⟨⟨v, rest'⟩, hv, hvs⟩
      obtain ⟨vs, hvs, hcons⟩ := bind_eq_ok.mp hvs
      obtain ⟨rfl, rfl⟩ := List.cons.inj (Except.ok.inj hcons)
      obtain ⟨hreadable, rfl⟩ := (globalVar_iff L e he _ rest' hrest).mp hv
      exact ⟨hreadable, hvs⟩
    · rintro ⟨hreadable, hvs⟩
      exact ⟨_, (globalVar_iff L e he _ _ hrest).mpr ⟨hreadable, rfl⟩, bind_eq_ok.mpr ⟨_, hvs, rfl⟩⟩

/-- Inside of a table nothing is counted. -/
theorem countGlobals_table (name : Text) (left : Table) (rest : List Text) :
    countGlobals false (left.map (elementPiece name) ++ endGlobalTable :: rest) =
      countGlobals true rest := by
  induction left with
  | nil =>
    have hne : endGlobalTable ≠ startGlobalTable := by decide +kernel
    simp [countGlobals, hne]
  | cons x left ih =>
    have hne := elementPiece_ne_endGlobalTable name x
    simp [countGlobals, hne, ih]

theorem countGlobals_pieces (L : LuaState) (e : LuaValue × LuaValue) (h : Written L e)
    (rest rest' : List Text) (hr : GlobalReadable L rest e) :
    countGlobals true (pieces L e ++ rest') = countGlobals true rest' + 1 := by
  obtain ⟨key, v⟩ := e
  obtain ⟨s, rfl, -⟩ : ∃ s, key = .string s ∧ OneLine s := h.key
  have hvalue (ht : ∀ ref, v ≠ .table ref) (hzero : '\x00' ∉ s)
      (hbool : ∀ b, v = .boolean b →
        (L.slot [.table L.globals, .string s, .boolean b] 1).toboolean = b)
      (hstart : s ++ '=' :: ownRendering v ≠ startGlobalTable) :
      countGlobals true ([cstr s ++ '=' :: globalValueText L (.string s) v] ++ rest') =
        countGlobals true rest' + 1 := by
    rw [(globalValueText_eq_iff L (.string s) v ht).mpr hbool, cstr_eq_self hzero]
    simp only [List.singleton_append, countGlobals, if_true, if_neg hstart, ite_self]
    omega
  cases v with
  | table ref =>
    have hstrings : pieces L (.string s, .table ref) ++ rest' = startGlobalTable ::
        ((survivors (cstr s) (L.heap ref)).map (elementPiece (cstr s)) ++
          endGlobalTable :: rest') := by
      simp [pieces, tostring]
    rw [hstrings, countGlobals, if_pos rfl, if_pos rfl, countGlobals_table]
    omega
  | function => exact absurd h.shown (by simp [LuaValue.isFunction])
  | _ =>
    obtain ⟨-, hzero, -, -, -, hstart, hbool⟩ := hr
    exact hvalue (by simp) hzero hbool hstart

theorem countGlobals_readable (L : LuaState) (es : Table) (h : ∀ e ∈ es, Written L e)
    (hr : GlobalsReadable L es) : countGlobals true (es.flatMap (pieces L)) = es.length := by
  induction es with
  | nil => rfl
  | cons e es ih =>
    rw [List.flatMap_cons, countGlobals_pieces L e (h e List.mem_cons_self) _ _ hr.1,
      ih (fun x hx => h x (List.mem_cons_of_mem e hx)) hr.2, List.length_cons]

end LuaIde
