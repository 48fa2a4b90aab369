import LuaIde.GlobalsReading

/-! The globals from ldb to the variables the IDE shows: the reply of `getGlobals` taken
apart by the second half of `PDAStackFrame.init`. -/
namespace LuaIde

open LineText DecimalText Delimited CheckedFold

/-- `PDAStackFrame.init` comes to its end with one variable for each global to be shown. -/
def GlobalsComeBack (L : LuaState) (data : Text) : Prop :=
  initGlobals (globalsReply L) data = .ok (labelVars ++ (shownGlobals L).map (ownVar L))

/-- The pieces of a readable global are pieces of one line. -/
theorem written_of_readable (L : LuaState) (e : LuaValue × LuaValue) (rest : List Text)
    (hkey : ∃ s, e.1 = .string s) (hshown : e.2.isFunction = false)
    (hrest : ∀ p ∈ rest, OnePiece p) (h : GlobalReadable L rest e) : Written L e := by
  obtain ⟨key, v⟩ := e
  obtain ⟨s, rfl⟩ : ∃ s, key = .string s := hkey
  -- all values but tables are one piece
  have hvalue (ht : ∀ ref, v ≠ .table ref) (hzero : '\x00' ∉ s) (hs : Clean s)
      (hr : Clean (ownRendering v))
      (hbool : ∀ b, v = .boolean b →
        (L.slot [.table L.globals, .string s, .boolean b] 1).toboolean = b) :
      ∀ p ∈ [cstr s ++ '=' :: globalValueText L (.string s) v], OnePiece p := by
    rw [(globalValueText_eq_iff L (.string s) v ht).mpr hbool, cstr_eq_self hzero]
    simp only [List.mem_singleton, forall_eq, onePiece_pair]
    exact ⟨⟨hs.1, hs.2.2⟩, hr.1, hr.2.2⟩
  cases v with
  | table ref =>
    obtain ⟨hclean, hname⟩ := h
    have hs : OneLine s := by
      rcases hk : survivors s (L.heap ref) with _ | ⟨x, left⟩
      · -- the name is a part of the piece behind the end marker
        have hk' : survivors (ownName (.string s)) (L.heap ref) = [] := hk
        rw [hk'] at hname
        obtain ⟨piece, hpiece, hprefix⟩ := hname
        have hone := (hrest piece (List.mem_of_head? hpiece)).2
        rw [show s = piece.takeWhile (fun c => decide (c ≠ '[')) from hprefix.symm]
        exact oneLine_of_subset (List.takeWhile_prefix _).subset hone
      · exact (hclean x (by rw [ownName, hk]; exact List.mem_cons_self)).2.1.1.2.2
    have hleft : survivors (cstr s) (L.heap ref) = survivors s (L.heap ref) :=
      survivors_congr (oneLine_of_subset (fun c => cstr_subset) hs) hs _
    refine ⟨⟨s, rfl, hs⟩, rfl, rfl, ?_⟩
    intro p hp
    simp only [pieces, tostring, Option.getD_some, hleft, List.mem_cons, List.mem_append,
      List.mem_map, List.not_mem_nil, or_false] at hp
    rcases hp with rfl | ⟨x, hx, rfl⟩ | rfl
    · exact ⟨by decide +kernel, by decide +kernel⟩
    · obtain ⟨hzero, hx', -⟩ := hclean x hx
      rw [cstr_eq_self (s := s) hzero]
      exact elementPiece_clean hx'
    · exact ⟨by decide +kernel, by decide +kernel⟩
  | function => exact absurd hshown (by simp [LuaValue.isFunction])
  | _ =>
    obtain ⟨hd, hzero, hs, hr, -, -, hbool⟩ := h
    exact ⟨⟨s, rfl, hs.2.2⟩, rfl, hd, hvalue (by simp) hzero hs hr hbool⟩

theorem written_of_globalsReadable (L : LuaState) (es : Table)
    (hkeys : ∀ e ∈ es, ∃ s, e.1 = .string s) (hshown : ∀ e ∈ es, e.2.isFunction = false)
    (h : GlobalsReadable L es) : ∀ e ∈ es, Written L e := by
  induction es with
  | nil => simp
  | cons e es ih =>
    have hes := ih (fun x hx => hkeys x (List.mem_cons_of_mem e hx))
      (fun x hx => hshown x (List.mem_cons_of_mem e hx)) h.2
    have hrest : ∀ p ∈ es.flatMap (pieces L), OnePiece p := by
      intro p hp
      obtain ⟨x, hx, hpx⟩ := List.mem_flatMap.mp hp
      exact (hes x hx).onePiece p hpx
    exact List.forall_mem_cons.mpr ⟨written_of_readable L e _ (hkeys e List.mem_cons_self)
      (hshown e List.mem_cons_self) hrest h.1, hes⟩

/-- The pieces of a global that came out as its variable are pieces of one line. -/
theorem written_of_decoded (L : LuaState) (e : LuaValue × LuaValue)
    (hkey : ∃ s, e.1 = .string s) (hshown : e.2.isFunction = false)
    (h : Decoded (ownVar L e)) : Written L e := by
  obtain ⟨key, v⟩ := e
  obtain ⟨s, rfl⟩ : ∃ s, key = .string s := hkey
  obtain ⟨hname, hval, hvars⟩ := h
  have hsub : ∀ c ∈ cstr s, c ∈ s := fun c => cstr_subset
  have hvalue (hs : OnePiece s) (ht : OnePiece (globalValueText L (.string s) v)) :
      ∀ p ∈ [cstr s ++ '=' :: globalValueText L (.string s) v], OnePiece p := by
    simp only [List.mem_singleton, forall_eq, onePiece_pair]
    exact ⟨onePiece_of_subset hsub hs, ht⟩
  -- the message for the other types has a `=` of its own, which no decoded value has
  have hmessage (ht : '=' ∈ ownRendering v) (hv : (ownVar L (.string s, v)).globalVal =
      some (ownRendering v)) : False := (hval _ hv).1 ht
  have heq (t : Text) : '=' ∈ txt "type " ++ t ++ txt " = not yet displayable" := by
    have he : '=' ∈ txt " = not yet displayable" := by decide +kernel
    exact List.mem_append_right _ he
  cases v with
  | table ref =>
    have hs : OnePiece s := hname
    have hleft : survivors (cstr s) (L.heap ref) = survivors s (L.heap ref) :=
      survivors_congr (oneLine_of_subset hsub hs.2) hs.2 _
    refine ⟨⟨s, rfl, hs.2⟩, rfl, rfl, ?_⟩
    intro p hp
    simp only [pieces, tostring, Option.getD_some, hleft, List.mem_cons, List.mem_append,
      List.mem_map, List.not_mem_nil, or_false] at hp
    rcases hp with rfl | ⟨x, hx, rfl⟩ | rfl
    · exact ⟨by decide +kernel, by decide +kernel⟩
    · obtain ⟨hfield, helement⟩ := hvars _ rfl (child s x) (List.mem_map_of_mem hx)
      apply (onePiece_pair _ _).mpr
      refine ⟨onePiece_of_subset ?_ hfield, helement _ rfl⟩
      intro c hc
      rcases List.mem_append.mp hc with hc | hc
      · exact List.mem_append_left _ (hsub c hc)
      · exact List.mem_append_right _ hc
    · exact ⟨by decide +kernel, by decide +kernel⟩
  | number n => exact ⟨⟨s, rfl, hname.2⟩, rfl, rfl, hvalue hname ⟨n.clean.1, n.oneLine⟩⟩
  | string t => exact ⟨⟨s, rfl, hname.2⟩, rfl, rfl, hvalue hname (hval _ rfl).2⟩
  | boolean b =>
    refine ⟨⟨s, rfl, hname.2⟩, rfl, rfl, hvalue hname ?_⟩
    simp only [globalValueText]
    split_ifs
    · exact ⟨by decide, by decide⟩
    · exact ⟨by decide, by decide⟩
  | function => exact absurd hshown (by simp [LuaValue.isFunction])
  | nil | lightuserdata | userdata | thread => exact (hmessage (heq _) rfl).elim

/-- The strings of a reply whose globals are pieces of one line. -/
theorem split_globalsText (L : LuaState) (hne : shownGlobals L ≠ [])
    (h : ∀ e ∈ shownGlobals L, Written L e) :
    split '|' (firstLine (globalsText L (L.heap L.globals))) =
      (shownGlobals L).flatMap (pieces L) := by
  have hpieces : ∀ p ∈ (shownGlobals L).flatMap (pieces L), OnePiece p ∧ '=' ∈ p := by
    intro p hp
    obtain ⟨e, he, hpe⟩ := List.mem_flatMap.mp hp
    exact ⟨(h e he).onePiece p hpe, eq_mem_pieces L e p hpe⟩
  have hfirst : (shownGlobals L).flatMap (pieces L) ≠ [] := by
    obtain ⟨e, es, hes⟩ := List.exists_cons_of_ne_nil hne
    have he := (h e (by rw [hes]; exact List.mem_cons_self)).shown
    rw [hes, List.flatMap_cons]
    obtain ⟨key, v⟩ := e
    cases v with
    | function => exact absurd he (by simp [LuaValue.isFunction])
    | _ => simp [pieces]
  rw [globalsText_eq_pieces L (fun e he => (h e he).displayed), firstLine_eq_self
    ((oneLine_terminated '|' (by decide) _).mpr (fun p hp => (hpieces p hp).1.2)),
    split_terminated '|' _ hfirst (fun p hp => (hpieces p hp).1.1)]
  -- the last piece has a `=`, so that no trailing string is dropped
  obtain ⟨ps, p, hps⟩ := (List.eq_nil_or_concat' _).resolve_left hfirst
  rw [hps]
  apply List.rdropWhile_concat_neg
  have hp := (hpieces p (by rw [hps]; simp)).2
  intro hempty
  rw [List.isEmpty_iff.mp hempty] at hp
  exact List.not_mem_nil hp

/-- The variables of the globals are those of the program exactly when there is one and all
are readable. -/
theorem globals_come_back_iff (L : LuaState) (data : Text)
    (hkeys : ∀ e ∈ L.heap L.globals, ∃ s, e.1 = .string s) :
    GlobalsComeBack L data ↔ shownGlobals L ≠ [] ∧ GlobalsReadable L (shownGlobals L) := by
  have hshown := shownGlobals_key hkeys
  have hdecode : GlobalsComeBack L data ↔
      globalVars (countGlobals true (split '|' (firstLine (globalsText L (L.heap L.globals)))))
        (split '|' (firstLine (globalsText L (L.heap L.globals)))) =
        .ok ((shownGlobals L).map (ownVar L)) := by
    rw [GlobalsComeBack, globalsReply_eq L hkeys, initGlobals, initGlobals.decode, bind_eq_ok]
    constructor
    · rintro ⟨vs, hvs, h⟩
      rw [hvs, List.append_cancel_left (Except.ok.inj h)]
    · intro h
      exact ⟨_, h, rfl⟩
  rw [hdecode]
  constructor
  · -- what was decoded has no separator in it, and from that the reply is known piece by piece
    intro h
    have hstrings : ∀ s ∈ split '|' (firstLine (globalsText L (L.heap L.globals))), OnePiece s := by
      intro s hs
      have hpart := mem_split '|' _ s hs
      exact ⟨hpart.1, oneLine_of_subset hpart.2 (oneLine_firstLine _)⟩
    obtain ⟨hcount, hvars⟩ := globalVars_decoded hstrings h
    rw [List.length_map] at hcount
    have hwritten : ∀ e ∈ shownGlobals L, Written L e := fun e he =>
      written_of_decoded L e (hshown e he).1 (hshown e he).2 (hvars _ (List.mem_map_of_mem he))
    by_cases hne : shownGlobals L = []
    · -- the empty reply is one string, and one variable is counted
      have htext := globalsText_eq_pieces L (fun e he => (hwritten e he).displayed)
      rw [hne, List.flatMap_nil, terminated_nil] at htext
      rw [hne, htext] at hcount
      exact absurd hcount (by decide)
    · rw [← hcount, split_globalsText L hne hwritten] at h
      exact ⟨hne, (globalVars_iff L _ hwritten).mp h⟩
  · rintro ⟨hne, h⟩
    have hwritten := written_of_globalsReadable L _ (fun e he => (hshown e he).1)
      (fun e he => (hshown e he).2) h
    rw [split_globalsText L hne hwritten, countGlobals_readable L _ hwritten h]
    exact (globalVars_iff L _ hwritten).mpr h

/-- A stop of a program with these globals and one more table. -/
def withGlobals (globals : Table) (table : Table) : LuaState :=
  { LuaState.mainChunk (txt "@a.lua") 1 with
    heap := fun ref => if ref = 0 then globals else table
    cleared := fun _ _ => none }

/-- `x = "one"; t = {a = "b", c = "d"}` -/
def twoGlobals : LuaState :=
  withGlobals [(.string (txt "x"), .string (txt "one")), (.string (txt "print"), .function),
      (.string (txt "t"), .table 1)]
    [(.string (txt "a"), .string (txt "b")), (.string (txt "c"), .string (txt "d"))]

theorem twoGlobals_come_back : GlobalsComeBack twoGlobals [] := by
  have hkeys : ∀ e ∈ twoGlobals.heap twoGlobals.globals, ∃ s, e.1 = .string s := by
    intro e he
    simp only [twoGlobals, withGlobals, LuaState.mainChunk, if_true, List.mem_cons,
      List.not_mem_nil, or_false] at he
    rcases he with rfl | rfl | rfl <;> exact ⟨_, rfl⟩
  have hclean : ∀ x ∈ survivors (txt "t") (twoGlobals.heap 1),
      '\x00' ∉ txt "t" ∧ CleanElement (txt "t") x ∧ x.2.printIt ≠ [] := by decide +kernel
  have hleft : survivors (txt "t") (twoGlobals.heap 1) = twoGlobals.heap 1 := by decide +kernel
  have hname : nameAhead (txt "t") (survivors (txt "t") (twoGlobals.heap 1)) [] := by
    rw [hleft]
    exact (by decide : '[' ∉ txt "t")
  apply (globals_come_back_iff twoGlobals [] hkeys).mpr
  refine ⟨by decide +kernel, ⟨rfl, ?_⟩, ⟨hclean, hname⟩, trivial⟩
  exact ⟨by decide +kernel, by decide +kernel, by decide +kernel, by decide +kernel,
    by decide +kernel, by simp⟩

/-- `cfg = {}` -/
def emptyTable : LuaState := withGlobals [(.string (txt "cfg"), .table 1)] []

/-- The name of an empty table is looked up behind the end of the reply. -/
theorem emptyTable_throws :
    initGlobals (globalsReply emptyTable) [] = .error .arrayIndexOutOfBounds := by
  decide +kernel

end LuaIde
