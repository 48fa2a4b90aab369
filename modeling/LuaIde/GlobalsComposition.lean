import LuaIde.GlobalsFormat

/-! The reply to `getglobals` as a composition: what a global contributes on its own, and when
the reply to all of them is these contributions in a row. -/
namespace LuaIde

open LineText DecimalText Delimited CheckedFold

/-- What the loop of `getGlobals` makes of the globals it comes by, with arrays as long as
needed. -/
def gather (L : LuaState) (es : Table) : Except Fault Text :=
  es.foldlM (fun val e => globalEntry .unbounded L val e.1 e.2) []

/-- The reply is what the globals contribute on their own, one behind the other; behind every
global all that was there stays; functions contribute nothing, and every other global one or
more segments ended by `|`. -/
structure Compositional (L : LuaState) : Prop where
  row : ∃ texts, (L.heap L.globals).mapM (fun e => gather L [e]) = .ok texts ∧
    getGlobals .unbounded L = .ok texts.flatten
  stays : ∀ es e, es ++ [e] <+: L.heap L.globals →
    ∃ val t, gather L es = .ok val ∧ gather L [e] = .ok t ∧ gather L (es ++ [e]) = .ok (val ++ t)
  segments : ∀ e ∈ L.heap L.globals, ∃ t, gather L [e] = .ok t ∧
    if e.2.isFunction then t = []
    else ∃ segs, segs ≠ [] ∧ (∀ s ∈ segs, '|' ∉ s) ∧ t = terminated '|' segs

section Gathering

variable {L : LuaState} {es : Table}

theorem gather_eq (hkeys : ∀ e ∈ es, ∃ s, e.1 = .string s) :
    gather L es = .ok (globalsText L es) := by
  have hfold := foldlM_eq_ok
    (fun val (e : LuaValue × LuaValue) => globalEntry .unbounded L val e.1 e.2) (entryStep L)
    (fun _ => True) (fun _ e => entryRoom .unbounded L e)
    (fun val e t _ => by
      simpa [Buffers.unbounded] using
        globalEntry_eq_ok .unbounded Buffers.inhabited_unbounded L val t e rfl)
    (fun _ _ _ _ => trivial) es [] (globalsText L es) trivial
  refine hfold.mpr ⟨?_, rfl⟩
  rintro pre e post rfl
  exact entryRoom_unbounded L (hkeys e (by simp))

/-- A global on its own: nothing is there for its text to drop. -/
theorem gather_singleton {e : LuaValue × LuaValue} (hkey : ∃ s, e.1 = .string s) :
    gather L [e] = .ok (entryText L e) := by
  have htext : globalsText L [e] = entryText L e := by
    rw [globalsText, List.foldl_cons, List.foldl_nil, entryStep]
    split_ifs <;> rfl
  rw [← htext]
  exact gather_eq (by simpa using hkey)

theorem mapM_gather (hkeys : ∀ e ∈ es, ∃ s, e.1 = .string s) :
    es.mapM (fun e => gather L [e]) = .ok (es.map (entryText L)) := by
  rw [mapM_eq_ok, List.forall₂_map_right_iff]
  exact List.forall₂_same.mpr fun e he => gather_singleton (hkeys e he)

end Gathering

theorem eq_function {v : LuaValue} (h : v.isFunction = true) : v = .function := by
  cases v <;> first | rfl | cases h

theorem bar_suffix_pairText (name text : Text) : ['|'] <:+ pairText name text :=
  ⟨name ++ (txt "=" ++ text), by simp [pairText, txt]⟩

theorem bar_suffix_tableText (L : LuaState) (name : Text) (ref : ℕ) :
    ['|'] <:+ tableText L name ref :=
  ⟨startGlobalTable ++ txt "|" ++ ((L.heap ref).flatMap (keptElement name) ++ endGlobalTable),
    by simp [tableText, txt]⟩

/-- A global that is no function contributes segments if its value is displayed. The message
about the others has no `|`. -/
theorem segments_entryText (L : LuaState) (e : LuaValue × LuaValue)
    (hfun : e.2.isFunction = false) :
    (∃ segs, segs ≠ [] ∧ (∀ s ∈ segs, '|' ∉ s) ∧ entryText L e = terminated '|' segs) ↔
      displayable e.2 = true := by
  rw [segments_iff]
  obtain ⟨key, v⟩ := e
  have hmessage (v : LuaValue) :
      '|' ∉ txt "type " ++ v.typename ++ txt " = not yet displayable" := by
    have htype : '|' ∉ v.typename := by
      cases v <;> simp [LuaValue.typename, txt]
    simp [htype, txt]
  cases v with
  | function => cases hfun
  | table ref => exact iff_of_true (bar_suffix_tableText L _ ref) rfl
  | number _ | string _ | boolean _ => exact iff_of_true (bar_suffix_pairText _ _) rfl
  | _ =>
    refine iff_of_false (fun h => ?_) Bool.false_ne_true
    exact hmessage _ (h.mem (List.mem_singleton_self '|'))

/-- The reply composes if and only if no value drops what is there: no global is a coroutine or
a userdata. -/
theorem compositional_iff (L : LuaState) (hkeys : ∀ e ∈ L.heap L.globals, ∃ s, e.1 = .string s) :
    Compositional L ↔ ∀ e ∈ L.heap L.globals, displayable e.2 = true := by
  have hown {e : LuaValue × LuaValue} (he : e ∈ L.heap L.globals) :
      gather L [e] = .ok (entryText L e) := gather_singleton (hkeys e he)
  constructor
  · -- a message about a value has no `|`, so its segments give it away
    intro h e he
    obtain ⟨t, ht, hsegs⟩ := h.segments e he
    obtain rfl : entryText L e = t := Except.ok.inj ((hown he).symm.trans ht)
    cases hfun : e.2.isFunction with
    | true =>
      rw [eq_function hfun]
      rfl
    | false =>
      rw [hfun, if_neg Bool.false_ne_true] at hsegs
      exact (segments_entryText L e hfun).mp hsegs
  · intro hshown
    refine ⟨⟨_, mapM_gather hkeys, ?_⟩, ?_, ?_⟩
    · rw [getGlobals_unbounded L hkeys, globalsText_of_displayable L _ hshown]
      rfl
    · intro es e hpre
      have hmem : ∀ x ∈ es ++ [e], x ∈ L.heap L.globals := fun x hx => hpre.subset hx
      have he : e ∈ L.heap L.globals := hmem e (by simp)
      refine ⟨_, _, gather_eq fun x hx => hkeys x (hmem x (by simp [hx])), hown he, ?_⟩
      rw [gather_eq fun x hx => hkeys x (hmem x hx), globalsText_concat, entryStep,
        if_pos (hshown e he)]
    · intro e he
      refine ⟨_, hown he, ?_⟩
      split_ifs with hfun
      · rw [entryText, eq_function hfun]
      · exact (segments_entryText L e (by simpa using hfun)).mpr (hshown e he)

/-- The globals `x = "y"` and `print`. -/
theorem compositional_string :
    Compositional ((LuaState.mainChunk (txt "@a.lua") 2).withGlobals
      [(.string (txt "x"), .string (txt "y")), (.string (txt "print"), .function)]) := by
  apply (compositional_iff _ ?_).mpr
  · simp [LuaState.withGlobals, displayable]
  · simp [LuaState.withGlobals]

/-- A coroutine behind `x = "y"`: the message about it is all there is in the reply. -/
theorem coroutine_drops :
    let L := (LuaState.mainChunk (txt "@a.lua") 2).withGlobals
      [(.string (txt "x"), .string (txt "y")), (.string (txt "co"), .thread)]
    getGlobals .unbounded L = .ok (txt "type thread = not yet displayable") ∧
      ¬ Compositional L := by
  intro L
  refine ⟨by decide +kernel, fun h => ?_⟩
  have hthread : (.string (txt "co"), .thread) ∈ L.heap L.globals := by
    simp [L, LuaState.withGlobals]
  obtain ⟨t, ht, hsegs⟩ := h.segments _ hthread
  obtain rfl := Except.ok.inj ((gather_singleton ⟨txt "co", rfl⟩).symm.trans ht)
  have hshown := (segments_entryText L _ rfl).mp hsegs
  cases hshown

end LuaIde
