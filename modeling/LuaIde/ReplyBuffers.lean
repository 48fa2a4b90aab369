import LuaIde.StackTexts
import LuaIde.Undisturbed
import Mathlib.Algebra.GroupWithZero.Nat

/-! The room in the arrays of the reply builders: which stacks, variables and globals are
answered without a write outside of an array. -/
namespace LuaIde

open LineText DecimalText Delimited CheckedFold Runs

/-- The characters of texts that are each followed by a separator. -/
def spanOf (texts : List Text) : ℕ := (texts.map (fun t => t.length + 1)).sum

/-- Every line number has at most three characters, and the levels fit into `str`. -/
def traceFits (L : LuaState) : Prop :=
  (∀ level ∈ L.levels, -100 < level.getinfo.currentline.val ∧
    level.getinfo.currentline.val < 1000) ∧
      (L.levels.map (fun level => spanOf (levelFields L level) + 1)).sum < 2048

/-- The slots fit into `val`. -/
def dumpFits (L : LuaState) : Prop := spanOf (L.stack.map (dataText L)) < 1024

/-- The length of `name[key]=value|`. -/
def elementLength (name : Text) (e : LuaValue × LuaValue) : ℕ :=
  name.length + e.1.printIt.length + e.2.printIt.length + 4

/-- If the variable that is asked for is a table, its name with a bracket fits into `buf` and
its elements into `val`. -/
def variableFits (L : LuaState) (nLevel : ℤ) (var : Text) : Prop :=
  ∀ i name ref, wantedLocal L nLevel (some var) = some (i, name, .table ref) →
    (L.heap ref ≠ [] → name.length + 1 < 80) ∧
      ((L.heap ref).map (elementLength name)).sum < 8096

/-- What a global adds to the reply. A boolean is read from the first slot, and elements whose
texts have a line end in them are left out. -/
def entryLength (L : LuaState) (e : LuaValue × LuaValue) : ℕ :=
  let name := (tostring e.1).getD []
  match e.2 with
  | .function => 0
  | .number n => name.length + n.text.length + 2
  | .string s => name.length + min 63 (cstr s).length + 2
  | .boolean b =>
    name.length + (if (L.slot [.table L.globals, e.1, .boolean b] 1).toboolean then 4 else 5) + 2
  | .table ref => 64 + ((L.heap ref).map (fun x =>
      if OneLine name ∧ OneLine x.1.printIt ∧ OneLine x.2.printIt then elementLength name x
      else 0)).sum
  | v => 27 + v.typename.length

/-- The length of the reply behind a global: a value that is not displayable starts it anew. -/
def lengthBehind (L : LuaState) (len : ℕ) (e : LuaValue × LuaValue) : ℕ :=
  if displayable e.2 then len + entryLength L e else entryLength L e

/-- The key has a text, or nothing asks for it. -/
def nameServes (L : LuaState) (e : LuaValue × LuaValue) : Bool :=
  match e.2 with
  | .number _ | .string _ | .boolean _ => (tostring e.1).isSome
  | .table ref => (tostring e.1).isSome || (L.heap ref).isEmpty
  | _ => true

/-- There is room for a global behind `len` characters: for the start of a table and, if the
key has the text it needs, for the pieces of its elements and for the whole. -/
def entryFits (L : LuaState) (len : ℕ) (e : LuaValue × LuaValue) : Prop :=
  (∀ ref, e.2 = .table ref → len + 34 < 8096) ∧
    (nameServes L e → (∀ ref, e.2 = .table ref → ∀ x ∈ L.heap ref,
        ((tostring e.1).getD []).length + 1 < 80 ∧
          elementLength ((tostring e.1).getD []) x < 200) ∧
      lengthBehind L len e < 8096)

/-- The position and the length of the reply behind one more global. -/
def lengthNext (L : LuaState) (s : ℕ × ℕ) : Option (ℕ × ℕ) :=
  ((L.heap L.globals)[s.1]?).bind (fun e => if nameServes L e then
    (goesOn (L.heap L.globals) (L.cleared L.globals) (fun v => !v.isFunction) s.1).map
      (fun j => (j, lengthBehind L s.2 e))
  else none)

/-- At every global that is come by there is room for it behind those before it. -/
def globalsFit (L : LuaState) : Prop :=
  ∀ n i len e, steps (lengthNext L) n (0, 0) = some (i, len) →
    (L.heap L.globals)[i]? = some e → entryFits L len e

section Lengths

theorem length_terminated (sep : Char) (ps : List Text) :
    (terminated sep ps).length = spanOf ps := by
  induction ps with
  | nil => rfl
  | cons p ps ih =>
    rw [terminated_cons, spanOf, List.map_cons, List.sum_cons, List.length_append, List.length_cons,
      ih, spanOf]
    omega

theorem length_elementText (name : Text) (e : LuaValue × LuaValue) :
    (elementText name e.1 e.2).length = elementLength name e := by
  have hmarks : (txt "[").length = 1 ∧ (txt "]=").length = 2 ∧ (txt "|").length = 1 := by decide
  simp only [elementText, elementLength, List.length_append]
  omega

theorem length_typename (v : LuaValue) : v.typename.length ≤ 8 := by
  cases v <;> simp [LuaValue.typename, txt]

theorem ofInt_fits_iff (i : ℤ) : fits Buffers.declared.number (ofInt i).length ↔
    -100 < i ∧ i < 1000 := by
  have hdigits (n k : ℕ) (hk : 0 < k) : (Nat.toDigits 10 n).length ≤ k ↔ n < 10 ^ k :=
    Nat.length_toDigits_le_iff (by omega) hk
  simp only [Buffers.declared, fits, decide_eq_true_eq]
  cases i with
  | ofNat n =>
    have h := hdigits n 3 (by omega)
    simp only [ofInt, Int.ofNat_eq_natCast]
    omega
  | negSucc n =>
    have h := hdigits (n+1) 2 (by omega)
    simp only [ofInt, List.length_cons, Int.negSucc_eq]
    omega

end Lengths

section Stack

variable (L : LuaState)

theorem ideStackTrace_inside :
    ideStackTrace .declared L ≠ .error .overflow ↔ traceFits L := by
  have hlength : (traceText L).length =
      (L.levels.map (fun level => spanOf (levelFields L level) + 1)).sum := by
    have hlevel (level : Level) :
        (levelText L level).length = spanOf (levelFields L level) + 1 := by
      rw [levelText, List.length_append, length_terminated]
      rfl
    rw [traceText, List.length_flatMap, List.map_reverse, List.sum_reverse]
    simp only [hlevel]
  rw [(ideStackTrace_failsOnly L _).ne_error_iff]
  simp only [ideStackTrace_eq_ok _ Buffers.inhabited_declared, exists_and_left, exists_eq,
    and_true, ofInt_fits_iff, hlength]
  simp [traceFits, Buffers.declared, fits]

theorem stackDumpForIde_inside :
    stackDumpForIde .declared L ≠ .error .overflow ↔ dumpFits L := by
  rw [(stackDumpForIde_failsOnly L _).ne_error_iff]
  simp only [stackDumpForIde_eq_ok _ Buffers.inhabited_declared, exists_and_left, exists_eq,
    and_true, dumpText, length_terminated]
  simp [dumpFits, Buffers.declared, fits]

end Stack

section Variable

variable (L : LuaState)

theorem elementRoom_declared (name : Text) (key value : LuaValue) :
    elementRoom .declared name key value ↔ name.length + 1 < 80 := by
  have hkey := key.length_printIt
  have hvalue := value.length_printIt
  have hbracket : (txt "[").length = 1 ∧ (txt "]=").length = 2 := by decide
  simp only [elementRoom, Buffers.declared, fits, decide_eq_true_eq, List.length_append]
  omega

/-- The text of a value that is no table is short. -/
theorem length_scalarText (i : ℕ) (v : LuaValue) : (scalarText L i v).length < 64 := by
  have htype : (txt "type " ++ v.typename ++ txt " not yet displayable").length < 64 := by
    have hname := length_typename v
    have htexts : (txt "type ").length = 5 ∧ (txt " not yet displayable").length = 20 := by decide
    simp only [List.length_append]
    omega
  cases v with
  | number n => exact n.short
  | string s =>
    simp only [scalarText, List.length_take]
    omega
  | boolean b =>
    simp only [scalarText]
    split_ifs <;> decide
  | _ => exact htype

theorem localRoom_declared (i : ℕ) (name : Text) (v : LuaValue) :
    localRoom .declared L i name v ↔ ∀ ref, v = .table ref →
      (L.heap ref ≠ [] → name.length + 1 < 80) ∧
        ((L.heap ref).map (elementLength name)).sum < 8096 := by
  have hscalar : fits Buffers.declared.value (scalarText L i v).length = true ∧
      fits Buffers.declared.val (scalarText L i v).length := by
    have hshort := length_scalarText L i v
    simp only [Buffers.declared, fits, decide_eq_true_eq]
    omega
  cases v with
  | table ref =>
    have hlength : (localText L i name (.table ref)).length =
        ((L.heap ref).map (elementLength name)).sum := by
      simp only [localText, List.length_flatMap, length_elementText]
    have hroom : (∀ e ∈ L.heap ref, name.length + 1 < 80) ↔
        (L.heap ref ≠ [] → name.length + 1 < 80) := by
      constructor
      · intro h hne
        obtain ⟨e, he⟩ := List.exists_mem_of_ne_nil _ hne
        exact h e he
      · exact fun h e he => h (List.ne_nil_of_mem he)
    simp only [localRoom, elementRoom_declared, hlength, hroom, LuaValue.table.injEq, forall_eq']
    simp [Buffers.declared, fits]
  | _ => exact iff_of_true hscalar (by simp)

/-- Without a name there is nothing to write but `notFound`. -/
theorem getLocalVarValue_inside (nLevel : ℤ) (var : Option Text) :
    getLocalVarValue .declared L nLevel var ≠ .error .overflow ↔
      ∀ name, var = some name → variableFits L nLevel name := by
  cases var with
  | none =>
    exact iff_of_true ((getLocalVarValue_none L nLevel).ne_error (by decide)) (by simp)
  | some var =>
    rw [(getLocalVarValue_failsOnly L nLevel var).ne_error_iff]
    simp only [getLocalVarValue_eq_ok _ Buffers.inhabited_declared, exists_and_left, exists_eq,
      and_true, varRoom, localRoom_declared]
    have hfit : fits Buffers.declared.val (txt "notFound").length = true := by decide
    simp only [hfit, true_and, ne_eq, reduceCtorEq, not_false_eq_true, true_or, implies_true,
      Option.some.injEq, forall_eq', variableFits]
    exact ⟨fun h i name ref hw => h i name _ hw ref rfl,
      fun h i name v hw ref hv => h i name ref (hv ▸ hw)⟩

end Variable

section Globals

variable (L : LuaState)

theorem length_typeText (v : LuaValue) :
    (txt "type " ++ v.typename ++ txt " = not yet displayable").length =
      27 + v.typename.length := by
  have htexts : (txt "type ").length = 5 ∧ (txt " = not yet displayable").length = 22 := by decide
  simp only [List.length_append]
  omega

theorem length_entryText (e : LuaValue × LuaValue) :
    (entryText L e).length = entryLength L e := by
  obtain ⟨key, v⟩ := e
  have hpair (name text : Text) : (pairText name text).length = name.length + text.length + 2 := by
    have hmarks : (txt "=").length = 1 ∧ (txt "|").length = 1 := by decide
    simp only [pairText, List.length_append]
    omega
  cases v with
  | function => rfl
  | number n => exact hpair _ _
  | string s =>
    simp only [entryText, entryLength, globalValueText, hpair, List.length_take]
  | boolean b =>
    have hbool : (txt "true").length = 4 ∧ (txt "false").length = 5 := by decide
    simp only [entryText, entryLength, globalValueText, hpair]
    split_ifs <;> omega
  | table ref =>
    have hmarks : startGlobalTable.length = 33 ∧ endGlobalTable.length = 29 ∧
        (txt "|").length = 1 := by decide +kernel
    have hkept (x : LuaValue × LuaValue) (name : Text) : (keptElement name x).length =
        if OneLine name ∧ OneLine x.1.printIt ∧ OneLine x.2.printIt then elementLength name x
        else 0 := by
      simp only [keptElement, oneLine_elementText]
      split_ifs
      · exact length_elementText name x
      · rfl
    simp only [entryText, entryLength, tableText, List.length_append, List.length_flatMap, hkept]
    omega
  | _ => exact length_typeText _

theorem length_entryStep (val : Text) (e : LuaValue × LuaValue) :
    (entryStep L val e).length = lengthBehind L val.length e := by
  rw [entryStep, lengthBehind, ← length_entryText]
  split_ifs
  · exact List.length_append
  · rfl

/-- What goes through the array `value` is short. -/
theorem length_globalValueText (key v : LuaValue) : (globalValueText L key v).length < 64 := by
  have htype : (txt "type " ++ v.typename ++ txt " = not yet displayable").length < 64 := by
    have hname := length_typename v
    rw [length_typeText]
    omega
  cases v with
  | number n => exact n.short
  | string s =>
    simp only [globalValueText, List.length_take]
    omega
  | boolean b =>
    simp only [globalValueText]
    split_ifs <;> decide
  | _ => exact htype

theorem entryRoom_declared (e : LuaValue × LuaValue) :
    entryRoom .declared L e ↔ nameServes L e = true ∧ ∀ ref, e.2 = .table ref →
      ∀ x ∈ L.heap ref, ((tostring e.1).getD []).length + 1 < 80 ∧
        elementLength ((tostring e.1).getD []) x < 200 := by
  obtain ⟨key, v⟩ := e
  have hvalue (v : LuaValue) : fits Buffers.declared.value (globalValueText L key v).length := by
    have hshort := length_globalValueText L key v
    simpa [Buffers.declared, fits] using hshort
  have hserves : (tostring key).isSome = true ↔ tostring key ≠ none := Option.isSome_iff_ne_none
  have hpair (v : LuaValue) :
      (fits Buffers.declared.value (globalValueText L key v).length ∧ tostring key ≠ none) ↔
        (tostring key).isSome = true := by
    rw [hserves, and_iff_right (hvalue v)]
  cases v with
  | function => simp [entryRoom, nameServes]
  | number n => exact (hpair (.number n)).trans (by simp [nameServes])
  | string s => exact (hpair (.string s)).trans (by simp [nameServes])
  | boolean b => exact (hpair (.boolean b)).trans (by simp [nameServes])
  | table ref =>
    have htmpbuf (x : LuaValue × LuaValue) (name : Text) :
        fits Buffers.declared.tmpbuf (elementText name x.1 x.2).length ↔
          elementLength name x < 200 := by
      rw [length_elementText]
      simp [Buffers.declared, fits]
    simp only [entryRoom, nameServes, elementRoom_declared, htmpbuf, Bool.or_eq_true, hserves,
      List.isEmpty_iff, LuaValue.table.injEq, forall_eq']
    -- without elements nothing asks for the name
    constructor
    · intro h
      refine ⟨?_, fun x hx => (h x hx).2⟩
      rcases hheap : L.heap ref with _ | ⟨x, xs⟩
      · exact .inr rfl
      · exact .inl (h x (hheap ▸ List.mem_cons_self)).1
    · rintro ⟨hname | hempty, hall⟩ x hx
      · exact ⟨hname, hall x hx⟩
      · rw [hempty] at hx
        cases hx
  | _ => exact iff_of_true (hvalue _) (by simp [nameServes])

/-- With a name where one is needed, only the arrays can be in the way. -/
theorem globalEntry_failsOnly (b : Buffers) (val : Text) (e : LuaValue × LuaValue)
    (h : nameServes L e = true) : FailsOnly .overflow (globalEntry b L val e.1 e.2) := by
  obtain ⟨key, v⟩ := e
  have hpair (text : Text) (hname : (tostring key).isSome = true) :
      FailsOnly .overflow (appendPair b val (tostring key) text) := by
    obtain ⟨name, hn⟩ := Option.isSome_iff_exists.mp hname
    rw [appendPair, hn]
    exact (sprintf_failsOnly _ _).bind fun value => (strcat_failsOnly _ val name).bind fun val =>
      (strcat_failsOnly _ _ _).bind fun val => (strcat_failsOnly _ _ _).bind fun val =>
        strcat_failsOnly _ _ _
  have hother (text : Text) :
      FailsOnly .overflow (sprintf b.value text >>= fun value => strcat b.val [] value) :=
    (sprintf_failsOnly _ _).bind fun value => strcat_failsOnly _ _ _
  cases v with
  | function => exact .ok val
  | number n | string s | boolean v => exact hpair _ h
  | table ref =>
    have helements (val : Text) : FailsOnly .overflow ((L.heap ref).foldlM
        (fun val e => do globalElement b (← notNull (tostring key)) val e) val) := by
      rcases Bool.or_eq_true _ _ ▸ h with hname | hempty
      · obtain ⟨name, hn⟩ := Option.isSome_iff_exists.mp hname
        rw [hn]
        exact FailsOnly.foldlM (fun val e => globalElement_failsOnly b name val e) _ val
      · rw [List.isEmpty_iff.mp hempty]
        exact .ok val
    exact (strcat_failsOnly _ _ _).bind fun val => (helements val).bind fun val =>
      strcat_failsOnly _ _ _
  | _ => exact hother _

/-- Without it a pair is not written at all, and of a table the start marker is. -/
theorem globalEntry_nameless {val : Text} (e : LuaValue × LuaValue)
    (h : nameServes L e = false) : globalEntry .declared L val e.1 e.2 ≠ .error .overflow ↔
      ∀ ref, e.2 = .table ref → val.length + 34 < 8096 := by
  obtain ⟨key, v⟩ := e
  have hpair (v : LuaValue) (hname : (tostring key).isSome = false) :
      appendPair .declared val (tostring key) (globalValueText L key v) = .error .nullPointer := by
    have hvalue : sprintf Buffers.declared.value (globalValueText L key v) =
        .ok (globalValueText L key v) := by
      have hshort := length_globalValueText L key v
      rw [sprintf_eq_ok]
      simpa [Buffers.declared, fits] using hshort
    have hnone : tostring key = none := by simpa using hname
    rw [appendPair, hvalue, hnone]
    rfl
  have hnoTable {v : LuaValue} (hv : ∀ ref, v ≠ .table ref) (hname : (tostring key).isSome = false)
      (hentry : globalEntry .declared L val key v =
        appendPair .declared val (tostring key) (globalValueText L key v)) :
      globalEntry .declared L val key v ≠ .error .overflow ↔
        ∀ ref, v = .table ref → val.length + 34 < 8096 := by
    rw [hentry, hpair v hname]
    exact iff_of_true (by simp) fun ref hr => absurd hr (hv ref)
  cases v with
  | number n | string s | boolean b => exact hnoTable (by simp) h rfl
  | table ref =>
    obtain ⟨hname, hheap⟩ := Bool.or_eq_false_iff.mp h
    have hnone : tostring key = none := by simpa using hname
    have hstart : (startGlobalTable ++ txt "|").length = 34 := by decide +kernel
    simp only [globalEntry, strcat, hstart, hnone, notNull, LuaValue.table.injEq, forall_eq']
    cases hes : L.heap ref with
    | nil => simp [hes] at hheap
    | cons x es =>
      by_cases hfit : val.length + 34 < 8096
      · simp [hfit, Buffers.declared, fits, bind, Except.bind]
      · simp [hfit, Buffers.declared, fits, bind, Except.bind]
  | _ => cases h

theorem fits_val (n : ℕ) : fits Buffers.declared.val n ↔ n < 8096 := by
  simp [Buffers.declared, fits]

theorem globalEntry_inside {val : Text} (hval : val.length < 8096) (e : LuaValue × LuaValue) :
    globalEntry .declared L val e.1 e.2 ≠ .error .overflow ↔ entryFits L val.length e := by
  cases h : nameServes L e with
  | false =>
    rw [globalEntry_nameless L e h, entryFits, h]
    simp
  | true =>
    rw [(globalEntry_failsOnly L _ val e h).ne_error_iff]
    simp only [globalEntry_eq_ok _ Buffers.inhabited_declared L val _ e ((fits_val _).mpr hval),
      exists_and_left, exists_eq, and_true, entryRoom_declared, h, true_and, fits_val,
      length_entryStep, entryFits, forall_const]
    -- the whole is longer than what is there and the start marker
    refine (and_iff_right_of_imp ?_).symm
    rintro ⟨-, hlen⟩ ref href
    have htable : lengthBehind L val.length e = val.length + entryLength L e := by
      simp [lengthBehind, href, displayable]
    have hlong : 64 ≤ entryLength L e := by
      simp [entryLength, href]
    omega

/-- The passes of `getGlobals` from a position on. `getGlobals` is given one more than there are
globals; here their number is open. -/
def goesOver (passes i : ℕ) (val : Text) : Except Fault Text :=
  traverse (L.heap L.globals) (L.cleared L.globals) (fun v => !v.isFunction)
    (globalEntry .declared L) passes i val

theorem length_written {val t : Text} {e : LuaValue × LuaValue} (hval : val.length < 8096)
    (h : globalEntry .declared L val e.1 e.2 = .ok t) : t.length < 8096 := by
  obtain ⟨⟨-, hlen⟩, rfl⟩ := (globalEntry_eq_ok _ Buffers.inhabited_declared L val t e
    ((fits_val _).mpr hval)).mp h
  exact (fits_val _).mp hlen

/-- One pass that comes to its end: the next position, and the text behind the global. -/
theorem lengthNext_eq_some {i j len : ℕ} {val : Text} {e : LuaValue × LuaValue}
    (he : (L.heap L.globals)[i]? = some e) (hval : val.length < 8096)
    (hfit : entryFits L val.length e) :
    lengthNext L (i, val.length) = some (j, len) ↔
      ∃ t, globalEntry .declared L val e.1 e.2 = .ok t ∧ t.length = len ∧
        nextPosition (L.heap L.globals) (L.cleared L.globals) (!e.2.isFunction) e.1 i = .ok j := by
  have hwritten (t : Text) : globalEntry .declared L val e.1 e.2 = .ok t ↔
      nameServes L e = true ∧ t = entryStep L val e := by
    rw [globalEntry_eq_ok _ Buffers.inhabited_declared L val t e ((fits_val _).mpr hval),
      entryRoom_declared, length_entryStep, fits_val]
    constructor
    · rintro ⟨⟨⟨hserves, -⟩, -⟩, rfl⟩
      exact ⟨hserves, rfl⟩
    · rintro ⟨hserves, rfl⟩
      obtain ⟨helements, hlen⟩ := hfit.2 hserves
      exact ⟨⟨⟨hserves, helements⟩, hlen⟩, rfl⟩
  have hnext : goesOn (L.heap L.globals) (L.cleared L.globals) (fun v => !v.isFunction) i = some j ↔
      nextPosition (L.heap L.globals) (L.cleared L.globals) (!e.2.isFunction) e.1 i = .ok j := by
    rw [goesOn_at he]
    cases nextPosition (L.heap L.globals) (L.cleared L.globals) (!e.2.isFunction) e.1 i <;>
      simp [Except.toOption]
  cases h : nameServes L e with
  | false => simp [lengthNext, he, h, hwritten]
  | true =>
    simp only [lengthNext, he, h, Option.bind_some, if_true, Option.map_eq_some_iff, Prod.mk.injEq,
      hwritten, true_and, exists_eq_left, length_entryStep]
    constructor
    · rintro ⟨j', hj', rfl, rfl⟩
      exact ⟨rfl, hnext.mp hj'⟩
    · rintro ⟨rfl, hj⟩
      exact ⟨j, hnext.mpr hj, rfl, rfl⟩

/-- The first pass shows that there is room for the global it comes by. -/
theorem entryFits_of_inside {i : ℕ} {val : Text} {e : LuaValue × LuaValue}
    (hval : val.length < 8096) (h : goesOver L 1 i val ≠ .error .overflow)
    (he : (L.heap L.globals)[i]? = some e) : entryFits L val.length e := by
  refine (globalEntry_inside L hval e).mp fun hover => h ?_
  rw [goesOver, traverse, he]
  simp only [hover]
  rfl

/-- A pass that comes to its end leaves the others to do. -/
theorem goesOver_succ {passes i j : ℕ} {val t : Text} {e : LuaValue × LuaValue}
    (he : (L.heap L.globals)[i]? = some e) (ht : globalEntry .declared L val e.1 e.2 = .ok t)
    (hj : nextPosition (L.heap L.globals) (L.cleared L.globals) (!e.2.isFunction) e.1 i = .ok j) :
    goesOver L (passes+1) i val = goesOver L passes j t := by
  rw [goesOver, traverse, he]
  simp only [ht, hj]
  rfl

/-- Passes that stay inside find room at every global they come by. -/
theorem room_of_goesOver {n i j len : ℕ} {val : Text} {e : LuaValue × LuaValue}
    (hval : val.length < 8096) (h : ∀ passes, goesOver L passes i val ≠ .error .overflow)
    (hn : steps (lengthNext L) n (i, val.length) = some (j, len))
    (he : (L.heap L.globals)[j]? = some e) : entryFits L len e := by
  induction n generalizing i val with
  | zero =>
    cases hn
    exact entryFits_of_inside L hval (h 1) he
  | succ n ih =>
    rw [steps] at hn
    obtain ⟨⟨i', len'⟩, hnext, hn⟩ := Option.bind_eq_some_iff.mp hn
    obtain ⟨e', he', -⟩ := Option.bind_eq_some_iff.mp hnext
    -- there is room for the global at `i`, so its pass ends and the further ones go on behind it
    have hfit := entryFits_of_inside L hval (h 1) he'
    obtain ⟨t, ht, rfl, hi'⟩ := (lengthNext_eq_some L he' hval hfit).mp hnext
    apply ih (length_written L hval ht) ?_ hn
    intro passes
    rw [← goesOver_succ L he' ht hi']
    exact h (passes+1)

/-- The passes stay inside exactly when there is room at every global they come by. -/
theorem goesOver_inside (i : ℕ) {val : Text} (hval : val.length < 8096) :
    (∀ passes, goesOver L passes i val ≠ .error .overflow) ↔
      ∀ n j len e, steps (lengthNext L) n (i, val.length) = some (j, len) →
        (L.heap L.globals)[j]? = some e → entryFits L len e := by
  refine ⟨fun h n j len e hn he => room_of_goesOver L hval h hn he, fun h passes => ?_⟩
  induction passes generalizing i val with
  | zero => simp [goesOver, traverse]
  | succ passes ih =>
    cases he : (L.heap L.globals)[i]? with
    | none => simp [goesOver, traverse, he]
    | some e =>
      have hfit : entryFits L val.length e := h 0 i val.length e rfl he
      have hinside := (globalEntry_inside L hval e).mpr hfit
      cases ht : globalEntry .declared L val e.1 e.2 with
      | error why =>
        rw [goesOver, traverse, he]
        simpa [ht, bind, Except.bind] using hinside
      | ok t =>
        cases hj : nextPosition (L.heap L.globals) (L.cleared L.globals) (!e.2.isFunction) e.1
            i with
        | error why =>
          -- the error that Lua raises is another one
          intro hover
          rw [goesOver, traverse, he] at hover
          have hother := (nextPosition_failsOnly (L.heap L.globals) (L.cleared L.globals)
            (!e.2.isFunction) e.1 i).ne_error (e := .overflow) (by decide)
          exact hother (hj.trans (by simpa [ht, hj, bind, Except.bind] using hover))
        | ok j =>
          have hnext : lengthNext L (i, val.length) = some (j, t.length) :=
            (lengthNext_eq_some L he hval hfit).mpr ⟨t, ht, rfl, hj⟩
          rw [goesOver_succ L he ht hj]
          apply ih j (length_written L hval ht)
          intro n j' len e' hn
          apply h (n+1)
          rw [steps, hnext, Option.bind_some, hn]

/-- The length of the reply behind these globals. -/
def lengthOf (es : Table) : ℕ := es.foldl (lengthBehind L) 0

theorem lengthNext_of_string {i : ℕ} {e : LuaValue × LuaValue}
    (he : (L.heap L.globals)[i]? = some e) (hkey : ∃ s, e.1 = .string s) (len : ℕ) :
    lengthNext L (i, len) = some (i+1, lengthBehind L len e) := by
  obtain ⟨s, hs⟩ := hkey
  have hserves : nameServes L e = true := by
    unfold nameServes
    cases e.2 <;> simp [hs, tostring]
  have hgoes : goesOn (L.heap L.globals) (L.cleared L.globals) (fun v => !v.isFunction) i =
      some (i+1) := by
    rw [goesOn_at he, hs]
    cases !e.2.isFunction <;> rfl
  rw [lengthNext, he, Option.bind_some, hserves, if_pos rfl, hgoes]
  rfl

theorem lengthOf_concat (es : Table) (e : LuaValue × LuaValue) :
    lengthOf L (es ++ [e]) = lengthBehind L (lengthOf L es) e := by
  rw [lengthOf, List.foldl_append]
  rfl

/-- With names as keys the passes come by the globals in a row. -/
theorem steps_lengthNext (hkeys : ∀ e ∈ L.heap L.globals, ∃ s, e.1 = .string s) (n : ℕ) :
    steps (lengthNext L) n (0, 0) =
      if n ≤ (L.heap L.globals).length then some (n, lengthOf L ((L.heap L.globals).take n))
      else none := by
  induction n with
  | zero => rw [if_pos (Nat.zero_le _), List.take_zero, steps, lengthOf, List.foldl_nil]
  | succ n ih =>
    rw [steps_add, ih]
    by_cases hlt : n + 1 ≤ (L.heap L.globals).length
    · have hnext := lengthNext_of_string L (List.getElem?_eq_getElem hlt)
        (hkeys _ (List.getElem_mem hlt))
      rw [if_pos (by omega), if_pos hlt, Option.bind_some, steps, hnext, Option.bind_some, steps,
        List.take_succ_eq_append_getElem hlt, lengthOf_concat]
    · -- behind the last global there is no pass
      rw [if_neg hlt]
      by_cases hle : n ≤ (L.heap L.globals).length
      · have hnone : (L.heap L.globals)[n]? = none := List.getElem?_eq_none (by omega)
        rw [if_pos hle, Option.bind_some, steps, lengthNext, hnone]
        rfl
      · rw [if_neg hle]
        rfl

/-- Then there is room for all of them exactly when there is for each behind those before it. -/
theorem globalsFit_iff_of_strings (hkeys : ∀ e ∈ L.heap L.globals, ∃ s, e.1 = .string s) :
    globalsFit L ↔
      ∀ es e, es ++ [e] <+: L.heap L.globals → entryFits L (lengthOf L es) e := by
  constructor
  · rintro h es e ⟨rest, hrest⟩
    have htake : (L.heap L.globals).take es.length = es := by
      rw [← hrest, List.append_assoc, List.take_left]
    have hget : (L.heap L.globals)[es.length]? = some e := by
      rw [← hrest, List.append_assoc, List.getElem?_append_right le_rfl]
      simp
    have hle : es.length ≤ (L.heap L.globals).length :=
      (List.getElem?_eq_some_iff.mp hget).1.le
    apply h es.length es.length _ e ?_ hget
    rw [steps_lengthNext L hkeys, if_pos hle, htake]
  · intro h n i len e hn he
    rw [steps_lengthNext L hkeys] at hn
    split_ifs at hn
    obtain ⟨rfl, rfl⟩ := Prod.mk.inj (Option.some.inj hn)
    obtain ⟨hlt, rfl⟩ := List.getElem?_eq_some_iff.mp he
    apply h
    rw [← List.take_succ_eq_append_getElem hlt]
    exact List.take_prefix _ _

end Globals

/-- Whatever is asked for, and however many passes it takes, every write lies inside of its
array. -/
structure RepliesInside (L : LuaState) : Prop where
  stack : ideStackTrace .declared L ≠ .error .overflow
  variable' : ∀ nLevel var, getLocalVarValue .declared L nLevel var ≠ .error .overflow
  globals : ∀ passes, goesOver L passes 0 [] ≠ .error .overflow
  data : stackDumpForIde .declared L ≠ .error .overflow

/-- The reply buffers are not exceeded exactly when what goes into them is short enough. -/
theorem repliesInside_iff (L : LuaState) :
    RepliesInside L ↔
      traceFits L ∧ (∀ nLevel name, variableFits L nLevel name) ∧ globalsFit L ∧ dumpFits L := by
  have hvariable : (∀ nLevel var, getLocalVarValue .declared L nLevel var ≠ .error .overflow) ↔
      ∀ nLevel name, variableFits L nLevel name := by
    simp only [getLocalVarValue_inside]
    exact ⟨fun h nLevel name => h nLevel _ name rfl, fun h nLevel _ name _ => h nLevel name⟩
  have hglobals : (∀ passes, goesOver L passes 0 [] ≠ .error .overflow) ↔ globalsFit L :=
    goesOver_inside L 0 (by decide)
  rw [← ideStackTrace_inside, ← hvariable, ← hglobals, ← stackDumpForIde_inside]
  exact ⟨fun h => ⟨h.stack, h.variable', h.globals, h.data⟩,
    fun ⟨hstack, hvar, hglob, hdata⟩ => ⟨hstack, hvar, hglob, hdata⟩⟩

/-- Line 1000 of a script has one digit more than `number` has room for. -/
theorem fourDigits_overflow :
    ¬ RepliesInside (LuaState.mainChunk (txt "@script.lua") (saturate 1000)) :=
  fun h => h.stack rfl

end LuaIde
