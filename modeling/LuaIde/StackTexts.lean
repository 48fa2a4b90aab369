import LuaIde.ReplyTexts

/-! The texts of the stack replies: stack slots, call stack, and one local. -/
namespace LuaIde

open LineText DecimalText Delimited CheckedFold

def dumpText (L : LuaState) : Text := terminated '|' (L.stack.map (dataText L))

theorem stackDumpForIde_failsOnly (L : LuaState) (b : Buffers) :
    FailsOnly .overflow (stackDumpForIde b L) := by
  refine FailsOnly.foldlM (fun results v => ?_) _ _
  exact (strcat_failsOnly _ _ _).bind fun results => strcat_failsOnly _ _ _

theorem stackDumpForIde_eq_ok (b : Buffers) (hb : b.Inhabited) (L : LuaState) (t : Text) :
    stackDumpForIde b L = .ok t ↔ fits b.data (dumpText L).length ∧ t = dumpText L := by
  have hbody (v : LuaValue) : Writes b.data True (dataText L v ++ txt "|") (fun s => do
      let s ← strcat b.data s (dataText L v)
      strcat b.data s (txt "|")) :=
    ((writes_strcat b.data (dataText L v)).bind (writes_strcat b.data (txt "|"))).congr (by simp)
  have h := Appends.foldlM (fits_mono b.data) hbody L.stack [] hb.2.2.1 t
  have htext : L.stack.flatMap (fun v => dataText L v ++ txt "|") = dumpText L := by
    simp [dumpText, terminated, List.flatMap_map, txt]
  rw [htext] at h
  simpa [stackDumpForIde] using h

/-- The locals `ideStackTrace` lists for a level. -/
def listed (L : LuaState) (level : Level) : List Text :=
  ((L.getlocals level).map Prod.fst).filter (fun name => decide (name ≠ temporaryName))

def levelFields (L : LuaState) (level : Level) : List Text :=
  level.getinfo.source :: ofInt level.getinfo.currentline.val :: functionName level.getinfo ::
    listed L level

def levelText (L : LuaState) (level : Level) : Text :=
  terminated '|' (levelFields L level) ++ txt "#"

def traceText (L : LuaState) : Text := L.levels.reverse.flatMap (levelText L)

theorem writes_appendLocal (b : Buffers) (x : Text × LuaValue) :
    Writes b.str True (terminated '|' ([x.1].filter (fun name => decide (name ≠ temporaryName))))
      (fun s => appendLocal b s x) := by
  unfold appendLocal
  by_cases h : x.1 = temporaryName
  · simp only [h, ne_eq, not_true_eq_false, if_false, decide_false, List.filter_singleton]
    exact Appends.nothing
  · have hw := (writes_strcat b.str x.1).bind (writes_strcat b.str (txt "|"))
    simp only [h, ne_eq, not_false_eq_true, if_true, decide_true, List.filter_singleton]
    simpa [terminated, txt] using hw

theorem terminated_listed (ls : List (Text × LuaValue)) :
    terminated '|' ((ls.map Prod.fst).filter (fun name => decide (name ≠ temporaryName))) =
      ls.flatMap (fun x =>
        terminated '|' ([x.1].filter (fun name => decide (name ≠ temporaryName)))) := by
  induction ls with
  | nil => rfl
  | cons x ls ih =>
    rw [List.flatMap_cons, ← ih, ← terminated_append, ← List.filter_append]
    rfl

theorem writes_appendLevel (b : Buffers) (L : LuaState) (level : Level) :
    Writes b.str (fits b.number (ofInt level.getinfo.currentline.val).length = true)
      (levelText L level) (fun s => appendLevel b L s level) := by
  have hbar := writes_strcat b.str (txt "|")
  have hlocals := Appends.foldlM (fits_mono b.str) (writes_appendLocal b) (L.getlocals level)
  rw [← terminated_listed] at hlocals
  have h := (writes_strcat b.str level.getinfo.source).bind (hbar.bind
    ((writes_sprintf b.str b.number (ofInt level.getinfo.currentline.val)).bind (hbar.bind
      ((writes_strcat b.str (functionName level.getinfo)).bind (hbar.bind
        (Writes.bind hlocals (writes_strcat b.str (txt "#"))))))))
  intro s hs t
  have hp := h s hs t
  have htext : level.getinfo.source ++ (txt "|" ++ (ofInt level.getinfo.currentline.val ++
      (txt "|" ++ (functionName level.getinfo ++ (txt "|" ++
        (terminated '|' (listed L level) ++ txt "#")))))) = levelText L level := by
    simp [levelText, levelFields, terminated_cons, txt]
  simp only [bind_assoc, and_true, true_and, implies_true] at hp
  rw [← htext]
  exact hp

theorem ideStackTrace_failsOnly (L : LuaState) (b : Buffers) :
    FailsOnly .overflow (ideStackTrace b L) := by
  have happend (cap : Option ℕ) (s : Text) {k : Text → Except Fault Text}
      (hk : ∀ t, FailsOnly .overflow (k t)) (str : Text) :
      FailsOnly .overflow (strcat cap str s >>= k) := (strcat_failsOnly cap str s).bind hk
  refine FailsOnly.foldlM (fun str level => ?_) _ _
  unfold appendLevel
  refine happend _ _ (fun str => happend _ _ (fun str => ?_) _) _
  refine (sprintf_failsOnly _ _).bind fun number => ?_
  refine happend _ _ (fun str => happend _ _ (fun str => happend _ _ (fun str => happend _ _
    (fun str => ?_) _) _) _) _
  refine (FailsOnly.foldlM (fun str x => ?_) _ _).bind fun str => strcat_failsOnly _ _ _
  unfold appendLocal
  split_ifs
  · exact (strcat_failsOnly _ _ _).bind fun str => strcat_failsOnly _ _ _
  · exact .ok str

theorem ideStackTrace_eq_ok (b : Buffers) (hb : b.Inhabited) (L : LuaState) (t : Text) :
    ideStackTrace b L = .ok t ↔
      ((∀ level ∈ L.levels, fits b.number (ofInt level.getinfo.currentline.val).length) ∧
        fits b.str (traceText L).length) ∧ t = traceText L := by
  have h := Appends.foldlM (fits_mono b.str) (writes_appendLevel b L) L.levels.reverse [] hb.2.2.2 t
  simpa [ideStackTrace, traceText] using h

theorem oneLine_traceText (L : LuaState) :
    OneLine (traceText L) ↔ ∀ level ∈ L.levels, ∀ field ∈ levelFields L level, OneLine field := by
  have hend : OneLine (txt "#") := by decide
  rw [traceText, oneLine_flatMap]
  simp only [List.mem_reverse, levelText, oneLine_append, oneLine_terminated '|' (by decide), hend,
    and_true]

/-- The first local of that name and its number. -/
def firstLocal (var : Text) : ℕ → List (Text × LuaValue) → Option (ℕ × Text × LuaValue)
  | _, [] => none
  | i, (name, value) :: rest =>
    if var = name then some (i, name, value) else firstLocal var (i+1) rest

theorem findLocal_some (var : Text) (i : ℕ) (ls : List (Text × LuaValue)) :
    findLocal (some var) i ls = .ok (firstLocal var i ls) := by
  induction ls generalizing i with
  | nil => rfl
  | cons x ls ih =>
    obtain ⟨name, value⟩ := x
    simp only [findLocal, firstLocal, token, bind, Except.bind]
    split_ifs
    · rfl
    · exact ih (i+1)

theorem findLocal_eq_ok (var : Option Text) (i : ℕ) (ls : List (Text × LuaValue))
    (r : Option (ℕ × Text × LuaValue)) :
    findLocal var i ls = .ok r ↔
      (var ≠ none ∨ ls = []) ∧ r = firstLocal (var.getD []) i ls := by
  cases var with
  | some var =>
    rw [findLocal_some]
    simp [eq_comm]
  | none =>
    cases ls with
    | nil => simp [findLocal, firstLocal, eq_comm]
    | cons x ls => simp [findLocal, token, bind, Except.bind]

theorem firstLocal_getElem {var : Text} {i j : ℕ} {ls : List (Text × LuaValue)} {name : Text}
    {v : LuaValue} (h : firstLocal var i ls = some (j, name, v)) :
    ∃ k, j = i + k ∧ ls[k]? = some (name, v) ∧ var = name ∧ ∀ x ∈ ls.take k, x.1 ≠ var := by
  induction ls generalizing i with
  | nil => simp [firstLocal] at h
  | cons x ls ih =>
    obtain ⟨m, w⟩ := x
    rw [firstLocal] at h
    split_ifs at h with hm
    · simp only [Option.some.injEq, Prod.mk.injEq] at h
      obtain ⟨rfl, rfl, rfl⟩ := h
      exact ⟨0, rfl, rfl, hm, by simp⟩
    · obtain ⟨k, rfl, hk, hn, hfirst⟩ := ih h
      refine ⟨k+1, by omega, hk, hn, ?_⟩
      intro y hy
      rw [List.take_succ_cons] at hy
      rcases List.mem_cons.mp hy with rfl | hy
      · exact fun he => hm he.symm
      · exact hfirst y hy

theorem firstLocal_of_getElem {var : Text} {i k : ℕ} {ls : List (Text × LuaValue)} {v : LuaValue}
    (hk : ls[k]? = some (var, v)) (hfirst : ∀ x ∈ ls.take k, x.1 ≠ var) :
    firstLocal var i ls = some (i + k, var, v) := by
  induction ls generalizing i k with
  | nil => simp at hk
  | cons x ls ih =>
    obtain ⟨m, w⟩ := x
    rw [firstLocal]
    cases k with
    | zero =>
      obtain ⟨rfl, rfl⟩ : m = var ∧ w = v := by simpa using hk
      simp
    | succ k =>
      have hm : var ≠ m := fun he => hfirst (m, w) (by simp) he.symm
      rw [if_neg hm, ih hk (fun y hy => hfirst y (by simp [hy]))]
      congr 2
      omega

/-- The text for a value that is no table. -/
def scalarText (L : LuaState) (i : ℕ) : LuaValue → Text
  | .number n => n.text
  | .string s => (cstr s).take 63
  | .boolean v => if (L.slot [.boolean v] (i+1)).toboolean then txt "true" else txt "false"
  | v => txt "type " ++ v.typename ++ txt " not yet displayable"

def localText (L : LuaState) (i : ℕ) (name : Text) : LuaValue → Text
  | .table ref => (L.heap ref).flatMap (fun e => elementText name e.1 e.2)
  | v => scalarText L i v

/-- The room the text of a local needs. -/
def localRoom (b : Buffers) (L : LuaState) (i : ℕ) (name : Text) (v : LuaValue) : Prop :=
  (match v with
    | .table ref => ∀ e ∈ L.heap ref, elementRoom b name e.1 e.2
    | v => fits b.value (scalarText L i v).length = true) ∧
  fits b.val (localText L i name v).length

theorem localValue_eq_ok (b : Buffers) (hb : b.Inhabited) (L : LuaState) (i : ℕ) (name : Text)
    (v : LuaValue) (t : Text) :
    localValue b L i name v = .ok t ↔ localRoom b L i name v ∧ t = localText L i name v := by
  have hscalar : ∀ text : Text, (sprintf b.value text >>= fun v => strcat b.val [] v) = .ok t ↔
      (fits b.value text.length ∧ fits b.val text.length) ∧ t = text := by
    intro text
    have h := Appends.after (k := fun v s => strcat b.val s v)
      (sprintf_eq_ok b.value text) (writes_strcat b.val text) [] hb.2.1 t
    simpa using h
  cases v with
  | table ref =>
    have h := Appends.foldlM (fits_mono b.val)
      (fun e : LuaValue × LuaValue => writes_appendElement b b.val name e.1 e.2)
      (L.heap ref) [] hb.2.1 t
    simpa [localValue, localRoom, localText] using h
  | _ => exact hscalar _

/-- The local `getLocalVarValue` answers for. -/
def wantedLocal (L : LuaState) (nLevel : ℤ) (var : Option Text) : Option (ℕ × Text × LuaValue) :=
  (L.getstack nLevel).bind (fun level => firstLocal (var.getD []) 1 (L.getlocals level))

def varText (L : LuaState) (nLevel : ℤ) (var : Option Text) : Text :=
  match wantedLocal L nLevel var with
  | none => txt "notFound"
  | some (i, name, v) => localText L i name v

/-- A name is needed where there is a local to compare it with. -/
def varRoom (b : Buffers) (L : LuaState) (nLevel : ℤ) (var : Option Text) : Prop :=
  fits b.val (txt "notFound").length ∧
  (∀ level, L.getstack nLevel = some level → var ≠ none ∨ L.getlocals level = []) ∧
  ∀ i name v, wantedLocal L nLevel var = some (i, name, v) → localRoom b L i name v

theorem appendElement_failsOnly (b : Buffers) (cap : Option ℕ) (dst name : Text)
    (key value : LuaValue) : FailsOnly .overflow (appendElement b cap dst name key value) := by
  have happend (s : Text) {k : Text → Except Fault Text} (hk : ∀ t, FailsOnly .overflow (k t))
      (dst : Text) : FailsOnly .overflow (sprintf b.buf s >>= fun x => strcat cap dst x >>= k) :=
    (sprintf_failsOnly _ s).bind fun x => (strcat_failsOnly cap dst x).bind hk
  have hprint (v : LuaValue) {k : Text → Except Fault Text} (hk : ∀ t, FailsOnly .overflow (k t))
      (dst : Text) : FailsOnly .overflow
        (printIt b v >>= fun p => sprintf b.buf p >>= fun x => strcat cap dst x >>= k) :=
    (sprintf_failsOnly _ _).bind fun p => happend p hk dst
  exact happend _ (fun dst => hprint key (fun dst => happend _ (fun dst => hprint value
    (fun dst => strcat_failsOnly cap dst _) dst) dst) dst) dst

theorem globalElement_failsOnly (b : Buffers) (name val : Text) (e : LuaValue × LuaValue) :
    FailsOnly .overflow (globalElement b name val e) := by
  refine (appendElement_failsOnly b _ _ name _ _).bind fun tmpbuf => ?_
  split_ifs
  · exact .ok val
  · exact strcat_failsOnly _ _ _

theorem localValue_failsOnly (L : LuaState) (b : Buffers) (i : ℕ) (name : Text) (v : LuaValue) :
    FailsOnly .overflow (localValue b L i name v) := by
  have hscalar (s : Text) :
      FailsOnly .overflow (sprintf b.value s >>= fun value => strcat b.val [] value) :=
    (sprintf_failsOnly _ s).bind fun value => strcat_failsOnly _ _ _
  cases v with
  | table ref => exact FailsOnly.foldlM (fun val e => appendElement_failsOnly b _ val name _ _) _ _
  | _ => exact hscalar _

/-- Apart from a name that is missing the search of a local fails for want of room only. -/
theorem getLocalVarValue_failsOnly (L : LuaState) (nLevel : ℤ) (var : Text) :
    FailsOnly .overflow (getLocalVarValue .declared L nLevel (some var)) := by
  refine (strcat_failsOnly _ _ _).bind fun val => ?_
  rcases L.getstack nLevel with _ | level
  · exact .ok val
  · simp only [findLocal_some, bind, Except.bind]
    rcases firstLocal var 1 (L.getlocals level) with _ | ⟨i, name, v⟩
    · exact .ok val
    · exact localValue_failsOnly L _ i name v

theorem getLocalVarValue_none (L : LuaState) (nLevel : ℤ) :
    FailsOnly .missingToken (getLocalVarValue .declared L nLevel none) := by
  have hnotFound : strcat Buffers.declared.val [] (txt "notFound") = .ok (txt "notFound") := by
    rw [strcat_eq_ok]
    decide
  rw [getLocalVarValue, hnotFound]
  rcases L.getstack nLevel with _ | level
  · exact .ok _
  · simp only [bind, Except.bind]
    rcases hls : L.getlocals level with _ | ⟨x, ls⟩
    · exact .ok _
    · exact .error

theorem getLocalVarValue_eq_ok (b : Buffers) (hb : b.Inhabited) (L : LuaState) (nLevel : ℤ)
    (var : Option Text) (t : Text) :
    getLocalVarValue b L nLevel var = .ok t ↔
      varRoom b L nLevel var ∧ t = varText L nLevel var := by
  have hnf : ∀ s, strcat b.val [] (txt "notFound") = .ok s ↔
      fits b.val (txt "notFound").length ∧ s = txt "notFound" := by
    intro s
    simp [strcat_eq_ok]
  rw [getLocalVarValue, bind_eq_ok]
  rcases hl : L.getstack nLevel with _ | level
  · simp only [hnf, varRoom, varText, wantedLocal, hl, Option.bind_none]
    constructor
    · rintro ⟨s, ⟨hfit, rfl⟩, hs⟩
      exact ⟨⟨hfit, by simp⟩, (Except.ok.inj hs).symm⟩
    · rintro ⟨⟨hfit, -⟩, rfl⟩
      exact ⟨_, ⟨hfit, rfl⟩, rfl⟩
  · have hw : wantedLocal L nLevel var = firstLocal (var.getD []) 1 (L.getlocals level) := by
      rw [wantedLocal, hl]
      rfl
    simp only [hnf, varRoom, varText, hl, hw, bind_eq_ok, findLocal_eq_ok, Option.some.injEq,
      forall_eq']
    constructor
    · rintro ⟨s, ⟨hfit, rfl⟩, r, ⟨hvar, rfl⟩, hr⟩
      rcases hf : firstLocal (var.getD []) 1 (L.getlocals level) with _ | ⟨i, name, v⟩
      · rw [hf] at hr
        exact ⟨⟨hfit, hvar, by simp⟩, (Except.ok.inj hr).symm⟩
      · rw [hf] at hr
        obtain ⟨hroom, rfl⟩ := (localValue_eq_ok b hb L i name v t).mp hr
        refine ⟨⟨hfit, hvar, ?_⟩, rfl⟩
        rintro _ _ _ ⟨rfl, rfl, rfl⟩
        exact hroom
    · rintro ⟨⟨hfit, hvar, hroom⟩, rfl⟩
      refine ⟨_, ⟨hfit, rfl⟩, _, ⟨hvar, rfl⟩, ?_⟩
      rcases hf : firstLocal (var.getD []) 1 (L.getlocals level) with _ | ⟨i, name, v⟩
      · rfl
      · exact (localValue_eq_ok b hb L i name v _).mpr ⟨hroom i name v hf, rfl⟩

end LuaIde
