import LuaIde.CheckedFold
import LuaIde.LdbReplies
import Mathlib.Data.List.DropRight

/-! What the reply builders write when they come to their end. For each builder: the
text as a pure function of the Lua state, and the room in the arrays it needs. -/
namespace LuaIde

open LineText DecimalText CheckedFold

theorem fits_mono (cap : Option ℕ) (m n : ℕ) (h : m ≤ n) (hn : fits cap n) : fits cap m := by
  cases cap with
  | none => rfl
  | some c =>
    simp only [fits, decide_eq_true_eq] at hn ⊢
    omega

@[simp] theorem fits_none (n : ℕ) : fits none n = true := rfl

/-- A write into an array, as a step that appends. -/
abbrev Writes (cap : Option ℕ) (P : Prop) (text : Text)
    (f : Text → Except Fault Text) : Prop :=
  Appends (fun n => fits cap n) P text f

theorem strcat_eq_ok {cap : Option ℕ} {dst src t : Text} :
    strcat cap dst src = .ok t ↔ fits cap (dst.length + src.length) ∧ t = dst ++ src := by
  unfold strcat
  split_ifs with h
  · simp [h, eq_comm]
  · simp [h]

theorem sprintf_eq_ok (cap : Option ℕ) (s t : Text) :
    sprintf cap s = .ok t ↔ fits cap s.length ∧ t = s := by
  rw [sprintf, strcat_eq_ok]
  simp

theorem strcat_failsOnly (cap : Option ℕ) (dst src : Text) :
    FailsOnly .overflow (strcat cap dst src) := by
  unfold strcat
  split_ifs
  · exact .ok _
  · exact .error

theorem sprintf_failsOnly (cap : Option ℕ) (s : Text) : FailsOnly .overflow (sprintf cap s) :=
  strcat_failsOnly cap [] s

theorem writes_strcat (cap : Option ℕ) (src : Text) :
    Writes cap True src (fun s => strcat cap s src) := by
  intro s _ t
  rw [strcat_eq_ok]
  simp

theorem Writes.bind {cap : Option ℕ} {P Q : Prop} {text more : Text}
    {f g : Text → Except Fault Text} (hf : Writes cap P text f) (hg : Writes cap Q more g) :
    Writes cap (P ∧ Q) (text ++ more) (fun s => f s >>= g) :=
  Appends.bind (fits_mono cap) hf hg

/-- A formatted write: through a buffer of its own, then behind what `dst` holds. -/
theorem writes_sprintf (cap own : Option ℕ) (src : Text) :
    Writes cap (fits own src.length = true) src
      (fun s => sprintf own src >>= fun x => strcat cap s x) := by
  have h := Appends.after (k := fun x s => strcat cap s x) (sprintf_eq_ok own src)
    (writes_strcat cap src)
  exact h.congr (by simp)

/-- `name[key]=value|`. -/
def elementText (name : Text) (key value : LuaValue) : Text :=
  name ++ txt "[" ++ (key.printIt ++ (txt "]=" ++ (value.printIt ++ txt "|")))

theorem oneLine_elementText (name : Text) (key value : LuaValue) :
    OneLine (elementText name key value) ↔
      OneLine name ∧ OneLine key.printIt ∧ OneLine value.printIt := by
  have h : OneLine (txt "[") ∧ OneLine (txt "]=") ∧ OneLine (txt "|") := by decide
  simp only [elementText, oneLine_append]
  tauto

/-- The room the pieces of an element need on their way. -/
def elementRoom (b : Buffers) (name : Text) (key value : LuaValue) : Prop :=
  fits b.buf (name ++ txt "[").length ∧
    (fits b.printed key.printIt.length ∧ fits b.buf key.printIt.length) ∧
    fits b.buf (txt "]=").length ∧
    (fits b.printed value.printIt.length ∧ fits b.buf value.printIt.length)

theorem elementRoom_unbounded (name : Text) (key value : LuaValue) :
    elementRoom .unbounded name key value := by
  simp [elementRoom, Buffers.unbounded]

theorem writes_printIt (b : Buffers) (cap : Option ℕ) (v : LuaValue) :
    Writes cap (fits b.printed v.printIt.length = true ∧ fits b.buf v.printIt.length = true)
      v.printIt (fun s => printIt b v >>= fun p => sprintf b.buf p >>= fun x => strcat cap s x) :=
  Appends.after (k := fun p s => sprintf b.buf p >>= fun x => strcat cap s x)
    (sprintf_eq_ok b.printed v.printIt) (writes_sprintf cap b.buf v.printIt)

theorem writes_appendElement (b : Buffers) (cap : Option ℕ) (name : Text) (key value : LuaValue) :
    Writes cap (elementRoom b name key value) (elementText name key value)
      (fun s => appendElement b cap s name key value) := by
  have h := (writes_sprintf cap b.buf (name ++ txt "[")).bind
    ((writes_printIt b cap key).bind
      ((writes_sprintf cap b.buf (txt "]=")).bind
        ((writes_printIt b cap value).bind (writes_strcat cap (txt "|")))))
  intro s hs t
  have hp := h s hs t
  simp only [bind_assoc, and_true] at hp
  exact hp

/-- `name=value|`. -/
def pairText (name text : Text) : Text := name ++ (txt "=" ++ (text ++ txt "|"))

theorem writes_appendPair (b : Buffers) (name : Option Text) (text : Text) :
    Writes b.val (fits b.value text.length = true ∧ name ≠ none) (pairText (name.getD []) text)
      (fun val => appendPair b val name text) := by
  cases name with
  | none =>
    intro s _ t
    constructor
    · intro h
      obtain ⟨v, -, h'⟩ := bind_eq_ok.mp h
      simp [notNull, bind, Except.bind] at h'
    · rintro ⟨⟨⟨-, hn⟩, -⟩, -⟩
      exact absurd rfl hn
  | some name =>
    have h := (writes_strcat b.val name).bind ((writes_strcat b.val (txt "=")).bind
      ((writes_strcat b.val text).bind (writes_strcat b.val (txt "|"))))
    have h' := Appends.after (k := fun value s => strcat b.val s name >>= fun s =>
        strcat b.val s (txt "=") >>= fun s => strcat b.val s value >>= fun s =>
        strcat b.val s (txt "|")) (sprintf_eq_ok b.value text) h
    intro s hs t
    have hp := h' s hs t
    simp only [and_true] at hp
    simpa [appendPair, pairText, notNull, bind, Except.bind] using hp

/-- Arrays of at least one element. -/
def Buffers.Inhabited (b : Buffers) : Prop :=
  fits b.tmpbuf 0 ∧ fits b.val 0 ∧ fits b.data 0 ∧ fits b.str 0

theorem Buffers.inhabited_declared : Buffers.declared.Inhabited := by
  simp [Buffers.Inhabited, Buffers.declared, fits]

theorem Buffers.inhabited_unbounded : Buffers.unbounded.Inhabited := by
  simp [Buffers.Inhabited, Buffers.unbounded]

/-- What an element of a global table leaves in the reply. -/
def keptElement (name : Text) (e : LuaValue × LuaValue) : Text :=
  if OneLine (elementText name e.1 e.2) then elementText name e.1 e.2 else []

theorem writes_globalElement (b : Buffers) (hb : b.Inhabited) (name : Text)
    (e : LuaValue × LuaValue) :
    Writes b.val (elementRoom b name e.1 e.2 ∧ fits b.tmpbuf (elementText name e.1 e.2).length)
      (keptElement name e) (fun val => globalElement b name val e) := by
  have hx : ∀ t, appendElement b b.tmpbuf [] name e.1 e.2 = .ok t ↔
      (elementRoom b name e.1 e.2 ∧ fits b.tmpbuf (elementText name e.1 e.2).length) ∧
        t = elementText name e.1 e.2 := by
    intro t
    simpa using writes_appendElement b b.tmpbuf name e.1 e.2 [] hb.1 t
  have hk : Writes b.val True (keptElement name e) (fun s =>
      if '\n' ∈ elementText name e.1 e.2 ∨ '\r' ∈ elementText name e.1 e.2 then .ok s
      else strcat b.val s (elementText name e.1 e.2)) := by
    by_cases h : OneLine (elementText name e.1 e.2)
    · simp only [keptElement, if_pos h, if_neg (not_or.mpr h)]
      exact writes_strcat b.val _
    · simp only [keptElement, if_neg h, if_pos (not_and_or.mp h |>.imp not_not.mp not_not.mp)]
      exact Appends.nothing
  exact (Appends.after (k := fun tmpbuf s =>
    if '\n' ∈ tmpbuf ∨ '\r' ∈ tmpbuf then .ok s else strcat b.val s tmpbuf) hx hk).congr
      (by simp)

/-- Does the value of a global take part in the reply without dropping what is there? -/
def displayable : LuaValue → Bool
  | .nil | .lightuserdata | .userdata | .thread => false
  | _ => true

/-- The text of a value that `getGlobals` writes through the array `value`. -/
def globalValueText (L : LuaState) (key : LuaValue) : LuaValue → Text
  | .number n => n.text
  | .string s => (cstr s).take 63
  | .boolean b =>
    if (L.slot [.table L.globals, key, .boolean b] 1).toboolean then txt "true" else txt "false"
  | v => txt "type " ++ v.typename ++ txt " = not yet displayable"

def tableText (L : LuaState) (name : Text) (ref : ℕ) : Text :=
  startGlobalTable ++ txt "|" ++
    ((L.heap ref).flatMap (keptElement name) ++ (endGlobalTable ++ txt "|"))

/-- What one global writes. -/
def entryText (L : LuaState) (e : LuaValue × LuaValue) : Text :=
  let name := (tostring e.1).getD []
  match e.2 with
  | .function => []
  | .table ref => tableText L name ref
  | .number n => pairText name (globalValueText L e.1 (.number n))
  | .string s => pairText name (globalValueText L e.1 (.string s))
  | .boolean b => pairText name (globalValueText L e.1 (.boolean b))
  | v => globalValueText L e.1 v

/-- The room one global needs on its way, and the name it needs. -/
def entryRoom (b : Buffers) (L : LuaState) (e : LuaValue × LuaValue) : Prop :=
  match e.2 with
  | .function => True
  | .table ref => ∀ x ∈ L.heap ref, tostring e.1 ≠ none ∧
      elementRoom b ((tostring e.1).getD []) x.1 x.2 ∧
        fits b.tmpbuf (elementText ((tostring e.1).getD []) x.1 x.2).length
  | .number n => fits b.value n.text.length ∧ tostring e.1 ≠ none
  | .string s => fits b.value ((cstr s).take 63).length ∧ tostring e.1 ≠ none
  | .boolean v => fits b.value (globalValueText L e.1 (.boolean v)).length ∧ tostring e.1 ≠ none
  | v => fits b.value (globalValueText L e.1 v).length

/-- The reply behind one more global. -/
def entryStep (L : LuaState) (val : Text) (e : LuaValue × LuaValue) : Text :=
  if displayable e.2 then val ++ entryText L e else entryText L e

theorem writes_globalTable (b : Buffers) (hb : b.Inhabited) (L : LuaState) (name : Option Text)
    (ref : ℕ) :
    Writes b.val (∀ x ∈ L.heap ref, name ≠ none ∧ elementRoom b (name.getD []) x.1 x.2 ∧
        fits b.tmpbuf (elementText (name.getD []) x.1 x.2).length)
      (tableText L (name.getD []) ref)
      (fun val => strcat b.val val (startGlobalTable ++ txt "|") >>= fun val =>
        (L.heap ref).foldlM (fun val e => do globalElement b (← notNull name) val e) val >>=
          fun val => strcat b.val val (endGlobalTable ++ txt "|")) := by
  have hx : ∀ e, Writes b.val (name ≠ none ∧ elementRoom b (name.getD []) e.1 e.2 ∧
      fits b.tmpbuf (elementText (name.getD []) e.1 e.2).length)
      (keptElement (name.getD []) e) (fun s => do globalElement b (← notNull name) s e) := by
    intro e
    have hn : ∀ n, notNull name = .ok n ↔ name ≠ none ∧ n = name.getD [] := by
      intro n
      rw [notNull_eq_ok]
      cases name with
      | none => simp
      | some name => simp [eq_comm]
    exact Appends.after (k := fun n s => globalElement b n s e) hn
      (writes_globalElement b hb (name.getD []) e)
  have h := (writes_strcat b.val (startGlobalTable ++ txt "|")).bind
    (Writes.bind (Appends.foldlM (fits_mono b.val) hx (L.heap ref))
      (writes_strcat b.val (endGlobalTable ++ txt "|")))
  exact h.congr (by simp)

theorem globalEntry_eq_ok (b : Buffers) (hb : b.Inhabited) (L : LuaState) (val t : Text)
    (e : LuaValue × LuaValue) (hs : fits b.val val.length) :
    globalEntry b L val e.1 e.2 = .ok t ↔
      (entryRoom b L e ∧ fits b.val (entryStep L val e).length) ∧ t = entryStep L val e := by
  obtain ⟨key, value⟩ := e
  have hpair := fun text => writes_appendPair b (tostring key) text val hs t
  have hother : ∀ text : Text, (sprintf b.value text >>= fun v => strcat b.val [] v) = .ok t ↔
      (fits b.value text.length ∧ fits b.val text.length) ∧ t = text := by
    intro text
    have h := Appends.after (k := fun v s => strcat b.val s v)
      (sprintf_eq_ok b.value text) (writes_strcat b.val text) [] hb.2.1 t
    simpa using h
  cases value with
  | function => simp [globalEntry, entryRoom, entryStep, displayable, entryText, hs, eq_comm]
  | table ref =>
    have h := writes_globalTable b hb L (tostring key) ref val hs t
    rw [show entryStep L val (key, .table ref) = val ++ tableText L ((tostring key).getD []) ref
      from rfl, List.length_append]
    exact h
  | number n =>
    simpa [globalEntry, entryRoom, entryStep, displayable, entryText, globalValueText] using
      hpair n.text
  | string s =>
    simpa [globalEntry, entryRoom, entryStep, displayable, entryText, globalValueText] using
      hpair ((cstr s).take 63)
  | boolean v =>
    simpa [globalEntry, entryRoom, entryStep, displayable, entryText, globalValueText] using
      hpair (globalValueText L key (.boolean v))
  | nil => exact hother _
  | lightuserdata => exact hother _
  | userdata => exact hother _
  | thread => exact hother _

/-- The entries a `while (lua_next(L, -2))` loop comes by, in order. -/
def walk (tbl : Table) (cleared : Cleared tbl) (touched : LuaValue → Bool) :
    ℕ → ℕ → Except Fault Table
  | 0, _ => .error .endless
  | fuel+1, i =>
    match tbl[i]? with
    | none => .ok []
    | some (key, value) => do
      let j ← nextPosition tbl cleared (touched value) key i
      let es ← walk tbl cleared touched fuel j
      return (key, value) :: es

theorem traverse_eq_ok {σ : Type} (tbl : Table) (cleared : Cleared tbl)
    (touched : LuaValue → Bool) (body : σ → LuaValue → LuaValue → Except Fault σ) (fuel i : ℕ)
    (s t : σ) :
    traverse tbl cleared touched body fuel i s = .ok t ↔
      ∃ es, walk tbl cleared touched fuel i = .ok es ∧
        es.foldlM (fun s e => body s e.1 e.2) s = .ok t := by
  induction fuel generalizing i s with
  | zero => simp [traverse, walk]
  | succ fuel ih =>
    rcases he : tbl[i]? with _ | ⟨key, value⟩
    · simp only [traverse, walk, he, Except.ok.injEq]
      constructor
      · rintro rfl
        exact ⟨[], rfl, rfl⟩
      · rintro ⟨es, rfl, h⟩
        exact (foldlM_nil_eq_ok.mp h).symm
    · simp only [traverse, walk, he, bind_eq_ok]
      constructor
      · rintro ⟨u, hu, j, hj, ht⟩
        obtain ⟨es, hes, hf⟩ := (ih j u).mp ht
        exact ⟨(key, value) :: es, ⟨j, hj, es, hes, rfl⟩, foldlM_cons_eq_ok.mpr ⟨u, hu, hf⟩⟩
      · rintro ⟨es', ⟨j, hj, es, hes, hcons⟩, hf⟩
        obtain rfl : (key, value) :: es = es' := Except.ok.inj hcons
        obtain ⟨u, hu, hf⟩ := foldlM_cons_eq_ok.mp hf
        exact ⟨u, hu, j, hj, (ih j u).mpr ⟨es, hes, hf⟩⟩

theorem findString_failsOnly (tbl : Table) (cleared : Cleared tbl) (s : Text) :
    FailsOnly .luaError (findString tbl cleared s) := by
  unfold findString
  split
  · exact .ok _
  · split
    · exact .ok _
    · exact .error

theorem nextPosition_failsOnly (tbl : Table) (cleared : Cleared tbl) (read : Bool)
    (key : LuaValue) (i : ℕ) : FailsOnly .luaError (nextPosition tbl cleared read key i) := by
  unfold nextPosition
  split
  · exact findString_failsOnly tbl cleared _
  · exact .ok _

/-- The failures of a traversal are those of its body, the error of Lua and the endless loop. -/
theorem traverse_ne_error {σ : Type} {tbl : Table} {cleared : Cleared tbl}
    {touched : LuaValue → Bool} {body : σ → LuaValue → LuaValue → Except Fault σ} {why : Fault}
    (hbody : ∀ s k v, body s k v ≠ .error why) (hend : why ≠ .endless) (hlua : why ≠ .luaError)
    (fuel i : ℕ) (s : σ) : traverse tbl cleared touched body fuel i s ≠ .error why := by
  induction fuel generalizing i s with
  | zero => exact fun h => hend (Except.error.inj h).symm
  | succ fuel ih =>
    rw [traverse]
    split
    · exact fun h => nomatch h
    · next key value _ =>
      apply bind_ne_error (hbody s key value)
      intro s'
      apply bind_ne_error ((nextPosition_failsOnly tbl cleared _ key i).ne_error hlua)
      exact fun j => ih j s'

/-- Keys that are not read, or are no numbers, stay as they are, and the loop comes by every
entry. -/
theorem walk_eq_drop (tbl : Table) (cleared : Cleared tbl) (touched : LuaValue → Bool)
    (h : ∀ e ∈ tbl, touched e.2 = true → ∀ n, e.1 ≠ .number n) (fuel i : ℕ) (hi : i ≤ tbl.length)
    (hf : tbl.length < fuel + i) : walk tbl cleared touched fuel i = .ok (tbl.drop i) := by
  induction fuel generalizing i with
  | zero => omega
  | succ fuel ih =>
    rcases he : tbl[i]? with _ | ⟨key, value⟩
    · have hlen := List.getElem?_eq_none_iff.mp he
      simp [walk, he, List.drop_eq_nil_of_le hlen]
    · obtain ⟨hlt, hget⟩ := List.getElem?_eq_some_iff.mp he
      have hkey : touched value = true → ∀ n, key ≠ .number n :=
        h (key, value) (List.mem_of_getElem? he)
      have hnext : nextPosition tbl cleared (touched value) key i = .ok (i+1) := by
        unfold nextPosition
        split
        · next n hread => exact absurd rfl (hkey hread n)
        · rfl
      rw [List.drop_eq_getElem_cons hlt, hget]
      simp only [walk, he, hnext, bind, Except.bind, ih (i+1) (by omega) (by omega)]
      rfl

/-- A loop that reads no key is the loop over the entries. -/
theorem traverse_unread {σ : Type} (tbl : Table) (cleared : Cleared tbl)
    (body : σ → LuaValue → LuaValue → Except Fault σ) (s t : σ) :
    traverse tbl cleared (fun _ => false) body (tbl.length + 1) 0 s = .ok t ↔
      tbl.foldlM (fun s e => body s e.1 e.2) s = .ok t := by
  have hwalk : walk tbl cleared (fun _ => false) (tbl.length + 1) 0 = .ok tbl :=
    walk_eq_drop tbl cleared _ (by simp) _ 0 (by omega) (by omega)
  rw [traverse_eq_ok, hwalk]
  simp

/-- The globals `getGlobals` comes by. -/
def globalsWalk (L : LuaState) : Except Fault Table :=
  walk (L.heap L.globals) (L.cleared L.globals) (fun v => !v.isFunction)
    ((L.heap L.globals).length + 1) 0

theorem globalsWalk_of_strings (L : LuaState)
    (h : ∀ e ∈ L.heap L.globals, ∃ s, e.1 = .string s) :
    globalsWalk L = .ok (L.heap L.globals) := by
  have hk : ∀ e ∈ L.heap L.globals, ∀ n, e.1 ≠ .number n := by
    intro e he n hn
    obtain ⟨s, hs⟩ := h e he
    rw [hs] at hn
    cases hn
  exact walk_eq_drop (L.heap L.globals) (L.cleared L.globals) (fun v => !v.isFunction)
    (fun e he _ => hk e he) _ 0 (by omega) (by omega)

def globalsText (L : LuaState) (es : Table) : Text := es.foldl (entryStep L) []

/-- `getGlobals` comes to its end when the traversal does, every name that is written is
a string, and the arrays have room at every global it comes by. -/
theorem getGlobals_eq_ok (b : Buffers) (hb : b.Inhabited) (L : LuaState) (t : Text) :
    getGlobals b L = .ok t ↔
      ∃ es, globalsWalk L = .ok es ∧ (∀ e ∈ es, entryRoom b L e) ∧
        (∀ pre, pre <+: es → fits b.val (globalsText L pre).length) ∧ t = globalsText L es := by
  have hfold := foldlM_eq_ok (fun val (e : LuaValue × LuaValue) => globalEntry b L val e.1 e.2)
    (entryStep L) (fun s => fits b.val s.length)
    (fun s e => entryRoom b L e ∧ fits b.val (entryStep L s e).length)
    (fun s e t hs => globalEntry_eq_ok b hb L s t e hs) (fun s e _ h => h.2)
  rw [getGlobals, traverse_eq_ok]
  apply exists_congr
  intro es
  rw [hfold es [] t hb.2.1, globalsWalk]
  apply and_congr_right
  intro _
  constructor
  · rintro ⟨hall, rfl⟩
    refine ⟨fun e he => ?_, fun pre hpre => ?_, rfl⟩
    · obtain ⟨pre, post, rfl⟩ := List.append_of_mem he
      exact (hall pre e post rfl).1
    · rcases List.eq_nil_or_concat pre with rfl | ⟨pre, e, rfl⟩
      · exact hb.2.1
      · obtain ⟨post, rfl⟩ := hpre
        have h := (hall pre e post (by simp)).2
        rwa [globalsText, List.concat_eq_append, List.foldl_append]
  · rintro ⟨hroom, hfits, rfl⟩
    refine ⟨fun pre e post he => ⟨hroom e (by simp [he]), ?_⟩, rfl⟩
    have h := hfits (pre ++ [e]) ⟨post, by simp [he]⟩
    rwa [globalsText, List.foldl_append] at h

/-- The globals behind the last one whose message drops what is there. -/
def kept (es : Table) : Table := es.rtakeWhile (fun e => displayable e.2)

theorem globalsText_concat (L : LuaState) (es : Table) (e : LuaValue × LuaValue) :
    globalsText L (es ++ [e]) = entryStep L (globalsText L es) e := by
  rw [globalsText, List.foldl_append]
  rfl

theorem kept_concat (es : Table) (e : LuaValue × LuaValue) :
    kept (es ++ [e]) = if displayable e.2 then kept es ++ [e] else [] := by
  rw [kept, List.rtakeWhile_concat]
  rfl

theorem oneLine_message (L : LuaState) (e : LuaValue × LuaValue) (h : displayable e.2 = false) :
    OneLine (entryText L e) := by
  have hm (v : LuaValue) : OneLine (txt "type " ++ v.typename ++ txt " = not yet displayable") := by
    rw [oneLine_append, oneLine_append]
    exact ⟨⟨by decide, v.oneLine_typename⟩, by decide⟩
  obtain ⟨key, value⟩ := e
  cases value with
  | nil | lightuserdata | userdata | thread => exact hm _
  | _ => simp [displayable] at h

theorem oneLine_globalsText (L : LuaState) (es : Table) :
    OneLine (globalsText L es) ↔ ∀ e ∈ kept es, OneLine (entryText L e) := by
  induction es using List.reverseRecOn with
  | nil => simp [globalsText, kept]
  | append_singleton es e ih =>
    rw [globalsText_concat, kept_concat, entryStep]
    by_cases h : displayable e.2
    · simp only [h, if_true, oneLine_append, ih]
      constructor
      · rintro ⟨hes, he⟩ x hx
        rcases List.mem_append.mp hx with hx | hx
        · exact hes x hx
        · exact List.mem_singleton.mp hx ▸ he
      · intro hall
        exact ⟨fun x hx => hall x (List.mem_append_left _ hx), hall e (by simp)⟩
    · have hm := oneLine_message L e (by simpa using h)
      simp [h, hm]

/-- Without a value that is not displayable the texts of the globals stand in a row. -/
theorem globalsText_of_displayable (L : LuaState) (es : Table)
    (h : ∀ e ∈ es, displayable e.2) : globalsText L es = es.flatMap (entryText L) := by
  induction es using List.reverseRecOn with
  | nil => rfl
  | append_singleton es e ih =>
    have hes : ∀ x ∈ es, displayable x.2 := fun x hx => h x (List.mem_append_left _ hx)
    have he : displayable e.2 := h e (by simp)
    rw [globalsText_concat, ih hes, entryStep, if_pos he]
    simp

theorem oneLine_pairText (name text : Text) :
    OneLine (pairText name text) ↔ OneLine name ∧ OneLine text := by
  simp only [pairText, oneLine_append, and_congr_right_iff]
  have h : OneLine (txt "=") ∧ OneLine (txt "|") := by decide
  tauto

/-- Table texts never break the line: elements that would are left out. -/
theorem oneLine_tableText (L : LuaState) (name : Text) (ref : ℕ) :
    OneLine (tableText L name ref) := by
  have h : OneLine (startGlobalTable ++ txt "|") ∧ OneLine (endGlobalTable ++ txt "|") := by decide
  have hk : OneLine ((L.heap ref).flatMap (keptElement name)) := by
    rw [oneLine_flatMap]
    intro e _
    unfold keptElement
    split_ifs with he
    · exact he
    · exact oneLine_nil
  exact (oneLine_append _ _).mpr ⟨h.1, (oneLine_append _ _).mpr ⟨hk, h.2⟩⟩

end LuaIde
