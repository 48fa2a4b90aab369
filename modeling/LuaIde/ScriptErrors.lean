import LuaIde.PdaDecoding
import LuaIde.SuspendAgreement

/-! A script that fails: the message of Lua, the event of `main`, and the problem markers
`PDADebugTarget.handleEvent` makes of it. -/
namespace LuaIde

open LineText DecimalText Delimited CheckedFold

/-- `luaO_chunkid` into an array of `bufflen` characters. -/
def luaO_chunkid (bufflen : ℕ) (source : Text) : Text :=
  match source with
  | '=' :: source => source.take (bufflen - 1)
  | '@' :: source =>
    let bufflen := bufflen - 8
    if bufflen < source.length then txt "..." ++ source.drop (source.length - bufflen) else source
  | source =>
    let len := min (firstLine source).length (bufflen - 17)
    let shown := if len < source.length then source.take len ++ txt "..." else source
    txt "[string \"" ++ (shown ++ txt "\"]")

def MAXSRC : ℕ := 80

def LUA_IDSIZE : ℕ := 60

/-- A script fails to compile or at run time. -/
inductive ScriptFailure where
  | compile
  | run
deriving DecidableEq

/-- The size of the array the chunk is described in. -/
def ScriptFailure.bufflen : ScriptFailure → ℕ
  | compile => MAXSRC
  | run => LUA_IDSIZE

/-- What Lua says: the chunk and the line in front of the message of `luaX_lexerror` or
`luaG_runerror`. -/
def positioned (failure : ScriptFailure) (path : Text) (n : CInt) (m : Text) : Text :=
  luaO_chunkid failure.bufflen path ++ (txt ":" ++ (ofInt n.val ++ (txt ": " ++ m)))

/-- The stack slot `lua_pcall(L, 0, 0, index)` takes its handler from, with the traceback
function in slot 1 and the script in slot 2. -/
def errfunc (index : ℤ) : ℤ := 3 + index

/-- `luaG_errormsg`: slot 0 stands for no handler. -/
def luaG_errormsg (traceback : Text → Text) (index : ℤ) (message : Text) : Text :=
  if errfunc index ≠ 0 then traceback message else message

/-- What is on top of the stack when `luaL_loadbuffer` or `lua_pcall` has failed. -/
def errorMessage (traceback : Text → Text) (failure : ScriptFailure) (path : Text) (n : CInt)
    (m : Text) : Text :=
  match failure with
  | .compile => positioned .compile path n m
  | .run => luaG_errormsg traceback (-3) (positioned .run path n m)

/-- The line the IDE reads of what `main` sends; behind it the connection ends. -/
def errorEvent (traceback : Text → Text) (failure : ScriptFailure) (path : Text) (n : CInt)
    (m : Text) : Text :=
  firstLine (scriptError (some (path, cstr (errorMessage traceback failure path n m))))

/-- A marker on the workspace root, or on the program's file. -/
structure Marker where
  resource : Option Text
  message : Text
  lineNumber : CInt
deriving DecidableEq

/-- The `syntaxerror` branch of `PDADebugTarget.handleEvent`. `fileResource` is what
`getFileResource` returns. -/
def handleSyntaxError (fileResource : Option Text) (event : Text) :
    Except JavaError (List Marker) := do
  let parts := split '|' event
  let part ← arrayAt parts 2
  let errorPart := split ':' part
  let line ← arrayAt errorPart 2
  let lineNumber ← parseIntOrThrow line
  let message ← arrayAt errorPart 3
  match fileResource with
  | none => .error .nullPointer
  | some path =>
    return [{ resource := none, message := message, lineNumber := lineNumber },
      { resource := some path, message := message, lineNumber := lineNumber }]

/-- The event is decoded into markers with that line and that message. -/
def MarksError (fileResource : Option Text) (event : Text) (n : CInt) (shown : Text) : Prop :=
  ∃ markers, handleSyntaxError fileResource event = .ok markers ∧ markers ≠ [] ∧
    ∀ marker ∈ markers, marker.lineNumber = n ∧ marker.message = shown

/-- The text reads as that line number and message where the IDE looks for them. -/
def Spells (event : Text) (n : CInt) (shown : Text) : Prop :=
  ∃ part line, (split '|' event)[2]? = some part ∧ (split ':' part)[2]? = some line ∧
    parseInt line = some n ∧ (split ':' part)[3]? = some shown

/-- The event up to the line number. -/
def eventFront (failure : ScriptFailure) (path : Text) : Text :=
  firstLine (scriptError (some (path, luaO_chunkid failure.bufflen path ++ txt ":")))

/-- A character that neither ends a text or a line nor separates fields. -/
def unbroken (c : Char) : Prop := c ≠ '\x00' ∧ (c ≠ '\n' ∧ c ≠ '\r') ∧ c ≠ '|' ∧ c ≠ ':'

instance (c : Char) : Decidable (unbroken c) := inferInstanceAs (Decidable (_ ∧ _))

/-- The path is shown with its one colon, as that of a drive, and the message is one field. -/
structure ErrorReadable (failure : ScriptFailure) (path m : Text) : Prop where
  whole : '|' ∉ path ∧ '\r' ∉ path
  drive : (luaO_chunkid failure.bufflen path).count ':' = 1
  message : ∀ c ∈ m, unbroken c

theorem marksError_iff (fileResource : Option Text) (event : Text) (n : CInt) (shown : Text) :
    MarksError fileResource event n shown ↔ fileResource ≠ none ∧ Spells event n shown := by
  constructor
  · rintro ⟨markers, h, hne, hall⟩
    obtain ⟨part, hpart, h⟩ := bind_eq_ok.mp h
    obtain ⟨line, hline, h⟩ := bind_eq_ok.mp h
    obtain ⟨i, hi, h⟩ := bind_eq_ok.mp h
    obtain ⟨message, hmessage, h⟩ := bind_eq_ok.mp h
    -- without the file there is nothing to attach the marker to
    cases fileResource with
    | none => cases h
    | some path =>
      obtain rfl := Except.ok.inj h
      obtain ⟨rfl, rfl⟩ := hall _ List.mem_cons_self
      exact ⟨by simp, part, line, arrayAt_eq_ok.mp hpart, arrayAt_eq_ok.mp hline,
        parseIntOrThrow_eq_ok.mp hi, arrayAt_eq_ok.mp hmessage⟩
  · rintro ⟨hres, part, line, hpart, hline, hn, hmessage⟩
    obtain ⟨path, rfl⟩ := Option.ne_none_iff_exists'.mp hres
    have hi := parseIntOrThrow_eq_ok.mpr hn
    refine ⟨_, bind_eq_ok.mpr ⟨part, arrayAt_eq_ok.mpr hpart, bind_eq_ok.mpr
      ⟨line, arrayAt_eq_ok.mpr hline, bind_eq_ok.mpr ⟨n, hi, bind_eq_ok.mpr
        ⟨shown, arrayAt_eq_ok.mpr hmessage, rfl⟩⟩⟩⟩, by simp, ?_⟩
    simp

section Chunk

variable {bufflen : ℕ} {path : Text}

/-- A path that is no `=` or `@` chunk name is quoted. -/
theorem luaO_chunkid_quoted (bufflen : ℕ) (h : path.head? ≠ some '=' ∧ path.head? ≠ some '@') :
    ∃ shown, luaO_chunkid bufflen path = txt "[string \"" ++ (shown ++ txt "\"]") ∧
      ∀ c ∈ shown, c ∈ path ∨ c = '.' := by
  have hquoted : luaO_chunkid bufflen path =
      let len := min (firstLine path).length (bufflen - 17)
      let shown := if len < path.length then path.take len ++ txt "..." else path
      txt "[string \"" ++ (shown ++ txt "\"]") := by
    unfold luaO_chunkid
    split
    · simp at h
    · simp at h
    · rfl
  refine ⟨_, hquoted, fun c hc => ?_⟩
  split at hc
  · rcases List.mem_append.mp hc with hc | hc
    · exact .inl (List.mem_of_mem_take hc)
    · right
      simpa [txt] using hc
  · exact .inl hc

theorem mem_luaO_chunkid (h : path.head? ≠ some '=' ∧ path.head? ≠ some '@') {c : Char}
    (hc : c ∈ luaO_chunkid bufflen path) : c ∈ path ∨ c ∈ txt "[string \".]" := by
  obtain ⟨shown, hk, hshown⟩ := luaO_chunkid_quoted bufflen h
  rw [hk, List.mem_append, List.mem_append] at hc
  have hquote (s : Text) (hs : s.all (fun c => decide (c ∈ txt "[string \".]")) = true)
      (hm : c ∈ s) : c ∈ txt "[string \".]" :=
    of_decide_eq_true (List.all_eq_true.mp hs c hm)
  rcases hc with hc | hc | hc
  · exact .inr (hquote _ (by decide) hc)
  · rcases hshown c hc with hc | rfl
    · exact .inl hc
    · exact .inr (by decide)
  · exact .inr (hquote _ (by decide) hc)

theorem luaO_chunkid_concat (h : path.head? ≠ some '=' ∧ path.head? ≠ some '@') :
    ∃ s, luaO_chunkid bufflen path = s ++ [']'] := by
  obtain ⟨shown, hk, -⟩ := luaO_chunkid_quoted bufflen h
  exact ⟨txt "[string \"" ++ (shown ++ txt "\""), by rw [hk]; simp [txt]⟩

end Chunk

theorem firstLine_append_oneLine {s : Text} (h : OneLine s) (t : Text) :
    firstLine (s ++ t) = s ++ firstLine t := by
  unfold firstLine
  apply List.takeWhile_append_of_pos
  intro c hc
  simp only [decide_eq_true_eq]
  exact ⟨fun he => h.1 (he ▸ hc), fun he => h.2 (he ▸ hc)⟩

theorem firstLine_append_broken {s : Text} (h : ¬ OneLine s) (t : Text) :
    firstLine (s ++ t) = firstLine s := by
  induction s with
  | nil => simp at h
  | cons c s ih =>
    unfold firstLine at ih ⊢
    rw [List.cons_append, List.takeWhile_cons, List.takeWhile_cons]
    by_cases hc : c ≠ '\n' ∧ c ≠ '\r'
    · rw [oneLine_cons] at h
      rw [ih (fun hs => h ⟨hc, hs⟩)]
    · simp [hc]

/-- The fields of the event, up to the first one behind the path. -/
theorem split_scriptError (path message : Text) {i : ℕ}
    (hi : i ≤ 1 + ((' ' :: (path ++ [' '])).splitOn '|').length) :
    (split '|' (scriptError (some (path, message))))[i]? =
      (txt "syntaxerror " :: ((' ' :: (path ++ [' '])).splitOn '|' ++
        (' ' :: message).splitOn '|'))[i]? := by
  have htext : scriptError (some (path, message)) =
      txt "syntaxerror " ++ '|' :: (' ' :: (path ++ [' ']) ++ '|' :: (' ' :: message)) := by
    simp [scriptError, txt]
  have hfields : (scriptError (some (path, message))).splitOn '|' =
      txt "syntaxerror " :: ((' ' :: (path ++ [' '])).splitOn '|' ++
        (' ' :: message).splitOn '|') := by
    rw [htext, List.splitOn_append_cons_self_of_not_mem (by decide), List.splitOn_append_cons_self]
  rw [← hfields]
  -- the field behind the path starts with a blank
  refine split_getElem? '|' _ (' ' :: message.takeWhile (fun c => decide (c ≠ '|'))) hi ?_ (by simp)
  rw [hfields, Nat.add_comm, List.getElem?_cons_succ, List.getElem?_append_right le_rfl,
    Nat.sub_self, ← List.head?_eq_getElem?, splitOn_head]
  simp

theorem scriptError_field_of_bar {path : Text} (h : '|' ∈ path) (message message' : Text) :
    (split '|' (scriptError (some (path, message))))[2]? =
      (split '|' (scriptError (some (path, message'))))[2]? := by
  have hlen : 2 ≤ ((' ' :: (path ++ [' '])).splitOn '|').length := by
    rw [length_splitOn]
    have hpos := List.count_pos_iff.mpr (show '|' ∈ ' ' :: (path ++ [' ']) by simp [h])
    omega
  rw [split_scriptError path message (by omega), split_scriptError path message' (by omega),
    List.getElem?_cons_succ, List.getElem?_cons_succ, List.getElem?_append_left (by omega),
    List.getElem?_append_left (by omega)]

theorem scriptError_field {path : Text} (h : '|' ∉ path) (message : Text) :
    (split '|' (scriptError (some (path, message))))[2]? =
      some (' ' :: message.takeWhile (fun c => decide (c ≠ '|'))) := by
  have hpath : (' ' :: (path ++ [' '])).splitOn '|' = [' ' :: (path ++ [' '])] :=
    List.splitOn_eq_singleton (by simp [h])
  rw [split_scriptError path message (by rw [hpath]; simp), hpath, List.getElem?_cons_succ,
    List.getElem?_append_right (by simp), List.length_singleton, Nat.sub_self,
    ← List.head?_eq_getElem?, splitOn_head]
  simp

/-- The field of Lua's message reads as that line number and message. -/
def FieldSpells (part : Text) (n : CInt) (shown : Text) : Prop :=
  ∃ line, (split ':' part)[2]? = some line ∧ parseInt line = some n ∧
    (split ':' part)[3]? = some shown

theorem spells_iff {event part : Text} (h : (split '|' event)[2]? = some part) (n : CInt)
    (shown : Text) : Spells event n shown ↔ FieldSpells part n shown := by
  constructor
  · rintro ⟨part', line, hpart, hrest⟩
    rw [h] at hpart
    obtain rfl := Option.some.inj hpart
    exact ⟨line, hrest⟩
  · rintro ⟨line, hrest⟩
    exact ⟨part, line, h, hrest⟩

/-- A message of one field, and no other, comes out of the field it is cut from. -/
theorem message_iff (m : Text) :
    ' ' :: m.takeWhile (fun c => decide (unbroken c)) = ' ' :: m ↔ ∀ c ∈ m, unbroken c := by
  rw [List.cons_inj_right, List.takeWhile_eq_self_iff]
  simp

/-- The blank in front stays, so that what is cut is never the message itself. -/
theorem blank_ne_message (m : Text) : ' ' :: m.takeWhile (fun c => decide (unbroken c)) ≠ m := by
  intro h
  -- all of it would be kept, and the blank besides
  have hall : ∀ c ∈ m, unbroken c := by
    intro c hc
    rw [← h] at hc
    rcases List.mem_cons.mp hc with rfl | hc
    · decide
    · simpa using List.mem_takeWhile_imp hc
  rw [(message_iff m).mpr hall] at h
  have hlen := congrArg List.length h
  rw [List.length_cons] at hlen
  omega

theorem cut_message (m : Text) :
    ((firstLine (cstr m)).takeWhile (fun c => decide (c ≠ '|'))).takeWhile
      (fun c => decide (c ≠ ':')) = m.takeWhile (fun c => decide (unbroken c)) := by
  simp only [firstLine, cstr, List.takeWhile_takeWhile]
  congr 1
  funext c
  rw [Bool.eq_iff_iff]
  simp only [decide_eq_true_eq]
  unfold unbroken
  tauto

section Fields

variable {n : CInt} {shown chunk rest : Text}

/-- A field behind the drive's colon, or one with none, spells no line number. -/
theorem splitOn_chunk {s : Text} (hs : chunk = s ++ [']']) :
    ∃ ps q, (' ' :: chunk).splitOn ':' = ps ++ [q ++ [']']] ∧ ps.length = chunk.count ':' := by
  obtain ⟨ps, q, h⟩ := splitOn_concat ':' ']' (' ' :: s) (by decide)
  refine ⟨ps, q, by rw [hs, ← List.cons_append, h], ?_⟩
  have hlen := length_splitOn ':' (' ' :: chunk)
  rw [hs, ← List.cons_append, h, List.cons_append, List.count_cons] at hlen
  simpa [hs] using hlen

/-- The pieces of a field that ends with the chunk. -/
theorem split_chunk {s : Text} (hs : chunk = s ++ [']']) :
    split ':' (' ' :: (chunk ++ [':'])) = (' ' :: chunk).splitOn ':' := by
  have h := split_terminated_concat ':' ']' [] (' ' :: s) (by decide)
  rw [List.nil_append, List.flatMap_singleton, List.cons_append] at h
  rw [hs, ← h]
  simp [terminated]

/-- The pieces of a field that goes on with the line number. -/
theorem split_positioned (i : ℕ) (hi : i ≤ chunk.count ':' + 2) :
    (split ':' (' ' :: (chunk ++ ':' :: (ofInt n.val ++ ':' :: (' ' :: rest)))))[i]? =
      ((' ' :: chunk).splitOn ':' ++ ofInt n.val :: (' ' :: rest).splitOn ':')[i]? := by
  have hnum : ':' ∉ ofInt n.val := not_mem_ofInt (by decide) (by decide)
  have hpieces : (' ' :: (chunk ++ ':' :: (ofInt n.val ++ ':' :: (' ' :: rest)))).splitOn ':' =
      (' ' :: chunk).splitOn ':' ++ ofInt n.val :: (' ' :: rest).splitOn ':' := by
    rw [← List.cons_append, List.splitOn_append_cons_self,
      List.splitOn_append_cons_self_of_not_mem hnum]
  have hlen : ((' ' :: chunk).splitOn ':').length = chunk.count ':' + 1 := by
    rw [length_splitOn, List.count_cons]
    simp
  rw [← hpieces]
  refine split_getElem? ':' _ (' ' :: rest.takeWhile (fun c => decide (c ≠ ':'))) hi ?_ (by simp)
  rw [hpieces, List.getElem?_append_right (by omega), hlen,
    show chunk.count ':' + 2 - (chunk.count ':' + 1) = 1 by omega, List.getElem?_cons_succ,
    ← List.head?_eq_getElem?, splitOn_head]
  simp

/-- The field spells line and message just if the chunk has the one colon of a drive and
the message is one field, or if it spells them already in front of the line number. -/
theorem fieldSpells_iff {s : Text} (hs : chunk = s ++ [']']) :
    FieldSpells (' ' :: (chunk ++ ':' :: (ofInt n.val ++ ':' :: (' ' :: rest)))) n shown ↔
      (chunk.count ':' = 1 ∧ ' ' :: rest.takeWhile (fun c => decide (c ≠ ':')) = shown) ∨
        FieldSpells (' ' :: (chunk ++ [':'])) n shown := by
  obtain ⟨ps, q, hpieces, hlen⟩ := splitOn_chunk hs
  have htail : ((' ' :: rest).splitOn ':')[0]? =
      some (' ' :: rest.takeWhile (fun c => decide (c ≠ ':'))) := by
    rw [← List.head?_eq_getElem?, splitOn_head]
    simp
  -- the pieces of the chunk come first, then the line number and the message
  have hget (i : ℕ) (hi : i ≤ chunk.count ':' + 2) :
      (split ':' (' ' :: (chunk ++ ':' :: (ofInt n.val ++ ':' :: (' ' :: rest)))))[i]? =
        (ps ++ (q ++ [']']) :: ofInt n.val :: (' ' :: rest).splitOn ':')[i]? := by
    rw [split_positioned i hi, hpieces, List.append_assoc]
    rfl
  have hfront (i : ℕ) : (split ':' (' ' :: (chunk ++ [':'])))[i]? = (ps ++ [q ++ [']']])[i]? := by
    rw [split_chunk hs, hpieces]
  -- the bracket at the end of the chunk is part of no number
  have hbracket (line : Text) (h : line = q ++ [']']) : parseInt line ≠ some n := by
    intro hp
    exact not_mem_parseInt hp (c := ']') (by decide) (by decide) (by simp [h])
  -- the IDE takes the third piece for the line, so the colons of the chunk decide
  rcases hc : chunk.count ':' with _ | _ | _ | k
  · -- the message stands where the line number is looked for
    obtain rfl : ps = [] := List.length_eq_zero_iff.mp (hlen.trans hc)
    constructor
    · rintro ⟨line, hline, hparse, -⟩
      rw [hget 2 (by omega), List.nil_append, List.getElem?_cons_succ, List.getElem?_cons_succ,
        htail] at hline
      exact absurd (Option.some.inj hline ▸ List.mem_cons_self)
        (not_mem_parseInt hparse (c := ' ') (by decide) (by decide))
    · rintro (⟨h, -⟩ | ⟨line, hline, -⟩)
      · omega
      · rw [hfront 2] at hline
        cases hline
  · -- the drive letter is the first piece, and the line number the third
    obtain ⟨a, rfl⟩ := List.length_eq_one_iff.mp (hlen.trans hc)
    have htwo := hget 2 (by omega)
    have hthree := hget 3 (by omega)
    simp only [List.singleton_append, List.getElem?_cons_succ, List.getElem?_cons_zero,
      htail] at htwo hthree
    constructor
    · rintro ⟨line, -, -, hmessage⟩
      rw [hthree] at hmessage
      exact .inl ⟨rfl, Option.some.inj hmessage⟩
    · rintro (⟨-, hm⟩ | ⟨line, hline, -⟩)
      · exact ⟨_, htwo, parseInt_ofInt n, hm ▸ hthree⟩
      · rw [hfront 2] at hline
        cases hline
  · -- the third piece is the end of the chunk
    obtain ⟨a, b, rfl⟩ := List.length_eq_two.mp (hlen.trans hc)
    constructor
    · rintro ⟨line, hline, hparse, -⟩
      rw [hget 2 (by omega)] at hline
      exact absurd hparse (hbracket line (Option.some.inj hline).symm)
    · rintro (⟨h, -⟩ | ⟨line, hline, hparse, -⟩)
      · omega
      · rw [hfront 2] at hline
        exact absurd hparse (hbracket line (Option.some.inj hline).symm)
  · -- both pieces are in front of the line number
    have hsame (i : ℕ) (hi : i ≤ 3) :
        (split ':' (' ' :: (chunk ++ ':' :: (ofInt n.val ++ ':' :: (' ' :: rest)))))[i]? =
          (split ':' (' ' :: (chunk ++ [':'])))[i]? := by
      rw [hget i (by omega), hfront i, ← List.singleton_append, ← List.append_assoc]
      exact List.getElem?_append_left (by simp; omega)
    have hne : ¬ k + 1 + 1 + 1 = 1 := by omega
    simp only [FieldSpells, hsame 2 (by omega), hsame 3 (by omega), hne, false_and, false_or]

end Fields

/-- The handler index of `main` names slot 0, so that no traceback gets into the message. -/
theorem errorMessage_eq (traceback : Text → Text) (failure : ScriptFailure) (path : Text)
    (n : CInt) (m : Text) :
    errorMessage traceback failure path n m = positioned failure path n m := by
  cases failure <;> rfl

section Event

variable {path : Text} (failure : ScriptFailure)

/-- A character of the chunk that is not its own comes from the path. -/
theorem not_mem_chunk (hq : path.head? ≠ some '=' ∧ path.head? ≠ some '@') {c : Char}
    (hc : c ∉ txt "[string \".]") (h : c ∉ path) : c ∉ luaO_chunkid failure.bufflen path := by
  intro hm
  rcases mem_luaO_chunkid hq hm with hm | hm
  · exact h hm
  · exact hc hm

theorem oneLine_scriptError {message : Text} (hp : OneLine path) (hm : OneLine message) :
    OneLine (scriptError (some (path, message))) := by
  have hfixed : OneLine (txt "syntaxerror | ") ∧ OneLine (txt " | ") := by decide
  simp only [scriptError, oneLine_append]
  exact ⟨⟨⟨hfixed.1, hp⟩, hfixed.2⟩, hm⟩

/-- A front on one line is read whole, with the line number and the message behind it. -/
theorem firstLine_scriptError {chunk : Text} (hp : OneLine path) (hk : OneLine chunk) (n : CInt)
    (m : Text) :
    firstLine (scriptError (some (path, chunk ++ txt ":")) ++ (ofInt n.val ++ (txt ": " ++ m))) =
      scriptError (some (path, chunk ++ ':' :: (ofInt n.val ++ ':' :: (' ' :: firstLine m)))) := by
  have hfront : OneLine (scriptError (some (path, chunk ++ txt ":"))) :=
    oneLine_scriptError hp ((oneLine_append _ _).mpr ⟨hk, by decide⟩)
  have hline : OneLine (ofInt n.val ++ txt ": ") :=
    (oneLine_append _ _).mpr ⟨oneLine_ofInt _, by decide⟩
  rw [firstLine_append_oneLine hfront, ← List.append_assoc (ofInt n.val),
    firstLine_append_oneLine hline]
  simp [scriptError, txt]

/-- What the IDE reads goes on behind the front, unless a line ends in the front. -/
theorem errorEvent_eq (traceback : Text → Text) (n : CInt) (m : Text) (hz : '\x00' ∉ path)
    (hq : path.head? ≠ some '=' ∧ path.head? ≠ some '@') :
    errorEvent traceback failure path n m =
      firstLine (scriptError (some (path, luaO_chunkid failure.bufflen path ++ txt ":")) ++
        (ofInt n.val ++ (txt ": " ++ cstr m))) := by
  have hk : '\x00' ∉ luaO_chunkid failure.bufflen path := not_mem_chunk failure hq (by decide) hz
  have hnum : '\x00' ∉ ofInt n.val := not_mem_ofInt (by decide) (by decide)
  have hcstr : cstr (positioned failure path n m) =
      luaO_chunkid failure.bufflen path ++ (txt ":" ++ (ofInt n.val ++ (txt ": " ++ cstr m))) := by
    rw [positioned, cstr_append hk, cstr_append (by decide), cstr_append hnum,
      cstr_append (by decide)]
  rw [errorEvent, errorMessage_eq, hcstr]
  simp only [scriptError, List.append_assoc]

end Event

/-- What the IDE reads of a script error, for every path and message: either the path has one
colon where it is shown, and the message comes with its blank up to the first separator, or
the path itself spells what is read. -/
theorem spells_errorEvent_iff (traceback : Text → Text) (failure : ScriptFailure) {path : Text}
    (n : CInt) (m shown : Text) (hn : '\n' ∉ path) (hz : '\x00' ∉ path)
    (hq : path.head? ≠ some '=' ∧ path.head? ≠ some '@') :
    Spells (errorEvent traceback failure path n m) n shown ↔
      (('|' ∉ path ∧ '\r' ∉ path) ∧ (luaO_chunkid failure.bufflen path).count ':' = 1 ∧
        ' ' :: m.takeWhile (fun c => decide (unbroken c)) = shown) ∨
          Spells (eventFront failure path) n shown := by
  rw [errorEvent_eq failure traceback n m hz hq, eventFront]
  set chunk := luaO_chunkid failure.bufflen path with hchunk
  by_cases hr : '\r' ∈ path
  · -- the line the IDE reads ends in the path
    have hbroken : ¬ OneLine (scriptError (some (path, chunk ++ txt ":"))) := by
      rintro ⟨-, h⟩
      exact h (by simp [scriptError, hr])
    rw [firstLine_append_broken hbroken]
    constructor
    · exact .inr
    · rintro (h | h)
      · exact absurd hr h.1.2
      · exact h
  · have hk : OneLine chunk :=
      ⟨not_mem_chunk failure hq (by decide) hn, not_mem_chunk failure hq (by decide) hr⟩
    have hfront : OneLine (scriptError (some (path, chunk ++ txt ":"))) :=
      oneLine_scriptError ⟨hn, hr⟩ ((oneLine_append _ _).mpr ⟨hk, by decide⟩)
    rw [firstLine_scriptError ⟨hn, hr⟩ hk, firstLine_eq_self hfront]
    by_cases hbar : '|' ∈ path
    · -- the field the IDE looks into is part of the path
      simp only [Spells, scriptError_field_of_bar hbar _ (chunk ++ txt ":")]
      constructor
      · exact .inr
      · rintro (h | h)
        · exact absurd hbar h.1.1
        · exact h
    -- the field ends at the first bar, which can only be in the message
    · have hkbar : '|' ∉ chunk := not_mem_chunk failure hq (by decide) hbar
      have hnum : '|' ∉ ofInt n.val := not_mem_ofInt (by decide) (by decide)
      obtain ⟨s, hs⟩ : ∃ s, chunk = s ++ [']'] := luaO_chunkid_concat hq
      rw [spells_iff (scriptError_field hbar _), spells_iff (scriptError_field hbar _),
        takeWhile_append_of_not_mem hkbar, takeWhile_append_of_not_mem hkbar,
        List.takeWhile_cons_of_pos (by decide), takeWhile_append_of_not_mem hnum,
        List.takeWhile_cons_of_pos (by decide), List.takeWhile_cons_of_pos (by decide),
        show (txt ":").takeWhile (fun c => decide (c ≠ '|')) = [':'] by decide,
        fieldSpells_iff hs, cut_message]
      apply or_congr_left
      exact ⟨fun h => ⟨⟨hbar, hr⟩, h⟩, fun h => h.2⟩

/-- A script error shows with its line, and with its message behind the blank Lua writes, if
and only if the launch knows the program's file, and path and message are readable or the
path itself spells both. Without that blank the message never shows but in the last case. -/
theorem error_shown_iff (traceback : Text → Text) (failure : ScriptFailure) (path : Text)
    (n : CInt) (m : Text) (fileResource : Option Text) (hn : '\n' ∉ path) (hz : '\x00' ∉ path)
    (hq : path.head? ≠ some '=' ∧ path.head? ≠ some '@') :
    (MarksError fileResource (errorEvent traceback failure path n m) n (' ' :: m) ↔
      fileResource ≠ none ∧
        (ErrorReadable failure path m ∨ Spells (eventFront failure path) n (' ' :: m))) ∧
    (MarksError fileResource (errorEvent traceback failure path n m) n m ↔
      fileResource ≠ none ∧ Spells (eventFront failure path) n m) := by
  rw [marksError_iff, marksError_iff, spells_errorEvent_iff traceback failure n m _ hn hz hq,
    spells_errorEvent_iff traceback failure n m _ hn hz hq, message_iff]
  have hreadable : ErrorReadable failure path m ↔ ('|' ∉ path ∧ '\r' ∉ path) ∧
      (luaO_chunkid failure.bufflen path).count ':' = 1 ∧ ∀ c ∈ m, unbroken c :=
    ⟨fun h => ⟨h.whole, h.drive, h.message⟩, fun h => ⟨h.1, h.2.1, h.2.2⟩⟩
  refine ⟨by rw [hreadable], ?_⟩
  simp [blank_ne_message]

/-- A path with a drive letter, and a message without separators. -/
theorem error_shown_drive :
    MarksError (some (txt "/p/a.lua"))
      (errorEvent id .run (txt "D:\\p\\a.lua") 6 (txt "boom")) 6 (txt " boom") := by
  apply (error_shown_iff id .run (txt "D:\\p\\a.lua") 6 (txt "boom") _ (by decide) (by decide)
    (by decide)).1.mpr
  refine ⟨by simp, .inl ⟨by decide, by decide, ?_⟩⟩
  simp [txt, unbroken]

/-- Without a drive letter the message is taken for the line number. -/
theorem error_lost_without_drive :
    ¬ MarksError (some (txt "/p/a.lua"))
        (errorEvent id .run (txt "/home/me/a.lua") 6 (txt "boom")) 6 (txt " boom") ∧
      ¬ MarksError (some (txt "/p/a.lua"))
        (errorEvent id .run (txt "/home/me/a.lua") 6 (txt "boom")) 6 (txt "boom") := by
  have hthrows : handleSyntaxError (some (txt "/p/a.lua"))
      (errorEvent id .run (txt "/home/me/a.lua") 6 (txt "boom")) = .error .numberFormat := by
    decide +kernel
  simp [MarksError, hthrows]

end LuaIde
