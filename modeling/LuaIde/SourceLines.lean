import LuaIde.Inspection
import LuaIde.SourceLoading
import Mathlib.Data.Set.Insert

/-! The lines of the script at a stop: what the two ways of loading keep under which name, and
what the hook finds under the name that Lua gives the chunk. -/
namespace LuaIde

open LineText DecimalText CheckedFold InputStream

/-- `fgets` into an array with room for so many characters: what it reads, what is left, and
whether it came to the end of the file. -/
def fgets : ℕ → Text → Text × Text × Bool
  | 0, rest => ([], rest, false)
  | _+1, [] => ([], [], true)
  | room+1, c :: rest =>
    if c = '\n' then ([c], rest, false)
    else
      let read := fgets room rest
      (c :: read.1, read.2)

/-- The loop of `readFileIntoString`. -/
def appendLines : ℕ → Text → Text → Except Fault Text
  | 0, _, _ => .error .endless
  | fuel+1, fp, buffer =>
    let read := fgets 1599 fp
    let buffer := buffer ++ cstr read.1
    if read.2.2 then .ok buffer else appendLines fuel read.2.1 buffer

/-- `LuaDebugger::readFileIntoString`. It returns a pointer into a string that is destroyed at
the return; `released` is what the storage of such a string still shows. -/
def readFileIntoString (released : Text → Text) (content : Text) : Except Fault Text := do
  let buffer ← appendLines (content.length + 1) content []
  return cstr (released buffer)

/-- What `main` keeps of the script with `-b true`, with arrays as long as needed, and with
`-b false`. -/
def loadLines (released : Text → Text) (bufferScript : Bool) (luaScriptName content : Text) :
    Except Fault ScriptLines :=
  if bufferScript then do
    let scriptInBuffer ← readFileIntoString released content
    readSourcefromStringBuffer .unbounded scriptInBuffer luaScriptName (fun _ => [])
  else readFile .declared luaScriptName content (fun _ => [])

/-- `ar->source` in the chunk: `luaL_loadfile` marks the name of a file. -/
def chunkName (bufferScript : Bool) (luaScriptName : Text) : Text :=
  if bufferScript then luaScriptName else '@' :: luaScriptName

/-- `i  <line i>` for every line of the script. -/
def entriesOf (content : Text) : List Text :=
  (linesOf '\n' content).mapIdx (fun j line => ofInt (j+1) ++ (txt "  " ++ line))

/-- In both ways of loading the entries of the script are kept under its name, and at a stop in
a line of the chunk its entry is found. -/
def LoadedAlike (released : Text → Text) (stops : Bool → Set ℤ) (name content : Text) : Prop :=
  ∀ bufferScript, ∃ m, loadLines released bufferScript name content = .ok m ∧
    m name = entriesOf content ∧
      ∀ i ∈ stops bufferScript, ∃ entry, 1 ≤ i ∧ (entriesOf content)[(i-1).toNat]? = some entry ∧
        Inspect.getFileLine (m (chunkName bufferScript name)) i = .ok entry

section Buffer

theorem fgets_append (room : ℕ) (fp : Text) :
    (fgets room fp).1 ++ (fgets room fp).2.1 = fp ∧
      ((fgets room fp).2.2 = true → (fgets room fp).2.1 = []) ∧
        (0 < room → (fgets room fp).2.2 = false → (fgets room fp).1 ≠ []) := by
  induction room generalizing fp with
  | zero => simp [fgets]
  | succ room ih =>
    cases fp with
    | nil => simp [fgets]
    | cons c fp =>
      obtain ⟨happend, hend, -⟩ := ih fp
      rw [fgets]
      split_ifs
      · simp
      · exact ⟨congrArg (c :: ·) happend, hend, fun _ _ => List.cons_ne_nil _ _⟩

/-- The buffer gets the whole file. -/
theorem appendLines_eq {fuel : ℕ} {fp buffer : Text} (hz : '\x00' ∉ fp)
    (hfuel : fp.length < fuel) : appendLines fuel fp buffer = .ok (buffer ++ fp) := by
  induction fuel generalizing fp buffer with
  | zero => omega
  | succ fuel ih =>
    obtain ⟨happend, hend, hread⟩ := fgets_append 1599 fp
    have hpiece : cstr (fgets 1599 fp).1 = (fgets 1599 fp).1 := by
      apply cstr_eq_self
      intro h
      exact hz (happend ▸ List.mem_append_left _ h)
    rw [appendLines, hpiece]
    cases heof : (fgets 1599 fp).2.2 with
    | true =>
      rw [hend heof, List.append_nil] at happend
      rw [if_pos rfl, happend]
    | false =>
      -- `fgets` has read something, so that the rest is shorter
      have hne := List.length_pos_of_ne_nil (hread (by decide) heof)
      have hlen := congrArg List.length happend
      rw [List.length_append] at hlen
      have hz' : '\x00' ∉ (fgets 1599 fp).2.1 := by
        intro h
        exact hz (happend ▸ List.mem_append_right _ h)
      rw [if_neg Bool.false_ne_true, ih hz' (by omega), List.append_assoc, happend]

theorem readFileIntoString_eq (released : Text → Text) {content : Text}
    (hz : '\x00' ∉ content) :
    readFileIntoString released content = .ok (cstr (released content)) := by
  rw [readFileIntoString, appendLines_eq hz (Nat.lt_succ_self _), List.nil_append]
  rfl

end Buffer

section Entries

theorem numberedLine_inj {i : ℕ} {a b : Text} :
    numberedLine i a = numberedLine i b ↔ cstr a = cstr b := by
  rw [numberedLine, numberedLine, List.append_cancel_left_eq, List.append_cancel_left_eq]

/-- C strings are what their numbered lines say. -/
theorem numberedFrom_inj {i : ℕ} {ls ks : List Text} (hls : ∀ l ∈ ls, '\x00' ∉ l)
    (hks : ∀ k ∈ ks, '\x00' ∉ k) : numberedFrom i ls = numberedFrom i ks ↔ ls = ks := by
  induction ls generalizing i ks with
  | nil => cases ks <;> simp [numberedFrom]
  | cons l ls ih =>
    cases ks with
    | nil => simp [numberedFrom]
    | cons k ks =>
      obtain ⟨hl, hls⟩ := List.forall_mem_cons.mp hls
      obtain ⟨hk, hks⟩ := List.forall_mem_cons.mp hks
      rw [numberedFrom_cons, numberedFrom_cons, List.cons.injEq, List.cons.injEq, ih hls hks,
        numberedLine_inj, cstr_eq_self hl, cstr_eq_self hk]

theorem entriesOf_eq {content : Text} (hz : '\x00' ∉ content) :
    entriesOf content = numberedFrom 1 (linesOf '\n' content) := by
  apply List.mapIdx_eq_mapIdx_iff.mpr
  intro j hj
  have hi : ((1 + j : ℕ) : ℤ) = j + 1 := by omega
  have hline := zero_not_mem_linesOf hz _ (List.getElem_mem hj)
  rw [numberedLine, hi, cstr_eq_self hline]

/-- An entry begins with a number. -/
theorem message_not_mem (content : Text) : txt "lines not available" ∉ entriesOf content := by
  intro h
  obtain ⟨j, hj, he⟩ := List.mem_mapIdx.mp h
  obtain ⟨c, t, hc⟩ := List.exists_cons_of_ne_nil (ofInt_ne_nil (j+1))
  rw [hc, txt] at he
  have hl : c = 'l' := (List.cons.inj he).1
  have hmem : 'l' ∈ ofInt (j+1) := by
    rw [hc, hl]
    exact List.mem_cons_self
  exact not_mem_ofInt (by decide) (by decide) hmem

theorem getFileLine_of_getElem? {list : List Text} {i : ℤ} {entry : Text} (hi : 1 ≤ i)
    (h : list[(i-1).toNat]? = some entry) : Inspect.getFileLine list i = .ok entry := by
  have hne : list.length ≠ 0 := by
    have hlt := (List.getElem?_eq_some_iff.mp h).1
    omega
  rw [Inspect.getFileLine, if_neg hne, if_pos hi, h]

end Entries

section Loads

variable {released : Text → Text} {name content : Text} {m : ScriptLines}

theorem loadLines_buffered (hz : '\x00' ∉ content) :
    loadLines released true name content = .ok m ↔
      m = Function.update (fun _ => []) name
        (numberedFrom 1 (linesOf '\n' (lastOverwritten (cstr (released content))))) := by
  rw [loadLines, if_pos rfl, readFileIntoString_eq released hz]
  change readSourcefromStringBuffer .unbounded (cstr (released content)) name (fun _ => []) =
    .ok m ↔ _
  rw [readSourcefromStringBuffer_eq, cstr_eq_self (zero_not_mem_cstr _), storeLines_eq_ok]
  exact and_iff_right fun _ _ _ => ⟨rfl, rfl⟩

theorem loadLines_file :
    loadLines released false name content = .ok m ↔
      linesHaveRoom (fileLines content) ∧
        m = Function.update (fun _ => []) name (numberedFrom 1 (fileLines content)) := by
  rw [loadLines, if_neg Bool.false_ne_true, readFile_eq _ (by simp [LineBuffers.declared, fits]),
    storeLines_eq_ok]
  exact and_congr (linesFit_declared fun _ h => .inr (length_lt_of_mem_fileLines h)) Iff.rfl

theorem closed_lastOverwritten (s : Text) :
    closed '\n' (lastOverwritten s) = lastOverwritten s := by
  rw [lastOverwritten]
  split_ifs with hs
  · rfl
  · exact if_pos (Or.inr ⟨s.dropLast, rfl⟩)

/-- The file is read to its end if its lines have room. -/
theorem fileLines_eq (hz : '\x00' ∉ content) (h : linesHaveRoom (linesOf '\n' content)) :
    fileLines content = linesOf '\n' content := by
  apply List.takeWhile_eq_self_iff.mpr
  intro line hline
  obtain ⟨j, hj⟩ := List.mem_iff_getElem?.mp hline
  have hroom := h j line hj
  rw [cstr_eq_self (zero_not_mem_linesOf hz line hline)] at hroom
  exact decide_eq_true (by omega)

variable {stops : Set ℤ}

/-- With `-b true` the right entries are kept if the storage still holds the script but for its
last character, and they are found at the stops in its lines. -/
theorem buffered_iff (hz : '\x00' ∉ content) :
    (∃ m, loadLines released true name content = .ok m ∧ m name = entriesOf content ∧
      ∀ i ∈ stops, ∃ entry, 1 ≤ i ∧ (entriesOf content)[(i-1).toNat]? = some entry ∧
        Inspect.getFileLine (m name) i = .ok entry) ↔
      lastOverwritten (cstr (released content)) = closed '\n' content ∧
        ∀ i ∈ stops, 1 ≤ i ∧ i ≤ (linesOf '\n' content).length := by
  have hlength : (entriesOf content).length = (linesOf '\n' content).length := by
    simp [entriesOf]
  have hkept : numberedFrom 1 (linesOf '\n' (lastOverwritten (cstr (released content)))) =
      entriesOf content ↔ lastOverwritten (cstr (released content)) = closed '\n' content := by
    rw [entriesOf_eq hz, numberedFrom_inj (zero_not_mem_lastOverwritten _)
      (zero_not_mem_linesOf hz), linesOf_eq_iff, closed_lastOverwritten]
  constructor
  · -- the entries tell the lines, and the lines the text up to the end of the last one
    rintro ⟨m, hm, hname, hstops⟩
    obtain rfl := (loadLines_buffered hz).mp hm
    rw [Function.update_self] at hname
    refine ⟨hkept.mp hname, fun i hi => ?_⟩
    obtain ⟨entry, hpos, hentry, -⟩ := hstops i hi
    have hlt := (List.getElem?_eq_some_iff.mp hentry).1
    omega
  · rintro ⟨hclosed, hstops⟩
    have hname := hkept.mpr hclosed
    refine ⟨_, (loadLines_buffered hz).mpr rfl, ?_, fun i hi => ?_⟩
    · rw [Function.update_self, hname]
    · obtain ⟨hpos, hle⟩ := hstops i hi
      have hlt : (i-1).toNat < (entriesOf content).length := by omega
      have hentry := List.getElem?_eq_getElem hlt
      refine ⟨_, hpos, hentry, ?_⟩
      rw [Function.update_self, hname]
      exact getFileLine_of_getElem? hpos hentry

/-- With `-b false` the right entries are kept if all lines have room, but under another name
than that of the chunk. -/
theorem file_iff (hz : '\x00' ∉ content) :
    (∃ m, loadLines released false name content = .ok m ∧ m name = entriesOf content ∧
      ∀ i ∈ stops, ∃ entry, 1 ≤ i ∧ (entriesOf content)[(i-1).toNat]? = some entry ∧
        Inspect.getFileLine (m ('@' :: name)) i = .ok entry) ↔
      linesHaveRoom (linesOf '\n' content) ∧ stops = ∅ := by
  have hfile : ∀ line ∈ fileLines content, '\x00' ∉ line := fun line h =>
    zero_not_mem_linesOf hz line ((List.takeWhile_prefix _).subset h)
  constructor
  · rintro ⟨m, hm, hname, hstops⟩
    obtain ⟨hroom, rfl⟩ := loadLines_file.mp hm
    rw [Function.update_self, entriesOf_eq hz,
      numberedFrom_inj hfile (zero_not_mem_linesOf hz)] at hname
    rw [hname] at hroom
    refine ⟨hroom, Set.eq_empty_of_forall_notMem fun i hi => ?_⟩
    -- nothing is kept under the name of the chunk, and no entry reads like the message
    obtain ⟨entry, -, hentry, hfound⟩ := hstops i hi
    have hother : '@' :: name ≠ name := List.cons_ne_self _ _
    rw [Function.update_of_ne hother] at hfound
    obtain rfl : txt "lines not available" = entry := Except.ok.inj hfound
    exact message_not_mem content (List.mem_of_getElem? hentry)
  · rintro ⟨hroom, rfl⟩
    have hlines := fileLines_eq hz hroom
    refine ⟨_, loadLines_file.mpr ⟨hlines ▸ hroom, rfl⟩, ?_, fun i hi => hi.elim⟩
    rw [Function.update_self, hlines, entriesOf_eq hz]

end Loads

/-- Exactly if the released storage still holds the script, but for its last character, which
is taken for the end of the last line, if all lines have room, and if the chunk has stops only
with `-b true`, in lines of the script. -/
theorem loadedAlike_iff (released : Text → Text) (stops : Bool → Set ℤ) (name : Text)
    {content : Text} (hz : '\x00' ∉ content) :
    LoadedAlike released stops name content ↔
      (linesHaveRoom (linesOf '\n' content) ∧ stops false = ∅) ∧
        lastOverwritten (cstr (released content)) = closed '\n' content ∧
          ∀ i ∈ stops true, 1 ≤ i ∧ i ≤ (linesOf '\n' content).length := by
  rw [LoadedAlike, Bool.forall_bool]
  exact and_congr (file_iff hz) (buffered_iff hz)

/-- One line with its end, with `-b true` only. -/
theorem loadedAlike_oneLine :
    LoadedAlike id (fun bufferScript => if bufferScript then {1} else ∅) (txt "a.lua")
      (txt "x = 1\n") := by
  refine (loadedAlike_iff id _ _ (by decide)).mpr ⟨⟨?_, rfl⟩, by decide, ?_⟩
  · intro j line hj
    have hlines : linesOf '\n' (txt "x = 1\n") = [txt "x = 1"] := by decide
    rw [hlines] at hj
    cases j with
    | zero =>
      obtain rfl := Option.some.inj hj
      decide
    | succ j => cases hj
  · rintro i rfl
    decide

/-- The same line at a stop with `-b false`, and without its end: also with the storage intact
the line is not found, or has lost its last character. -/
theorem oneLine_not_alike :
    ¬ LoadedAlike id (fun _ => {1}) (txt "a.lua") (txt "x = 1\n") ∧
      ¬ LoadedAlike id (fun _ => ∅) (txt "a.lua") (txt "x = 1") := by
  constructor
  · intro h
    have hstops := ((file_iff (by decide)).mp (h false)).2
    exact Set.singleton_ne_empty 1 hstops
  · intro h
    have hclosed := ((buffered_iff (by decide)).mp (h true)).1
    revert hclosed
    decide

end LuaIde
