import LuaIde.InputStream
import LuaIde.ReplyTexts
import Mathlib.Logic.Function.Basic

/-! The two loaders that keep the lines of a script for the debugger, character by character
out of a buffer and line by line out of a file. Their arrays `text` and `line` are checked like
those of the replies. -/
namespace LuaIde

open LineText DecimalText CheckedFold InputStream

/-- The size of the arrays `text` and `line`. -/
def MAX : ℕ := 170

structure LineBuffers where
  text : Option ℕ
  line : Option ℕ

def LineBuffers.declared : LineBuffers := ⟨some MAX, some MAX⟩

def LineBuffers.unbounded : LineBuffers := ⟨none, none⟩

def setLineSourceList (m : ScriptLines) (scriptName text : Text) : ScriptLines :=
  Function.update m scriptName (m scriptName ++ [text])

/-- The format `"%d  %s"`. -/
def numberedLine (lineNumber : ℕ) (text : Text) : Text :=
  ofInt lineNumber ++ (txt "  " ++ cstr text)

/-- `text[k++] = ch`. -/
def putChar (cap : Option ℕ) (text : Text) (ch : Char) : Except Fault Text :=
  if fits cap text.length then .ok (text ++ [ch]) else .error .overflow

/-- The loop of `readSourcefromStringBuffer`. The last character ends a line, whatever it is. -/
def scanSource (b : LineBuffers) (name : Text) : Text → Text → ℕ → ScriptLines →
    Except Fault ScriptLines
  | [], _, _, m => .ok m
  | ch :: luaScript, text, lineNumber, m =>
    if ch = '\n' ∨ luaScript = [] then do
      let text ← strcat b.text text []
      let line ← sprintf b.line (numberedLine lineNumber text)
      scanSource b name luaScript [] (lineNumber+1) (setLineSourceList m name line)
    else do
      let text ← putChar b.text text ch
      scanSource b name luaScript text lineNumber m

/-- `LuaDebugger::readSourcefromStringBuffer`. -/
def readSourcefromStringBuffer (b : LineBuffers) (source name : Text) (m : ScriptLines) :
    Except Fault ScriptLines :=
  scanSource b name (cstr source) [] 1 m

/-- The loop of `readFile`. -/
def readLines (b : LineBuffers) (pFileName : Text) : ℕ → Stream Char → ℕ → ScriptLines →
    Except Fault ScriptLines
  | 0, _, _, _ => .error .endless
  | fuel+1, indata, i, m => do
    let read := indata.getline '\n' MAX
    let line ← sprintf b.line read.1
    if read.2.failed then .ok m
    else
      let text ← sprintf b.text (numberedLine i line)
      readLines b pFileName fuel read.2 (i+1) (setLineSourceList m pFileName text)

/-- `LuaDebugger::readFile`, for a file with this content. -/
def readFile (b : LineBuffers) (pFileName content : Text) (m : ScriptLines) :
    Except Fault ScriptLines :=
  readLines b pFileName (content.length + 1) ⟨content, false⟩ 1 m

/-- Lines that are kept one after the other, each through an array for the line and one for
the numbered line. -/
def storeLines (raw numbered : Option ℕ) (name : Text) : ℕ → List Text → ScriptLines →
    Except Fault ScriptLines
  | _, [], m => .ok m
  | i, line :: ls, m => do
    let line ← sprintf raw line
    let entry ← sprintf numbered (numberedLine i line)
    storeLines raw numbered name (i+1) ls (setLineSourceList m name entry)

/-- The script as the first loader cuts it: its last character is taken for a line end. -/
def lastOverwritten (script : Text) : Text :=
  if script = [] then [] else script.dropLast ++ ['\n']

/-- The lines of a file in front of the first one that is too long for `getline`. -/
def fileLines (content : Text) : List Text :=
  (linesOf '\n' content).takeWhile (fun line => decide (line.length < MAX))

theorem storeLines_of_long {raw numbered : Option ℕ} {name line : Text} {i : ℕ} {ls : List Text}
    {m : ScriptLines} (hraw : ¬ fits raw line.length) :
    storeLines raw numbered name i (line :: ls) m = .error .overflow := by
  rw [storeLines, sprintf, strcat, List.length_nil, Nat.zero_add, if_neg hraw]
  rfl

theorem lastOverwritten_cons {ch : Char} {script : Text} (hne : script ≠ []) :
    lastOverwritten (ch :: script) = ch :: lastOverwritten script := by
  simp [lastOverwritten, hne, List.dropLast_cons_of_ne_nil hne]

/-- The scan keeps the lines of the script with its last character overwritten, the first one
behind what the array `text` holds already. -/
theorem scanSource_eq (b : LineBuffers) (name luaScript text : Text) (i : ℕ) (m : ScriptLines)
    (htext : '\n' ∉ text) (hne : luaScript ≠ []) :
    scanSource b name luaScript text i m =
      storeLines b.text b.line name i (linesOf '\n' (text ++ lastOverwritten luaScript)) m := by
  induction luaScript generalizing text i m with
  | nil => exact absurd rfl hne
  | cons ch luaScript ih =>
    have hstore (t : Text) : strcat b.text t [] = sprintf b.text t := by
      simp [sprintf, strcat]
    rw [scanSource]
    by_cases hlast : luaScript = []
    · -- the last character ends the last line
      have hlines : linesOf '\n' (text ++ lastOverwritten (ch :: luaScript)) = [text] := by
        simp [hlast, lastOverwritten, linesOf_append_cons htext, linesOf]
      rw [if_pos (.inr hlast), hlines, storeLines, hstore, hlast]
      rfl
    · rw [lastOverwritten_cons hlast]
      by_cases hch : ch = '\n'
      · rw [if_pos (.inl hch), hch, linesOf_append_cons htext, storeLines, hstore]
        simp only [ih [] _ _ List.not_mem_nil hlast, List.nil_append]
      · rw [if_neg (not_or.mpr ⟨hch, hlast⟩), putChar]
        have htext' : '\n' ∉ text ++ [ch] := by
          simp [htext, Ne.symm hch]
        by_cases hroom : fits b.text text.length
        · rw [if_pos hroom]
          change scanSource b name luaScript (text ++ [ch]) i m = _
          rw [ih _ _ _ htext' hlast, List.append_assoc, List.singleton_append]
        · -- the line has no room for this character, so it has none as a whole
          have hsome : linesOf '\n' (ch :: lastOverwritten luaScript) ≠ [] :=
            linesOf_ne_nil (List.cons_ne_nil _ _)
          obtain ⟨line, lines, hlines⟩ := List.exists_cons_of_ne_nil hsome
          have hlong : ¬ fits b.text (text ++ line).length := by
            intro h
            exact hroom (fits_mono _ _ _ (by simp) h)
          rw [if_neg hroom, linesOf_append htext hlines, storeLines_of_long hlong]
          rfl

theorem readSourcefromStringBuffer_eq (b : LineBuffers) (source name : Text) (m : ScriptLines) :
    readSourcefromStringBuffer b source name m =
      storeLines b.text b.line name 1 (linesOf '\n' (lastOverwritten (cstr source))) m := by
  rw [readSourcefromStringBuffer]
  by_cases hne : cstr source = []
  · rw [hne]
    rfl
  · rw [scanSource_eq b name (cstr source) [] 1 m List.not_mem_nil hne, List.nil_append]

/-- The loop over the file keeps the lines in front of the first one that is too long. -/
theorem readLines_eq (b : LineBuffers) (hline : ∀ n < MAX, fits b.line n) (pFileName : Text)
    (fuel : ℕ) (content : Text) (hfuel : content.length < fuel) (i : ℕ) (m : ScriptLines) :
    readLines b pFileName fuel ⟨content, false⟩ i m =
      storeLines b.line b.text pFileName i (fileLines content) m := by
  induction fuel generalizing content i m with
  | zero => omega
  | succ fuel ih =>
    have hwrite {line : Text} (h : line.length < MAX) : sprintf b.line line = .ok line := by
      rw [sprintf_eq_ok]
      exact ⟨hline _ h, rfl⟩
    rw [readLines]
    by_cases hne : content = []
    · -- the read at the end of the file fails and leaves the line empty
      simp only [Stream.getline_at_end (s := ⟨content, false⟩) rfl hne]
      rw [hwrite (by decide), hne]
      rfl
    · set line := content.takeWhile (fun c => decide (c ≠ '\n')) with hdef
      have hlines : linesOf '\n' content =
          line :: linesOf '\n' (content.drop (line.length + 1)) := linesOf_eq_cons '\n' hne
      by_cases hroom : line.length < MAX
      · have hread := Stream.getline_of_room (s := ⟨content, false⟩) rfl hne hroom
        have hfile : fileLines content =
            line :: fileLines (content.drop (line.length + 1)) := by
          rw [fileLines, hlines, List.takeWhile_cons_of_pos (by simpa using hroom)]
          rfl
        have hrest : (content.drop (line.length + 1)).length < fuel := by
          have hpos := List.length_pos_of_ne_nil hne
          rw [List.length_drop]
          omega
        simp only [hread, ← hdef, hfile, storeLines, hwrite hroom]
        simp only [bind, Except.bind, Bool.false_eq_true, if_false, ih _ hrest]
      · -- the part that is read of a longer line is not kept, and the loop ends
        have hread := Stream.getline_of_long (s := ⟨content, false⟩) rfl hne hroom
        have hfile : fileLines content = [] := by
          rw [fileLines, hlines, List.takeWhile_cons_of_neg (by simpa using hroom)]
        have hpiece : (content.take (MAX - 1)).length < MAX := by
          rw [List.length_take]
          exact lt_of_le_of_lt (Nat.min_le_left _ _) (by decide)
        simp only [hread, hwrite hpiece, hfile]
        rfl

theorem readFile_eq (b : LineBuffers) (hline : ∀ n < MAX, fits b.line n)
    (pFileName content : Text) (m : ScriptLines) :
    readFile b pFileName content m =
      storeLines b.line b.text pFileName 1 (fileLines content) m :=
  readLines_eq b hline pFileName _ content (Nat.lt_succ_self _) 1 m

/-- The numbered lines, from this number on. -/
def numberedFrom (i : ℕ) (ls : List Text) : List Text :=
  ls.mapIdx (fun j line => numberedLine (i+j) line)

/-- Every line has room as it is and with its number, from this number on. -/
def linesFit (raw numbered : Option ℕ) (i : ℕ) (ls : List Text) : Prop :=
  ∀ j line, ls[j]? = some line →
    fits raw line.length ∧ fits numbered (numberedLine (i+j) line).length

theorem linesFit_cons {raw numbered : Option ℕ} {i : ℕ} {line : Text} {ls : List Text} :
    linesFit raw numbered i (line :: ls) ↔
      (fits raw line.length ∧ fits numbered (numberedLine i line).length) ∧
        linesFit raw numbered (i+1) ls := by
  have hshift (j : ℕ) : i + (j+1) = i + 1 + j := by omega
  constructor
  · intro h
    refine ⟨h 0 line rfl, fun j l hl => ?_⟩
    rw [← hshift]
    exact h (j+1) l hl
  · rintro ⟨hline, hls⟩ j l hl
    cases j with
    | zero =>
      obtain rfl := Option.some.inj hl
      exact hline
    | succ j =>
      rw [hshift]
      exact hls j l hl

theorem numberedFrom_cons (i : ℕ) (line : Text) (ls : List Text) :
    numberedFrom i (line :: ls) = numberedLine i line :: numberedFrom (i+1) ls := by
  have hshift : (fun j line => numberedLine (i + (j+1)) line) =
      fun j line => numberedLine (i + 1 + j) line := by
    funext j line
    rw [Nat.add_assoc i 1 j, Nat.add_comm 1 j]
  rw [numberedFrom, List.mapIdx_cons, hshift]
  rfl

/-- Lines that have room are kept with their numbers behind those the script has. -/
theorem storeLines_eq_ok {raw numbered : Option ℕ} {name : Text} {i : ℕ} {ls : List Text}
    {m m' : ScriptLines} :
    storeLines raw numbered name i ls m = .ok m' ↔
      linesFit raw numbered i ls ∧ m' = Function.update m name (m name ++ numberedFrom i ls) := by
  induction ls generalizing i m with
  | nil =>
    have hkept : Function.update m name (m name ++ numberedFrom i []) = m := by
      simp [numberedFrom]
    have hfit : linesFit raw numbered i [] := by
      intro j line hj
      cases hj
    rw [hkept, storeLines, Except.ok.injEq, and_iff_right hfit, eq_comm]
  | cons line ls ih =>
    have hkept : Function.update (setLineSourceList m name (numberedLine i line)) name
        (setLineSourceList m name (numberedLine i line) name ++ numberedFrom (i+1) ls) =
          Function.update m name (m name ++ numberedFrom i (line :: ls)) := by
      simp [setLineSourceList, numberedFrom_cons]
    rw [storeLines, linesFit_cons, bind_eq_ok]
    constructor
    · rintro ⟨t, ht, h⟩
      obtain ⟨hraw, rfl⟩ := (sprintf_eq_ok _ _ _).mp ht
      obtain ⟨e, he, h⟩ := bind_eq_ok.mp h
      obtain ⟨hnumbered, rfl⟩ := (sprintf_eq_ok _ _ _).mp he
      obtain ⟨hls, rfl⟩ := ih.mp h
      exact ⟨⟨⟨hraw, hnumbered⟩, hls⟩, hkept⟩
    · rintro ⟨⟨⟨hraw, hnumbered⟩, hls⟩, rfl⟩
      refine ⟨line, (sprintf_eq_ok _ _ _).mpr ⟨hraw, rfl⟩, bind_eq_ok.mpr ⟨_,
        (sprintf_eq_ok _ _ _).mpr ⟨hnumbered, rfl⟩, ih.mpr ⟨hls, hkept.symm⟩⟩⟩

/-- Nothing but a write outside of an array can go wrong. -/
theorem storeLines_failsOnly (raw numbered : Option ℕ) (name : Text) (i : ℕ) (ls : List Text)
    (m : ScriptLines) : FailsOnly .overflow (storeLines raw numbered name i ls m) := by
  induction ls generalizing i m with
  | nil => exact .ok m
  | cons line ls ih =>
    refine (sprintf_failsOnly raw line).bind fun line => ?_
    exact (sprintf_failsOnly numbered _).bind fun entry => ih (i+1) _

theorem storeLines_inside {raw numbered : Option ℕ} {name : Text} {i : ℕ} {ls : List Text}
    {m : ScriptLines} :
    storeLines raw numbered name i ls m ≠ .error .overflow ↔ linesFit raw numbered i ls := by
  rw [(storeLines_failsOnly raw numbered name i ls m).ne_error_iff]
  constructor
  · rintro ⟨m', hm⟩
    exact (storeLines_eq_ok.mp hm).1
  · intro h
    exact ⟨_, storeLines_eq_ok.mpr ⟨h, rfl⟩⟩

/-- With its number, two blanks and the terminating zero, every line has room in an array. -/
def linesHaveRoom (ls : List Text) : Prop :=
  ∀ (j : ℕ) line, ls[j]? = some line → (ofInt (j+1)).length + 2 + (cstr line).length < MAX

/-- Loading the script with both loaders, every write lies inside of its array. -/
def loadedInside (script : Text) : Prop :=
  ∀ name m, readSourcefromStringBuffer .declared script name m ≠ .error .overflow ∧
    readFile .declared name script m ≠ .error .overflow

theorem length_numberedLine (i : ℕ) (line : Text) :
    (numberedLine i line).length = (ofInt i).length + 2 + (cstr line).length := by
  simp only [numberedLine, txt, List.length_append]
  exact (Nat.add_assoc _ _ _).symm

theorem linesFit_declared {ls : List Text}
    (hraw : ∀ line ∈ ls, cstr line = line ∨ line.length < MAX) :
    linesFit (some MAX) (some MAX) 1 ls ↔ linesHaveRoom ls := by
  unfold linesFit linesHaveRoom
  apply forall₃_congr
  intro j line hj
  have hi : ((1 + j : ℕ) : ℤ) = j + 1 := by omega
  simp only [fits, length_numberedLine, hi, decide_eq_true_eq, and_iff_right_iff_imp]
  intro h
  rcases hraw line (List.mem_of_getElem? hj) with he | hshort
  · rw [he] at h
    omega
  · exact hshort

theorem zero_not_mem_linesOf {s : Text} (hz : '\x00' ∉ s) : ∀ l ∈ linesOf '\n' s, '\x00' ∉ l :=
  fun _ hl h => hz (mem_of_mem_linesOf hl h)

theorem zero_not_mem_lastOverwritten (source : Text) :
    ∀ l ∈ linesOf '\n' (lastOverwritten (cstr source)), '\x00' ∉ l := by
  apply zero_not_mem_linesOf
  intro hz
  rw [lastOverwritten] at hz
  split_ifs at hz
  · cases hz
  · rcases List.mem_append.mp hz with h | h
    · exact zero_not_mem_cstr source (List.dropLast_subset _ h)
    · exact absurd (List.mem_singleton.mp h) (by decide)

theorem length_lt_of_mem_fileLines {content line : Text} (h : line ∈ fileLines content) :
    line.length < MAX := by
  simpa using List.mem_takeWhile_imp h

/-- Exactly if its lines have room, the last one without the last character, and as the file
loader reads them up to the first one of 170 characters or more. -/
theorem loadedInside_iff (script : Text) :
    loadedInside script ↔
      linesHaveRoom (linesOf '\n' (lastOverwritten (cstr script))) ∧
        linesHaveRoom (fileLines script) := by
  have hzero : ∀ line ∈ linesOf '\n' (lastOverwritten (cstr script)), cstr line = line :=
    fun line h => cstr_eq_self (zero_not_mem_lastOverwritten script line h)
  have hline : ∀ n < MAX, fits LineBuffers.declared.line n := by
    intro n hn
    simpa [LineBuffers.declared, fits] using hn
  rw [← linesFit_declared fun line h => .inl (hzero line h),
    ← linesFit_declared fun line h => .inr (length_lt_of_mem_fileLines h)]
  constructor
  · intro h
    obtain ⟨hbuffer, hfile⟩ := h [] (fun _ => [])
    rw [readSourcefromStringBuffer_eq] at hbuffer
    rw [readFile_eq _ hline] at hfile
    exact ⟨storeLines_inside.mp hbuffer, storeLines_inside.mp hfile⟩
  · rintro ⟨hbuffer, hfile⟩ name m
    rw [readSourcefromStringBuffer_eq, readFile_eq _ hline]
    exact ⟨storeLines_inside.mpr hbuffer, storeLines_inside.mpr hfile⟩

/-- One line of 168 characters: with its number it takes 172 of the 170 there are. -/
theorem longLine_overflows :
    ¬ loadedInside (List.replicate 168 'x' ++ ['\n']) := by
  intro h
  have hbuffer := (h [] (fun _ => [])).1
  rw [readSourcefromStringBuffer_eq] at hbuffer
  have hline : (linesOf '\n' (lastOverwritten (cstr (List.replicate 168 'x' ++ ['\n']))))[0]? =
      some (List.replicate 168 'x') := by decide +kernel
  have hfits := (storeLines_inside.mp hbuffer 0 _ hline).2
  revert hfits
  decide +kernel

end LuaIde
