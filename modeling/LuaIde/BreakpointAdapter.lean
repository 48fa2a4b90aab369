import LuaIde.PdaBreakpoints
import LuaIde.ToggleFirst

/-! `PDABreakpointAdapter`: what a double click in front of a line does to the registered
breakpoints. -/
namespace LuaIde

open DecimalText ToggleFirst

/-- The lines of a document, without their ends: LF, CR or CR LF. -/
def documentLines : Text → List Text
  | [] => [[]]
  | '\r' :: '\n' :: s => [] :: documentLines s
  | c :: s =>
    if c = '\n' ∨ c = '\r' then [] :: documentLines s
    else
      match documentLines s with
      | [] => [[c]]
      | line :: lines => (c :: line) :: lines

/-- `String.trim`. -/
def trim (s : Text) : Text :=
  ((s.dropWhile (fun c => decide (c ≤ ' '))).reverse.dropWhile (fun c => decide (c ≤ ' '))).reverse

/-- An editor of a Lua file, with the line selected in it. -/
structure LuaEditor where
  resource : Text
  document : Text
  startLine : ℕ
  inDocument : startLine < (documentLines document).length
  isInt : startLine + 1 ≤ 2147483647

/-- The breakpoints that the manager lists for this debugger, at most one line breakpoint for
each file and line. -/
structure RegisteredBreakpoints where
  list : List PDALineBreakpoint
  managed : ∀ b ∈ list, b.isManaged
  atMostOne : ∀ file n,
    list.countP (fun b => decide (b.kind = .line ∧ b.resource = some file ∧ b.lineNumber = n)) ≤ 1

namespace LuaEditor

variable (e : LuaEditor)

def lineText : Text := (documentLines e.document).get ⟨e.startLine, e.inDocument⟩

/-- `lineNumber + 1`. -/
def lineNumber : CInt where
  val := e.startLine + 1
  lower := by omega
  upper := by
    have h := e.isInt
    omega

/-- `getFunctionName`, over the lines in front of the selected one, the nearest first. -/
def getFunctionName (source : Text) : List Text → Text
  | [] => txt "_main_"
  | (':' :: label) :: lines =>
    if (txt "call " ++ label) <:+: source then label else getFunctionName source lines
  | _ :: lines => getFunctionName source lines

/-- `getVariableAndFunctionName`. -/
def getVariableAndFunctionName : Option (Text × Text) :=
  let string := trim e.lineText
  if (txt "var ").isPrefixOf string then
    let varName := trim (string.drop 4)
    some (varName,
      getFunctionName e.document ((documentLines e.document).take e.startLine).reverse)
  else none

/-- The new breakpoint of `toggleLineBreakpoints`. -/
def lineBreakpoint : PDALineBreakpoint where
  kind := .line
  modelIdentifier := ID_PDA_DEBUG_MODEL
  resource := some e.resource
  enabled := true
  lineNumber := e.lineNumber
  fTarget := false

/-- The new breakpoint of `toggleWatchpoints`. -/
def watchpoint (fcn var : Text) : PDALineBreakpoint :=
  { e.lineBreakpoint with kind := .watchpoint fcn var }

/-- The breakpoint is an `ILineBreakpoint` of the selected line. A watchpoint is one, too. -/
def isHere (b : PDALineBreakpoint) : Bool :=
  decide (b.resource = some e.resource ∧ b.lineNumber = e.lineNumber)

def toggleLineBreakpoints (bs : List PDALineBreakpoint) : List PDALineBreakpoint :=
  toggleFirst e.isHere e.lineBreakpoint bs

def toggleWatchpoints (var fcn : Text) (bs : List PDALineBreakpoint) : List PDALineBreakpoint :=
  toggleFirst (fun b => decide (b.kind = .watchpoint fcn var ∧ b.resource = some e.resource))
    (e.watchpoint fcn var) bs

/-- `toggleBreakpoints`. -/
def toggleBreakpoints (bs : List PDALineBreakpoint) : List PDALineBreakpoint :=
  match e.getVariableAndFunctionName with
  | some (var, fcn) => e.toggleWatchpoints var fcn bs
  | none => e.toggleLineBreakpoints bs

end LuaEditor

/-- A breakpoint as its marker keeps it. -/
def PDALineBreakpoint.marker (b : PDALineBreakpoint) : PDALineBreakpoint :=
  { b with fTarget := false }

/-- What toggling is for: the line breakpoint of the selected line goes, or one comes that ldb
is asked for; all others stay, and a second click takes the first one back. -/
structure TogglesLine (e : LuaEditor) (bs : List PDALineBreakpoint) : Prop where
  toggles : (∃ b, b.kind = .line ∧ e.isHere b ∧ bs.Perm (b :: e.toggleBreakpoints bs)) ∨
    ∃ b, (b.kind = .line ∧ e.isHere b ∧ b.enabled ∧
      b.createRequest = some (.setBreak e.lineNumber)) ∧ (e.toggleBreakpoints bs).Perm (b :: bs)
  elsewhere : (e.toggleBreakpoints bs).filter (fun b => !e.isHere b) =
    bs.filter (fun b => !e.isHere b)
  atMostOne : ∀ file n, (e.toggleBreakpoints bs).countP
    (fun b => decide (b.kind = .line ∧ b.resource = some file ∧ b.lineNumber = n)) ≤ 1
  twice : ∀ bs', bs'.Perm (e.toggleBreakpoints bs) →
    ((e.toggleBreakpoints bs').map PDALineBreakpoint.marker).Perm
      (bs.map PDALineBreakpoint.marker)

namespace LuaEditor

variable (e : LuaEditor)

theorem toggleBreakpoints_var (h : (txt "var ").isPrefixOf (trim e.lineText)) :
    ∃ var fcn, ∀ bs, e.toggleBreakpoints bs = e.toggleWatchpoints var fcn bs := by
  have hsome : ∃ var fcn, e.getVariableAndFunctionName = some (var, fcn) := by
    simp only [getVariableAndFunctionName, if_pos h]
    exact ⟨_, _, rfl⟩
  obtain ⟨var, fcn, hv⟩ := hsome
  exact ⟨var, fcn, fun bs => by rw [toggleBreakpoints, hv]⟩

theorem toggleBreakpoints_of_not_var (h : ¬ (txt "var ").isPrefixOf (trim e.lineText))
    (bs : List PDALineBreakpoint) : e.toggleBreakpoints bs = e.toggleLineBreakpoints bs := by
  have hnone : e.getVariableAndFunctionName = none := by
    simp only [getVariableAndFunctionName, if_neg h]
  rw [toggleBreakpoints, hnone]

def isLine (b : PDALineBreakpoint) : Bool := decide (b.kind = .line)

/-- Toggling watchpoints does not change how many line breakpoints there are. -/
theorem countP_toggleWatchpoints (var fcn : Text) (bs : List PDALineBreakpoint) :
    (e.toggleWatchpoints var fcn bs).countP isLine = bs.countP isLine := by
  apply countP_toggleFirst
  · intro b _ hb hline
    rw [decide_eq_true_iff] at hb
    rw [isLine, decide_eq_true_iff, hb.1] at hline
    exact nomatch hline
  · simp [isLine, watchpoint]

theorem isHere_lineBreakpoint : e.isHere e.lineBreakpoint := by
  simp [isHere, lineBreakpoint]

variable {e} {s : RegisteredBreakpoints}

/-- Where only line breakpoints are on the selected line there is at most one breakpoint. -/
theorem countP_isHere_le (h : ∀ b ∈ s.list, e.isHere b → b.kind = .line) :
    s.list.countP e.isHere ≤ 1 := by
  refine le_trans (List.countP_mono_left ?_) (s.atMostOne e.resource e.lineNumber)
  intro b hb hhere
  have hline := h b hb hhere
  rw [isHere, decide_eq_true_iff] at hhere
  simpa [hline] using hhere

/-- A managed line breakpoint is its own marker but for the target it is installed in. -/
theorem marker_eq {b : PDALineBreakpoint} (hm : b.isManaged) (hhere : e.isHere b)
    (hline : b.kind = .line) (hen : b.enabled) : b.marker = e.lineBreakpoint.marker := by
  simp only [PDALineBreakpoint.isManaged, Bool.and_eq_true, decide_eq_true_iff] at hm
  simp only [isHere, decide_eq_true_iff] at hhere
  simp [PDALineBreakpoint.marker, lineBreakpoint, hline, hen, hm.2, hhere.1, hhere.2]

theorem togglesLine_of_line (hvar : ¬ (txt "var ").isPrefixOf (trim e.lineText))
    (h : ∀ b ∈ s.list, e.isHere b → b.kind = .line ∧ b.enabled) : TogglesLine e s.list := by
  have hone := countP_isHere_le (fun b hb hhere => (h b hb hhere).1)
  have htoggle := e.toggleBreakpoints_of_not_var hvar
  constructor
  · rw [htoggle, toggleLineBreakpoints]
    by_cases hany : s.list.any e.isHere
    · obtain ⟨b, pre, post, hb, hl, ht⟩ := toggleFirst_of_any e.lineBreakpoint hany
      refine Or.inl ⟨b, (h b (by simp [hl]) hb).1, hb, ?_⟩
      rw [ht, hl]
      exact List.perm_middle
    · rw [toggleFirst_of_not_any hany]
      exact Or.inr ⟨e.lineBreakpoint, ⟨rfl, e.isHere_lineBreakpoint, rfl, rfl⟩,
        List.perm_append_singleton _ _⟩
  · rw [htoggle]
    apply filter_toggleFirst
    · intro b _ hb
      simp [hb]
    · simp [e.isHere_lineBreakpoint]
  · intro file n
    rw [htoggle]
    by_cases hplace : file = e.resource ∧ n = e.lineNumber
    · -- on the selected line every breakpoint counts
      obtain ⟨rfl, rfl⟩ := hplace
      calc _ ≤ (e.toggleLineBreakpoints s.list).countP e.isHere := by
            apply List.countP_mono_left
            intro b _ hb
            rw [decide_eq_true_iff] at hb
            exact decide_eq_true hb.2
        _ = 1 - s.list.countP e.isHere := countP_toggleFirst_self e.isHere_lineBreakpoint hone
        _ ≤ 1 := by omega
    · refine le_trans (le_of_eq (countP_toggleFirst ?_ ?_)) (s.atMostOne file n)
      · intro b _ hb hq
        rw [isHere, decide_eq_true_iff] at hb
        rw [decide_eq_true_iff, hb.1, hb.2, Option.some.injEq] at hq
        exact hplace ⟨hq.2.1.symm, hq.2.2.symm⟩
      · rw [decide_eq_true_iff]
        intro hq
        exact hplace ⟨(Option.some.inj hq.2.1).symm, hq.2.2.symm⟩
  · intro bs' hperm
    rw [htoggle] at hperm ⊢
    apply toggleFirst_twice _ e.isHere_lineBreakpoint hone ?_ hperm
    intro b hb hhere
    exact marker_eq (s.managed b hb) hhere (h b hb hhere).1 (h b hb hhere).2

/-- On a line that starts with `var` it is a watchpoint that comes or goes. -/
theorem not_togglesLine_of_var {bs : List PDALineBreakpoint}
    (hvar : (txt "var ").isPrefixOf (trim e.lineText)) : ¬ TogglesLine e bs := by
  intro h
  obtain ⟨var, fcn, htoggle⟩ := e.toggleBreakpoints_var hvar
  have hcount : (e.toggleBreakpoints bs).countP isLine = bs.countP isLine := by
    rw [htoggle, countP_toggleWatchpoints]
  rcases h.toggles with ⟨b, hline, -, hperm⟩ | ⟨b, ⟨hline, -⟩, hperm⟩
  · have hp := hperm.countP_eq isLine
    have hb : isLine b := decide_eq_true hline
    rw [List.countP_cons_of_pos hb] at hp
    omega
  · have hp := hperm.countP_eq isLine
    have hb : isLine b := decide_eq_true hline
    rw [List.countP_cons_of_pos hb] at hp
    omega

/-- On any other line a second click must find nothing there, and bring back what the first
one has taken away. -/
theorem line_of_togglesLine {bs : List PDALineBreakpoint}
    (hvar : ¬ (txt "var ").isPrefixOf (trim e.lineText)) (h : TogglesLine e bs)
    {w : PDALineBreakpoint} (hw : w ∈ bs) (hhere : e.isHere w) : w.kind = .line ∧ w.enabled := by
  have htoggle := e.toggleBreakpoints_of_not_var hvar
  have hshorter (l : List PDALineBreakpoint) (hl : l.any e.isHere) :
      (e.toggleBreakpoints l).length + 1 = l.length := by
    obtain ⟨a, pre, post, -, rfl, ht⟩ := toggleFirst_of_any e.lineBreakpoint hl
    rw [htoggle, toggleLineBreakpoints, ht]
    simp only [List.length_append, List.length_cons]
    omega
  have hlen := hshorter bs (List.any_eq_true.mpr ⟨w, hw, hhere⟩)
  have htwice := h.twice _ (List.Perm.refl _)
  rcases h.toggles with ⟨b, hline, -, hperm⟩ | ⟨b, -, hperm⟩
  · have hno : ¬ (e.toggleBreakpoints bs).any e.isHere := by
      intro hany
      have hlen' := hshorter _ hany
      have := htwice.length_eq
      rw [List.length_map, List.length_map] at this
      omega
    have hwb : w = b := by
      rcases List.mem_cons.mp (hperm.mem_iff.mp hw) with hb | ht
      · exact hb
      · exact absurd (List.any_eq_true.mpr ⟨w, ht, hhere⟩) hno
    subst hwb
    refine ⟨hline, ?_⟩
    -- the new breakpoint is enabled, so the old one was
    rw [htoggle (e.toggleBreakpoints bs), toggleLineBreakpoints, toggleFirst_of_not_any hno]
      at htwice
    have hcount := (htwice.trans (hperm.map _)).countP_eq PDALineBreakpoint.enabled
    simp only [List.map_append, List.countP_append, List.map_cons, List.countP_cons,
      List.map_nil, List.countP_nil] at hcount
    have hnew : e.lineBreakpoint.marker.enabled = true := rfl
    have hold : w.marker.enabled = w.enabled := rfl
    rw [hnew, hold] at hcount
    by_contra hen
    rw [if_pos rfl, if_neg hen] at hcount
    omega
  · have := hperm.length_eq
    rw [List.length_cons] at this
    omega

/-- Toggling does what it is for exactly on lines that do not start with `var` and carry no
watchpoint and no disabled breakpoint. -/
theorem togglesLine_iff (e : LuaEditor) (s : RegisteredBreakpoints) :
    TogglesLine e s.list ↔ ¬ (txt "var ").isPrefixOf (trim e.lineText) ∧
      ∀ b ∈ s.list, e.isHere b → b.kind = .line ∧ b.enabled := by
  constructor
  · intro h
    have hvar : ¬ (txt "var ").isPrefixOf (trim e.lineText) :=
      fun hvar => not_togglesLine_of_var hvar h
    exact ⟨hvar, fun b hb hhere => line_of_togglesLine hvar h hb hhere⟩
  · intro h
    exact togglesLine_of_line h.1 h.2

/-- The first line of a script that assigns to a global `var`. -/
def varEditor : LuaEditor where
  resource := txt "/p/a.lua"
  document := txt "var = 1\nprint(var)\n"
  startLine := 0
  inDocument := by decide
  isInt := by decide

/-- There a watchpoint comes that ldb is never asked for. -/
theorem var_line_watched :
    varEditor.toggleBreakpoints [] = [varEditor.watchpoint (txt "_main_") (txt "= 1")] ∧
      (varEditor.watchpoint (txt "_main_") (txt "= 1")).createRequest = none ∧
      ¬ TogglesLine varEditor [] := by
  refine ⟨by decide, rfl, ?_⟩
  apply not_togglesLine_of_var
  decide

end LuaEditor

end LuaIde
