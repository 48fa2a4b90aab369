import LuaIde.PdaDecoding
import LuaIde.PdaTarget

/-! The queries of the Java model over a command connection that fails at one of their
requests. -/
namespace LuaIde

open LineText DecimalText Delimited CheckedFold

/-- How a connection fails: `readLine` returns null, or throws an IOException. -/
inductive Failure where
  | endOfStream
  | ioException
deriving DecidableEq

def Failure.reply : Failure → Reply
  | endOfStream => .eof
  | ioException => .failed

/-- What the requests of a query get, when the connection works up to the request number
`k`, counted from 0, and fails from then on. -/
def replyAt (answers : ℕ → Text) (k : ℕ) (f : Failure) (i : ℕ) : Reply :=
  if i < k then .line (answers i) else f.reply

inductive ModelQuery where
  | stackFrames
  | value (v : Variable) (frame : ℕ)
  | dataStack
  | targetGlobals

/-- The frames a reply to `stackforide` has data of. -/
def frameCount : Reply → ℕ
  | .line framesData => (split '#' framesData).length
  | _ => 0

variable (lastSegment : Text → Option Text)

/-- `getStackFrames` with its requests in order: `stackforide`, then `getglobals` for each
frame, the one with the greatest identifier first. -/
def getStackFramesOver (replies : ℕ → Reply) : Except JavaError (List PDAStackFrame) :=
  getStackFrames lastSegment
    (fun id data => initGlobals (replies (frameCount (replies 0) - id)) data) (replies 0)

/-- How many requests a query has sent when all of them were answered. -/
def ModelQuery.requests (answers : ℕ → Text) : ModelQuery → ℕ
  | stackFrames => 1 + frameCount (.line (answers 0))
  | value v _ => if v.global ∨ v.table then 0 else 1
  | dataStack => 1
  | targetGlobals => 2

/-- A frame without its globals: the locals from its data, and the label variables. -/
def HasNoGlobals (data : Text) (frame : PDAStackFrame) : Prop :=
  frame.vars = ((split '|' data).drop 3).map PDAVariable.new ++ labelVars

/-- A result of the right form, or a `DebugException`. -/
def Orderly {α : Type} (wellFormed : α → Prop) (result : Except JavaError α) : Prop :=
  match result with
  | .ok a => wellFormed a
  | .error e => e = .debugException

/-- The query ends orderly; the frames whose request for the globals failed are without
globals. -/
def ModelQuery.FailsCleanly (answers : ℕ → Text) (k : ℕ) (f : Failure) : ModelQuery → Prop
  | stackFrames =>
    Orderly (fun frames => ∀ frame ∈ frames, k ≤ frameCount (.line (answers 0)) - frame.fId →
      ∃ data, (split '#' (answers 0)).reverse[frame.fId]? = some data ∧ HasNoGlobals data frame)
      (getStackFramesOver lastSegment (replyAt answers k f))
  | value v frame => Orderly (fun _ => True) (v.getValue frame (fun _ => replyAt answers k f 0))
  | dataStack => Orderly (fun _ => True) (PDADebugTarget.getDataStack (replyAt answers k f 0))
  | targetGlobals => Orderly (fun _ => True)
      (PDADebugTarget.getGlobals lastSegment (replyAt answers k f 0) (replyAt answers k f 1))

/-- Any other exception than a `DebugException`, or none. -/
def Unchecked {α : Type} (result : Except JavaError α) : Prop := result ≠ .error .debugException

section Unchecked

variable {α β : Type}

theorem unchecked_ok (a : α) : Unchecked (.ok a) := by simp [Unchecked]

theorem unchecked_bind {x : Except JavaError α} {f : α → Except JavaError β} (hx : Unchecked x)
    (hf : ∀ a, Unchecked (f a)) : Unchecked (x >>= f) := by
  cases x with
  | error e => exact fun h => hx (congrArg Except.error (Except.error.inj h))
  | ok a => exact hf a

theorem unchecked_arrayAt (a : List α) (i : ℕ) : Unchecked (arrayAt a i) := by
  unfold arrayAt Unchecked
  split <;> simp

theorem unchecked_parseInt (s : Text) : Unchecked (parseIntOrThrow s) := by
  unfold parseIntOrThrow Unchecked
  split <;> simp

theorem unchecked_tableElement (s : Text) : Unchecked (tableElement s) :=
  unchecked_bind (unchecked_arrayAt _ 0) fun _ =>
    unchecked_bind (unchecked_arrayAt _ 1) fun _ => unchecked_ok _

theorem unchecked_tableElements (strings : List Text) : Unchecked (tableElements strings) := by
  induction strings with
  | nil => simp [tableElements, Unchecked]
  | cons curLine strings ih =>
    rw [tableElements]
    split
    · exact unchecked_ok _
    · exact unchecked_bind (unchecked_tableElement curLine) fun _ =>
        unchecked_bind ih fun _ => unchecked_ok _

theorem unchecked_globalVar (strings : List Text) : Unchecked (globalVar strings) := by
  cases strings with
  | nil => simp [globalVar, Unchecked]
  | cons curLine strings =>
    refine unchecked_bind (unchecked_arrayAt _ 0) fun first => ?_
    split
    · exact unchecked_bind (unchecked_arrayAt _ 1) fun _ =>
        unchecked_bind (unchecked_arrayAt _ 0) fun _ =>
          unchecked_bind (unchecked_tableElements strings) fun _ => unchecked_ok _
    · exact unchecked_bind (unchecked_arrayAt _ 1) fun _ => unchecked_ok _

theorem unchecked_globalVars (n : ℕ) (strings : List Text) : Unchecked (globalVars n strings) := by
  induction n generalizing strings with
  | zero => exact unchecked_ok _
  | succ n ih =>
    exact unchecked_bind (unchecked_globalVar strings) fun x =>
      unchecked_bind (ih x.2) fun _ => unchecked_ok _

theorem unchecked_initGlobals (reply : Reply) (data : Text) :
    Unchecked (initGlobals reply data) := by
  cases reply with
  | eof => simp [initGlobals, Unchecked]
  | failed => exact unchecked_bind (unchecked_globalVars _ _) fun _ => unchecked_ok _
  | line data => exact unchecked_bind (unchecked_globalVars _ _) fun _ => unchecked_ok _

/-- A `DebugException` gets out of no frame. -/
theorem unchecked_init {globals : Text → Except JavaError (List Variable)}
    (hg : ∀ data, Unchecked (globals data)) (id : ℕ) (data : Text) :
    Unchecked (PDAStackFrame.init lastSegment globals id data) := by
  refine unchecked_bind (unchecked_arrayAt _ 0) fun fileName =>
    unchecked_bind (unchecked_arrayAt _ 1) fun pc =>
      unchecked_bind (unchecked_parseInt pc) fun fPC =>
        unchecked_bind (unchecked_arrayAt _ 2) fun fName =>
          unchecked_bind (hg data) fun vars => ?_
  cases lastSegment fileName with
  | none => simp [Unchecked]
  | some segment => exact unchecked_ok _

theorem unchecked_frameLoop {globals : ℕ → Text → Except JavaError (List Variable)}
    (hg : ∀ id data, Unchecked (globals id data)) (datas : List Text) :
    Unchecked (frameLoop lastSegment globals datas) := by
  induction datas with
  | nil => exact unchecked_ok _
  | cons data datas ih =>
    exact unchecked_bind (unchecked_init lastSegment (hg _) _ data) fun _ =>
      unchecked_bind ih fun _ => unchecked_ok _

end Unchecked

theorem tableElement_ne_ok {s : Text} (h : '=' ∉ s) (e : TableElement) :
    tableElement s ≠ .ok e := by
  intro ht
  obtain ⟨name, -, ht⟩ := bind_eq_ok.mp ht
  obtain ⟨val, hval, -⟩ := bind_eq_ok.mp ht
  rw [split_of_not_mem '=' s h] at hval
  cases hval

/-- A text that is no pair is no global, with any texts behind it. -/
theorem globalVar_ne_ok {s : Text} (h : '=' ∉ s) (strings : List Text)
    (x : Variable × List Text) : globalVar (s :: strings) ≠ .ok x := by
  intro hg
  obtain ⟨first, -, hg⟩ := bind_eq_ok.mp hg
  have hstart : s ≠ startGlobalTable := by
    rintro rfl
    exact h (by decide)
  rw [if_neg hstart] at hg
  obtain ⟨val, hval, -⟩ := bind_eq_ok.mp hg
  rw [split_of_not_mem '=' s h] at hval
  cases hval

/-- The data of a frame with a line number are no list of globals. -/
theorem decode_frameData {data fileName pc : Text} {rest : List Text} {i : CInt}
    (hdata : split '|' data = fileName :: pc :: rest) (hpc : parseInt pc = some i)
    (vs : List Variable) : initGlobals.decode data ≠ .ok vs := by
  -- a line number is no `name=value`
  have hno : '=' ∉ pc := not_mem_parseInt hpc (by decide) (by decide)
  have hend : pc ≠ endGlobalTable := by
    rintro rfl
    exact hno (by decide)
  intro h
  rw [initGlobals.decode, hdata] at h
  by_cases hstart : fileName = startGlobalTable
  · -- the line number would be an element of the table
    obtain ⟨n, hn⟩ : ∃ n, countGlobals true (fileName :: pc :: rest) = n+1 :=
      ⟨_, Nat.add_comm _ _⟩
    simp only [hn] at h
    obtain ⟨⟨v, rest'⟩, hv, -⟩ := bind_eq_ok.mp h
    obtain ⟨first, -, hv⟩ := bind_eq_ok.mp hv
    rw [if_pos hstart] at hv
    obtain ⟨ahead, -, hv⟩ := bind_eq_ok.mp hv
    obtain ⟨name, -, hv⟩ := bind_eq_ok.mp hv
    obtain ⟨array, harray, -⟩ := bind_eq_ok.mp hv
    rw [tableElements, if_neg hend] at harray
    obtain ⟨e, he, -⟩ := bind_eq_ok.mp harray
    exact tableElement_ne_ok hno e he
  · -- the line number is counted as the second global
    obtain ⟨n, hn⟩ : ∃ n, countGlobals true (fileName :: pc :: rest) = n+1+1 := by
      simp only [countGlobals, if_neg hstart, ite_self, if_true]
      exact ⟨countGlobals (if pc = startGlobalTable then false else true) rest, by omega⟩
    simp only [hn] at h
    obtain ⟨⟨v, rest'⟩, hv, h⟩ := bind_eq_ok.mp h
    obtain ⟨first, -, hv⟩ := bind_eq_ok.mp hv
    rw [if_neg hstart] at hv
    obtain ⟨val, -, hv⟩ := bind_eq_ok.mp hv
    obtain ⟨-, rfl⟩ := Prod.mk.inj (Except.ok.inj hv)
    obtain ⟨vs', hvs, -⟩ := bind_eq_ok.mp h
    obtain ⟨x, hx, -⟩ := bind_eq_ok.mp hvs
    exact globalVar_ne_ok hno rest x hx

/-- A frame whose request for the globals fails is not made. -/
theorem init_failed (f : Failure) (id : ℕ) (data : Text) (frame : PDAStackFrame) :
    PDAStackFrame.init lastSegment (initGlobals f.reply) id data ≠ .ok frame := by
  intro h
  obtain ⟨fileName, h0, h⟩ := bind_eq_ok.mp h
  obtain ⟨pc, h1, h⟩ := bind_eq_ok.mp h
  obtain ⟨fPC, hpc, h⟩ := bind_eq_ok.mp h
  obtain ⟨fName, -, h⟩ := bind_eq_ok.mp h
  obtain ⟨globalVars, hg, -⟩ := bind_eq_ok.mp h
  cases f with
  -- a reply of null goes into `split`, which throws before any variable is made
  | endOfStream => cases hg
  -- the failed request is caught, and the data of the frame itself are decoded as globals
  | ioException =>
    obtain ⟨vs, hvs, -⟩ := bind_eq_ok.mp hg
    have hparse : parseInt pc = some fPC := parseIntOrThrow_eq_ok.mp hpc
    rw [arrayAt_eq_ok] at h0 h1
    obtain ⟨s, rest, hs⟩ : ∃ s rest, split '|' data = s :: rest := by
      cases hs : split '|' data with
      | nil => simp [hs] at h0
      | cons s rest => exact ⟨s, rest, rfl⟩
    cases rest with
    | nil => simp [hs] at h1
    | cons t rest =>
      obtain rfl : t = pc := by simpa [hs] using h1
      exact decode_frameData hs hparse vs hvs

/-- All frames of a call stack have to be made. -/
theorem init_of_frameLoop {globals : ℕ → Text → Except JavaError (List Variable)}
    {datas : List Text} {frames : List PDAStackFrame}
    (h : frameLoop lastSegment globals datas = .ok frames) (front : List Text) (data : Text)
    (rest : List Text) (hd : datas = front ++ data :: rest) :
    ∃ frame, PDAStackFrame.init lastSegment (globals rest.length) rest.length data = .ok frame := by
  induction front generalizing datas frames with
  | nil =>
    subst hd
    obtain ⟨frame, hframe, -⟩ := bind_eq_ok.mp h
    exact ⟨frame, hframe⟩
  | cons d front ih =>
    subst hd
    obtain ⟨_, -, h⟩ := bind_eq_ok.mp h
    obtain ⟨frames', hrest, -⟩ := bind_eq_ok.mp h
    exact ih hrest rfl

/-- When a request for globals is the one that fails, `getStackFrames` throws, and not a
`DebugException`. -/
theorem getStackFramesOver_failed (answers : ℕ → Text) (k : ℕ) (f : Failure) (hk : 0 < k)
    (hn : k ≤ frameCount (.line (answers 0))) :
    ∃ e, getStackFramesOver lastSegment (replyAt answers k f) = .error e ∧ e ≠ .debugException := by
  have hreply : replyAt answers k f 0 = .line (answers 0) := by rw [replyAt, if_pos hk]
  set globals : ℕ → Text → Except JavaError (List Variable) := fun id data =>
    initGlobals (replyAt answers k f (frameCount (.line (answers 0)) - id)) data with hglobals
  have hover : getStackFramesOver lastSegment (replyAt answers k f) =
      (frameLoop lastSegment globals (split '#' (answers 0))).map List.reverse := by
    rw [getStackFramesOver, hreply, getStackFrames]
    rfl
  -- the frame whose globals are the failed reply is built from a piece of the first one
  have hfail : ∀ frames, frameLoop lastSegment globals (split '#' (answers 0)) ≠ .ok frames := by
    intro frames hframes
    simp only [frameCount] at hn
    have hlt : k - 1 < (split '#' (answers 0)).length := by omega
    have hcut : split '#' (answers 0) = (split '#' (answers 0)).take (k-1) ++
        (split '#' (answers 0))[k-1] :: (split '#' (answers 0)).drop (k-1+1) := by
      rw [← List.drop_eq_getElem_cons hlt, List.take_append_drop]
    obtain ⟨frame, hframe⟩ := init_of_frameLoop lastSegment hframes _ _ _ hcut
    have hlen : ((split '#' (answers 0)).drop (k-1+1)).length =
        (split '#' (answers 0)).length - k := by
      rw [List.length_drop]
      omega
    -- the loop runs from the last piece, so this piece is the one for reply `k`
    have hindex : frameCount (.line (answers 0)) - ((split '#' (answers 0)).length - k) = k := by
      simp only [frameCount]
      omega
    rw [hlen, hglobals] at hframe
    simp only [hindex, replyAt, lt_irrefl, if_false] at hframe
    exact init_failed lastSegment f _ _ frame hframe
  -- and the constructor throws no checked exception
  have hun : Unchecked (frameLoop lastSegment globals (split '#' (answers 0))) :=
    unchecked_frameLoop lastSegment (fun _ _ => unchecked_initGlobals _ _) _
  rcases hloop : frameLoop lastSegment globals (split '#' (answers 0)) with e | frames
  · rw [hover, hloop]
    exact ⟨e, rfl, fun he => hun (by rw [hloop, he])⟩
  · exact absurd hloop (hfail frames)

/-- When a failing query of the model is harmless: its first request is the one that fails,
and where the answer is used without a look at null, it fails with an exception. -/
def ModelQuery.toleratesFailure (k : ℕ) (f : Failure) : ModelQuery → Prop
  | stackFrames | dataStack => k = 0
  | value _ _ | targetGlobals => k = 0 ∧ f = .ioException

theorem orderly_error {α : Type} {wellFormed : α → Prop} {result : Except JavaError α}
    {e : JavaError} (h : result = .error e) :
    Orderly wellFormed result ↔ e = .debugException := by
  rw [h, Orderly]

/-- A query that comes to the failing request ends orderly if and only if it tolerates the
failure. -/
theorem failsCleanly_iff (answers : ℕ → Text) (k : ℕ) (f : Failure) (q : ModelQuery)
    (hk : k < q.requests answers) :
    q.FailsCleanly lastSegment answers k f ↔ q.toleratesFailure k f := by
  have hfirst (hz : k = 0) : replyAt answers k f 0 = f.reply := by simp [replyAt, hz]
  cases q with
  -- the first request fails cleanly or not at all; any later one is inside a constructor
  | stackFrames =>
    simp only [ModelQuery.requests] at hk
    rw [ModelQuery.FailsCleanly, ModelQuery.toleratesFailure]
    by_cases hz : k = 0
    · rw [getStackFramesOver, hfirst hz]
      cases f <;> simp [getStackFrames, Failure.reply, Orderly, hz]
    · obtain ⟨e, he, hne⟩ := getStackFramesOver_failed lastSegment answers k f
        (Nat.pos_of_ne_zero hz) (by omega)
      rw [orderly_error he]
      simp [hne, hz]
  -- a global or a table is not asked for, so there is one request at most
  | value v frame =>
    simp only [ModelQuery.requests] at hk
    have hasks : ¬ (v.global = true ∨ v.table = true) := by
      intro h
      rw [if_pos h] at hk
      omega
    rw [if_neg hasks] at hk
    simp only [not_or, Bool.not_eq_true] at hasks
    obtain rfl : k = 0 := by omega
    rw [ModelQuery.FailsCleanly, ModelQuery.toleratesFailure, hfirst rfl]
    cases f <;> simp [PDAVariable.getValue, hasks, Failure.reply, Orderly]
  | dataStack =>
    simp only [ModelQuery.requests] at hk
    obtain rfl : k = 0 := by omega
    rw [ModelQuery.FailsCleanly, ModelQuery.toleratesFailure, hfirst rfl]
    cases f <;> simp [PDADebugTarget.getDataStack, Failure.reply, Orderly]
  | targetGlobals =>
    simp only [ModelQuery.requests] at hk
    rw [ModelQuery.FailsCleanly, ModelQuery.toleratesFailure]
    by_cases hz : k = 0
    · rw [hfirst hz]
      cases f <;> simp [PDADebugTarget.getGlobals, Failure.reply, Orderly, hz]
    · -- the frame it makes for the variables asks for the globals once more
      obtain rfl : k = 1 := by omega
      have hreply : replyAt answers 1 f 0 = .line (answers 0) := rfl
      have hagain : replyAt answers 1 f 1 = f.reply := rfl
      rw [hreply, hagain, PDADebugTarget.getGlobals]
      rcases hinit : PDAStackFrame.init lastSegment (initGlobals f.reply) 0
          (txt "dummyfile|1|dummyfunctionname|dummyvarName") with e | frame
      · have hne : e ≠ .debugException := by
          rintro rfl
          exact unchecked_init lastSegment (unchecked_initGlobals f.reply) 0 _ hinit
        simp [Orderly, bind, Except.bind, hne]
      · exact absurd hinit (init_failed lastSegment f 0 _ frame)

/-- The connection that breaks at `stackforide`. -/
theorem failsCleanly_stackforide :
    ModelQuery.stackFrames.FailsCleanly some (fun _ => []) 0 .ioException :=
  (failsCleanly_iff some (fun _ => []) 0 .ioException .stackFrames (by decide)).mpr rfl

/-- The connection that breaks at `getglobals`: the data of the frame are read as globals. -/
theorem getglobals_failure_throws :
    ¬ ModelQuery.stackFrames.FailsCleanly some
      (fun _ => txt "a.lua|3|main|x|#") 1 .ioException := by
  have hthrows : getStackFramesOver some
      (replyAt (fun _ => txt "a.lua|3|main|x|#") 1 .ioException) =
        .error .arrayIndexOutOfBounds := by
    decide +kernel
  rw [ModelQuery.FailsCleanly, orderly_error hthrows]
  decide

end LuaIde
