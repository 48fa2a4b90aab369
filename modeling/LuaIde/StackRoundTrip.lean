import LuaIde.PdaDecoding
import LuaIde.StackTexts

/-! The call stack from ldb to the frames the IDE shows: the reply of `ideStackTrace` taken
apart by `PDAThread.getStackFrames`. -/
namespace LuaIde

open LineText DecimalText Delimited CheckedFold

variable (lastSegment : Text → Option Text) (globals : ℕ → List Variable) (L : LuaState)

/-- The line the IDE reads as the reply to `stackforide`, with arrays as long as needed. -/
def stackReply : Reply :=
  match ideStackTrace .unbounded L with
  | .ok str => .line (firstLine (str ++ ['\n']))
  | .error _ => .eof

/-- The frame that shows the level number `k`. -/
def frameOf (k : ℕ) (level : Level) : PDAStackFrame where
  fName := functionName level.getinfo
  fPC := level.getinfo.currentline
  fFileName := lastSegment level.getinfo.source
  fId := k
  vars := (listed L level).map PDAVariable.new ++ globals k

/-- The frames of all levels, the newest one first. -/
def framesOf : List PDAStackFrame := L.levels.mapIdx (frameOf lastSegment globals L)

/-- A level that comes through: its source names a file, its texts hold no separator, and
the last of them (a local, or the function name if there is none) is not empty. -/
def LevelReadable (level : Level) : Prop :=
  lastSegment level.getinfo.source ≠ none ∧ (∀ field ∈ levelFields L level, '|' ∉ field) ∧
    (levelFields L level).getLast? ≠ some []

/-- A stack whose frames come through: besides, no text holds a `#` or a line end. -/
def StackReadable : Prop :=
  ∀ level ∈ L.levels, LevelReadable lastSegment L level ∧
    ∀ field ∈ levelFields L level, '#' ∉ field ∧ OneLine field

theorem stackReply_eq : stackReply L = .line (firstLine (traceText L)) := by
  have h : ideStackTrace .unbounded L = .ok (traceText L) :=
    (ideStackTrace_eq_ok _ Buffers.inhabited_unbounded L _).mpr ⟨⟨fun _ _ => rfl, rfl⟩, rfl⟩
  simp only [stackReply, h, firstLine_newline]

/-- The text of a level up to its `#`. -/
def levelPiece (level : Level) : Text := terminated '|' (levelFields L level)

theorem traceText_eq : traceText L = terminated '#' (L.levels.reverse.map (levelPiece L)) := by
  rw [traceText, terminated, List.flatMap_map]
  rfl

theorem levelFields_ne_nil (level : Level) : levelFields L level ≠ [] := by
  simp [levelFields]

theorem levelPiece_concat (level : Level) : ∃ s, levelPiece L level = s ++ ['|'] := by
  obtain ⟨fields, field, h⟩ := (List.eq_nil_or_concat' _).resolve_left (levelFields_ne_nil L level)
  exact ⟨terminated '|' fields ++ field, by simp [levelPiece, h, terminated_append]⟩

/-- A frame is made from four or more strings, or from three if it has no locals. -/
theorem init_eq_ok_iff_strings (gs : List Variable) (k : ℕ) (data : Text) (frame : PDAStackFrame) :
    PDAStackFrame.init lastSegment (fun _ => .ok gs) k data = .ok frame ↔
      ∃ fileName pc name rest, split '|' data = fileName :: pc :: name :: rest ∧
        ∃ segment i, lastSegment fileName = some segment ∧ parseInt pc = some i ∧
          frame = ⟨name, i, some segment, k, rest.map PDAVariable.new ++ gs⟩ := by
  simp only [PDAStackFrame.init, bind_eq_ok, arrayAt_eq_ok]
  constructor
  · rintro ⟨fileName, hfile, pc, hpc, i, hi, name, hname, gs', hgs, hframe⟩
    obtain rfl := Except.ok.inj hgs
    have hstrings : ∃ rest, split '|' data = fileName :: pc :: name :: rest := by
      rcases hs : split '|' data with _ | ⟨a, _ | ⟨b, _ | ⟨c, rest⟩⟩⟩
      · simp [hs] at hfile
      · simp [hs] at hpc
      · simp [hs] at hname
      · simp only [hs, List.getElem?_cons_zero, List.getElem?_cons_succ, Option.some.injEq]
          at hfile hpc hname
        exact ⟨rest, by rw [hfile, hpc, hname]⟩
    obtain ⟨rest, hstrings⟩ := hstrings
    have hparse : parseInt pc = some i := parseIntOrThrow_eq_ok.mp hi
    cases hseg : lastSegment fileName with
    | none => simp [hseg] at hframe
    | some segment =>
      rw [hseg] at hframe
      refine ⟨fileName, pc, name, rest, hstrings, segment, i, hseg, hparse, ?_⟩
      rw [← Except.ok.inj hframe, hstrings]
      rfl
  · rintro ⟨fileName, pc, name, rest, hstrings, segment, i, hseg, hparse, rfl⟩
    refine ⟨fileName, by simp [hstrings], pc, by simp [hstrings], i,
      parseIntOrThrow_eq_ok.mpr hparse, name, by simp [hstrings], gs, rfl, ?_⟩
    simp only [hseg, hstrings]
    rfl

theorem map_new_injective : Function.Injective (PDAVariable.new : Text → Variable) :=
  fun _ _ h => congrArg PDAVariable.fName h

/-- Reading one level back. The strings number as many as the fields, and the last ones
agree, so that no field was cut and none was dropped. -/
theorem init_eq_ok_iff (k : ℕ) (level : Level) :
    PDAStackFrame.init lastSegment (fun _ => .ok (globals k)) k (levelPiece L level) =
        .ok (frameOf lastSegment globals L k level) ↔ LevelReadable lastSegment L level := by
  obtain ⟨fields, field, hfields⟩ :=
    (List.eq_nil_or_concat' _).resolve_left (levelFields_ne_nil L level)
  have hlast : (levelFields L level).getLast? = some field := by
    rw [hfields, List.getLast?_concat]
  rw [init_eq_ok_iff_strings]
  constructor
  · rintro ⟨fileName, pc, name, rest, hstrings, segment, i, hseg, -, hframe⟩
    have hname : functionName level.getinfo = name := congrArg PDAStackFrame.fName hframe
    have hfile : lastSegment level.getinfo.source = some segment :=
      congrArg PDAStackFrame.fFileName hframe
    have hvars := congrArg PDAStackFrame.vars hframe
    have hrest : listed L level = rest :=
      map_new_injective.list_map (List.append_cancel_right hvars)
    -- the strings are the file name and the fields behind it, so they number as the fields do
    have hcut : split '|' (terminated '|' (fields ++ [field])) =
        fileName :: pc :: (levelFields L level).drop 2 := by
      rw [← hfields, ← levelPiece, hstrings, ← hname, ← hrest]
      rfl
    obtain ⟨hclean, hne⟩ := clean_of_split_terminated '|' fields field
      (by rw [hcut, ← hfields]; rfl)
      (by rw [hcut, ← hlast]; simp [levelFields])
    rw [← hfields] at hclean
    refine ⟨by simp [hfile], hclean, ?_⟩
    rw [hlast]
    simpa using hne
  · rintro ⟨hfile, hclean, hne⟩
    have hfield : field ≠ [] := by
      intro h
      exact hne (by rw [hlast, h])
    obtain ⟨segment, hsegment⟩ := Option.ne_none_iff_exists'.mp hfile
    have hcut : split '|' (levelPiece L level) = levelFields L level := by
      rw [levelPiece, hfields]
      exact split_terminated_last '|' fields field hfield (by rw [← hfields]; exact hclean)
    refine ⟨_, _, _, _, hcut, segment, _, hsegment, parseInt_ofInt _, ?_⟩
    rw [frameOf, hsegment]

theorem frameLoop_length {gs : ℕ → Text → Except JavaError (List Variable)} {pieces : List Text}
    {frames : List PDAStackFrame} (h : frameLoop lastSegment gs pieces = .ok frames) :
    frames.length = pieces.length := by
  induction pieces generalizing frames with
  | nil =>
    rw [frameLoop, Except.ok.injEq] at h
    rw [← h]
    rfl
  | cons piece pieces ih =>
    rw [frameLoop, bind_eq_ok] at h
    obtain ⟨frame, -, h⟩ := h
    obtain ⟨rest, hrest, h⟩ := bind_eq_ok.mp h
    rw [← Except.ok.inj h, List.length_cons, List.length_cons, ih hrest]

/-- The loop counts the frames down, so the levels are taken from their end. -/
theorem frameLoop_eq_ok_iff (levels : List Level) :
    frameLoop lastSegment (fun k _ => .ok (globals k)) (levels.reverse.map (levelPiece L)) =
        .ok (levels.mapIdx (frameOf lastSegment globals L)).reverse ↔
      ∀ level ∈ levels, LevelReadable lastSegment L level := by
  induction levels using List.reverseRecOn with
  | nil => simp [frameLoop]
  | append_singleton levels level ih =>
    -- the oldest level has the highest number and comes first
    have hstep : frameLoop lastSegment (fun k _ => .ok (globals k))
          ((levels ++ [level]).reverse.map (levelPiece L)) =
          .ok ((levels ++ [level]).mapIdx (frameOf lastSegment globals L)).reverse ↔
        PDAStackFrame.init lastSegment (fun _ => .ok (globals levels.length)) levels.length
            (levelPiece L level) = .ok (frameOf lastSegment globals L levels.length level) ∧
          frameLoop lastSegment (fun k _ => .ok (globals k)) (levels.reverse.map (levelPiece L)) =
            .ok (levels.mapIdx (frameOf lastSegment globals L)).reverse := by
      rw [List.reverse_append, List.reverse_singleton, List.singleton_append, List.map_cons,
        frameLoop, List.mapIdx_concat, List.reverse_append, List.reverse_singleton,
        List.singleton_append, List.length_map, List.length_reverse, bind_eq_ok]
      constructor
      · rintro ⟨frame, hframe, h⟩
        obtain ⟨rest, hrest, h⟩ := bind_eq_ok.mp h
        obtain ⟨rfl, rfl⟩ := List.cons.inj (Except.ok.inj h)
        exact ⟨hframe, hrest⟩
      · rintro ⟨hframe, hrest⟩
        exact ⟨_, hframe, bind_eq_ok.mpr ⟨_, hrest, rfl⟩⟩
    rw [hstep, ih, init_eq_ok_iff]
    simp only [List.forall_mem_append, List.forall_mem_singleton]
    exact And.comm

/-- The frames are those of the levels. -/
def FramesComeBack : Prop :=
  getStackFrames lastSegment (fun k _ => .ok (globals k)) (stackReply L) =
    .ok (framesOf lastSegment globals L)

theorem getStackFrames_eq_ok_iff :
    FramesComeBack lastSegment globals L ↔
      frameLoop lastSegment (fun k _ => .ok (globals k)) (split '#' (firstLine (traceText L))) =
        .ok (framesOf lastSegment globals L).reverse := by
  rw [FramesComeBack, stackReply_eq, getStackFrames, bind_eq_ok]
  constructor
  · rintro ⟨frames, hframes, h⟩
    rw [hframes, ← Except.ok.inj h, List.reverse_reverse]
  · intro h
    refine ⟨_, h, ?_⟩
    rw [List.reverse_reverse]
    rfl

/-- Every level without a `#` in its texts is one piece of the reply. -/
theorem split_traceText (h : ∀ level ∈ L.levels, '#' ∉ levelPiece L level) :
    split '#' (traceText L) = L.levels.reverse.map (levelPiece L) := by
  obtain ⟨s, hs⟩ := levelPiece_concat L (.lua L.hooked)
  rw [traceText_eq, LuaState.levels, List.reverse_cons, List.map_append, List.map_singleton]
  apply split_terminated_last
  · simp [hs]
  · intro piece hpiece
    rw [List.mem_append, List.mem_map, List.mem_singleton] at hpiece
    rcases hpiece with ⟨level, hlevel, rfl⟩ | rfl
    · exact h level (List.mem_cons_of_mem _ (List.mem_reverse.mp hlevel))
    · exact h _ List.mem_cons_self

theorem hash_mem_levelPiece (level : Level) :
    '#' ∉ levelPiece L level ↔ ∀ field ∈ levelFields L level, '#' ∉ field := by
  constructor
  · intro h field hfield hc
    exact h (mem_terminated_of_mem hfield hc)
  · intro h hc
    rcases mem_terminated hc with hc | ⟨field, hfield, hc⟩
    · exact absurd hc (by decide)
    · exact h field hfield hc

/-- Readable levels give the frames of the stack, and on one line nothing else does. -/
theorem stackFrames_come_back :
    (StackReadable lastSegment L → FramesComeBack lastSegment globals L) ∧
      (OneLine (traceText L) → FramesComeBack lastSegment globals L →
        StackReadable lastSegment L) := by
  rw [getStackFrames_eq_ok_iff]
  constructor
  · intro h
    have hline : OneLine (traceText L) :=
      (oneLine_traceText L).mpr (fun level hl field hf => ((h level hl).2 field hf).2)
    have hhash : ∀ level ∈ L.levels, '#' ∉ levelPiece L level := fun level hl =>
      (hash_mem_levelPiece L level).mpr (fun field hf => ((h level hl).2 field hf).1)
    have hsplit := split_traceText L hhash
    rw [firstLine_eq_self hline, hsplit]
    exact (frameLoop_eq_ok_iff lastSegment globals L L.levels).mpr (fun level hl => (h level hl).1)
  · intro hline h
    rw [firstLine_eq_self hline] at h
    -- there are as many pieces as levels, so no text of a level holds a `#`
    have hlen := frameLoop_length lastSegment h
    obtain ⟨s, hs⟩ := levelPiece_concat L (.lua L.hooked)
    have hpieces : L.levels.reverse.map (levelPiece L) =
        L.callers.reverse.map (levelPiece L) ++ [s ++ ['|']] := by
      rw [LuaState.levels, List.reverse_cons, List.map_append, List.map_singleton, hs]
    have hhash : ∀ level ∈ L.levels, '#' ∉ levelPiece L level := by
      have hall := not_mem_of_length_split '#' '|' (L.callers.reverse.map (levelPiece L)) s
        (by decide) (by rw [← hpieces, ← traceText_eq, ← hlen]; simp [framesOf])
      rw [← hpieces] at hall
      intro level hl
      exact hall _ (List.mem_map_of_mem (List.mem_reverse.mpr hl))
    rw [split_traceText L hhash] at h
    have hlevels := (frameLoop_eq_ok_iff lastSegment globals L L.levels).mp h
    intro level hl
    refine ⟨hlevels level hl, fun field hf => ⟨?_, ?_⟩⟩
    · exact (hash_mem_levelPiece L level).mp (hhash level hl) field hf
    · exact (oneLine_traceText L).mp hline level hl field hf

/-- `Path.lastSegment`, for paths without a device. -/
def lastName (path : Text) : Option Text := (words '/' path).getLast?

/-- The function `f` with a local, called by its main chunk. -/
def calledOnce : LuaState :=
  let main := LuaState.mainChunk (txt "@lua/a.lua") 5
  { main with
    hooked :=
      { main.hooked with
        currentline := 2
        linedefined := 1
        called := some (txt "f", txt "global")
        active := [(txt "n", .string (txt "arg"))] }
    callers := [.lua main.hooked] }

theorem calledOnce_comes_back : FramesComeBack lastName (fun _ => []) calledOnce := by
  apply (stackFrames_come_back lastName (fun _ => []) calledOnce).1
  intro level hlevel
  have hlevels : calledOnce.levels = [.lua calledOnce.hooked] ++ calledOnce.callers := rfl
  rw [hlevels, List.mem_append, List.mem_singleton, calledOnce, List.mem_singleton] at hlevel
  rcases hlevel with rfl | rfl
  · exact ⟨⟨by decide, by decide +kernel, by decide +kernel⟩, by decide +kernel⟩
  · exact ⟨⟨by decide, by decide +kernel, by decide +kernel⟩, by decide +kernel⟩

/-- A line end in a chunk name can hide behind a text that reads the same. -/
example : FramesComeBack (fun _ => some (txt "x")) (fun _ => [])
    (LuaState.mainChunk (txt "x|5|main\n/x") 5) := by
  unfold FramesComeBack
  decide +kernel

/-- A main chunk that was left by a tail call to the function stopped in. -/
def tailCalled : LuaState :=
  { LuaState.mainChunk (txt "@a.lua") 5 with callers := [.tail, .c none []] }

/-- The lost tail call has no name and no locals, and its third string is missing. -/
theorem tailCalled_throws :
    getStackFrames some (fun _ _ => .ok []) (stackReply tailCalled) =
      .error .arrayIndexOutOfBounds := by
  decide +kernel

end LuaIde
