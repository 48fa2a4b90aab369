import LuaIde.CodeRun
import LuaIde.LuaChunk

/-! A dumped function comes back from `luaU_undump`, whatever pieces the reader gives it in, and
a chunk that ends early is refused. -/
namespace LuaIde

open LineText DecimalText Decoding

/-! ### Numbers in memory -/

theorem byte_toNat (n : ℕ) : (byte n).toNat = n % 256 := by
  have hlt : n % 256 < 256 := Nat.mod_lt _ (by decide)
  have hvalid : (n % 256).isValidChar := by
    left
    omega
  rw [byte, Char.ofNat, dif_pos hvalid]
  rfl

theorem bytesOf_length (size n : ℕ) : (bytesOf size n).length = size := by
  simp [bytesOf]

theorem ofBytes_bytesOf (size n : ℕ) : ofBytes (bytesOf size n) = n % 256 ^ size := by
  induction size generalizing n with
  | zero => simp [bytesOf, ofBytes, Nat.mod_one]
  | succ size ih =>
    have hcons : bytesOf (size+1) n = byte n :: bytesOf size (n / 256) := by
      rw [bytesOf, List.range_succ_eq_map, List.map_cons, List.map_map, bytesOf]
      simp [Function.comp_def, Nat.pow_succ', Nat.div_div_eq_div_mul]
    have hfold : ofBytes (bytesOf (size+1) n) =
        n % 256 + 256 * ofBytes (bytesOf size (n / 256)) := by
      rw [hcons, ofBytes, List.foldr_cons, byte_toNat]
      rfl
    rw [hfold, ih, Nat.pow_succ', Nat.mod_mul]

theorem signed32_bytesOf (x : CInt) : signed32 (bytesOf 4 (x.val % 2 ^ 32).toNat) = x.val := by
  have hl := x.lower
  have hu := x.upper
  simp only [signed32, ofBytes_bytesOf]
  split_ifs <;> omega

/-! ### Blocks -/

variable {name : Text}

/-- The error where a chunk ends early. -/
def unexpectedEnd (name : Text) : Text := chunkError name (txt "unexpected end")

/-- `m` loads `a` from the bytes. -/
abbrev Loads {α : Type} (name : Text) (m : Load α) (bytes : Text) (a : α) : Prop :=
  Decodes Zio.content (unexpectedEnd name) m bytes a

theorem loads_block (b : Text) : Loads name (LoadBlock name b.length) b b where
  reads := by
    intro z rest h
    obtain ⟨h1, h2, h3⟩ := Zio.readLoop_eq b.length b.length z (le_refl _)
    rw [h] at h1 h2 h3
    simp only [List.take_left, List.drop_left, List.length_append] at h1 h2 h3
    have hmissing : ¬ (z.luaZ_read b.length).2.1 ≠ 0 := by
      rw [Zio.luaZ_read, h2]
      omega
    refine ⟨(z.luaZ_read b.length).2.2, ?_, h3 (by omega)⟩
    calc
      LoadBlock name b.length z = .ok ((z.luaZ_read b.length).1, (z.luaZ_read b.length).2.2) :=
        if_neg hmissing
      _ = .ok (b, (z.luaZ_read b.length).2.2) := by rw [Zio.luaZ_read, h1]
  needs := by
    intro z more h hmore
    obtain ⟨-, h2, -⟩ := Zio.readLoop_eq b.length b.length z (le_refl _)
    have hlen := congrArg List.length h
    have hpos := List.length_pos_of_ne_nil hmore
    rw [List.length_append] at hlen
    have hmissing : (z.luaZ_read b.length).2.1 ≠ 0 := by
      rw [Zio.luaZ_read, h2]
      omega
    exact if_pos hmissing

theorem loads_block_of_length {b : Text} {size : ℕ} (h : b.length = size) :
    Loads name (LoadBlock name size) b b :=
  h ▸ loads_block b

theorem loads_int {x : ℕ} (h : x < 2 ^ 31) :
    Loads name (LoadInt name) (DumpInt x).flatten x := by
  have hval : signed32 (bytesOf 4 ((x : ℤ) % 2 ^ 32).toNat) = x :=
    signed32_bytesOf ⟨x, by omega, by omega⟩
  have hload : Loads name (LoadInt name) (bytesOf 4 ((x : ℤ) % 2 ^ 32).toNat ++ []) x := by
    apply (loads_block_of_length (bytesOf_length 4 _)).bind
    dsimp only
    rw [hval, if_neg (by omega)]
    exact Decodes.pure x
  exact hload

theorem loads_char {x : ℕ} (h : x < 256) :
    Loads name (LoadChar name) (DumpChar x).flatten (if x < 128 then (x : ℤ) else (x : ℤ)-256) := by
  have hval : ofBytes [byte x] % 256 = x := by
    simp only [ofBytes, List.foldr_cons, List.foldr_nil, byte_toNat]
    omega
  apply (loads_block_of_length (b := [byte x]) rfl).bind
  dsimp only
  rw [hval]
  exact Decodes.pure _

theorem loads_byte {x : ℕ} (h : x < 256) : Loads name (LoadByte name) (DumpChar x).flatten x := by
  have hval : ((if x < 128 then (x : ℤ) else (x : ℤ)-256) % 256).toNat = x := by
    split_ifs <;> omega
  have hchar : Loads name (LoadChar name) (DumpChar x).flatten
      (if x < 128 then (x : ℤ) else (x : ℤ)-256) := loads_char h
  have hload : Loads name (LoadByte name) (DumpChar x).flatten
      ((if x < 128 then (x : ℤ) else (x : ℤ)-256) % 256).toNat := hchar.map
  rwa [hval] at hload

theorem loads_number (x : BitVec 64) :
    Loads name (LoadNumber name) (DumpNumber x).flatten x := by
  have hval : BitVec.ofNat 64 (ofBytes (bytesOf 8 x.toNat)) = x := by
    have hlt : x.toNat < 256 ^ 8 := x.isLt
    rw [ofBytes_bytesOf, Nat.mod_eq_of_lt hlt, BitVec.ofNat_toNat, BitVec.setWidth_eq]
  apply (loads_block_of_length (bytesOf_length 8 x.toNat)).bind
  rw [hval]
  exact Decodes.pure _

theorem loads_string {s : Option Text} (h : ∀ t, s = some t → t.length+1 < 2 ^ 32) :
    Loads name (LoadString name) (DumpString s).flatten s := by
  cases s with
  | none =>
    have hzero : ofBytes (bytesOf 4 0) = 0 := ofBytes_bytesOf 4 0
    apply (loads_block_of_length (bytesOf_length 4 0)).bind
    dsimp only
    rw [if_pos hzero]
    exact Decodes.pure none
  | some t =>
    have hsize : ofBytes (bytesOf 4 (t.length+1)) = t.length+1 := by
      rw [ofBytes_bytesOf]
      exact Nat.mod_eq_of_lt (h t rfl)
    apply (loads_block_of_length (bytesOf_length 4 (t.length+1))).bind
    dsimp only
    rw [hsize, if_neg (by omega)]
    have hbytes : Loads name (LoadBlock name (t.length+1)) (t ++ ['\x00']) (t ++ ['\x00']) :=
      loads_block_of_length (by simp)
    have hblock : Loads name
        (do let s ← LoadBlock name (t.length+1); pure (some (s.take (t.length+1-1))))
        (t ++ ['\x00']) (some ((t ++ ['\x00']).take (t.length+1-1))) := hbytes.map
    simpa only [List.flatten_cons, List.flatten_nil, List.append_nil, Nat.add_sub_cancel,
      List.take_left] using hblock

/-- The words of a vector are four bytes each. -/
theorem take_words {ws : List Text} (h : ∀ w ∈ ws, w.length = 4) :
    (List.range ws.length).map (fun i => (ws.flatten.drop (4 * i)).take 4) = ws := by
  induction ws with
  | nil => rfl
  | cons w ws ih =>
    have hw : w.length = 4 := h w List.mem_cons_self
    have hdrop (i : ℕ) : (w ++ ws.flatten).drop (4 * (i+1)) = ws.flatten.drop (4 * i) := by
      rw [List.drop_append, hw, List.drop_of_length_le (by omega), List.nil_append]
      congr 1
    rw [List.length_cons, List.range_succ_eq_map, List.map_cons, List.map_map, List.flatten_cons]
    simp only [Function.comp_def, Nat.succ_eq_add_one, hdrop]
    rw [ih (fun v hv => h v (List.mem_cons_of_mem w hv)), Nat.mul_zero, List.drop_zero,
      List.take_left' hw]

theorem loads_vector {α : Type} {word : Text → α} {xs : List α} {enc : α → Text}
    (henc : ∀ x ∈ xs, word (enc x) = x) (hlen : ∀ x, (enc x).length = 4)
    (h : xs.length < 2 ^ 31) :
    Loads name (LoadVector name word) (DumpVector (xs.map enc)).flatten xs := by
  have hwords : ∀ w ∈ xs.map enc, w.length = 4 := by
    intro w hw
    obtain ⟨x, -, rfl⟩ := List.mem_map.mp hw
    exact hlen x
  have hbytes : (xs.map enc).flatten.length = xs.length * 4 := by
    rw [List.length_flatten,
      List.eq_replicate_of_mem (a := 4) (l := ((xs.map enc).map List.length))]
    · simp
    · intro n hn
      obtain ⟨w, hw, rfl⟩ := List.mem_map.mp hn
      exact hwords w hw
  have hresult : (List.range xs.length).map
      (fun i => word (((xs.map enc).flatten.drop (4 * i)).take 4)) = xs := by
    have htake := take_words hwords
    rw [List.length_map] at htake
    calc
      _ = ((List.range xs.length).map
          (fun i => ((xs.map enc).flatten.drop (4 * i)).take 4)).map word := by
        rw [List.map_map]
        rfl
      _ = xs.map (fun x => word (enc x)) := by rw [htake, List.map_map]; rfl
      _ = xs := by
        rw [List.map_congr_left henc]
        exact List.map_id' xs
  rw [DumpVector, List.length_map, List.flatten_append]
  apply (loads_int h).bind
  apply (loads_block_of_length hbytes).bind
  rw [hresult]
  exact Decodes.pure xs

theorem loads_code {code : List Instruction} (h : code.length < 2 ^ 31) :
    Loads name (LoadCode name) (DumpCode code).flatten code := by
  apply loads_vector _ _ h
  · intro i _
    have hlt : i.toNat < 256 ^ 4 := i.isLt
    rw [ofBytes_bytesOf, Nat.mod_eq_of_lt hlt, BitVec.ofNat_toNat, BitVec.setWidth_eq]
  · intro i
    exact bytesOf_length 4 _

theorem loads_lineinfo (lineinfo : List CInt) (h : lineinfo.length < 2 ^ 31) :
    Loads name (LoadVector name (fun b => saturate (signed32 b)))
      (DumpVector (lineinfo.map (fun line => bytesOf 4 (line.val % 2 ^ 32).toNat))).flatten
      lineinfo := by
  apply loads_vector _ _ h
  · intro line _
    rw [signed32_bytesOf, saturate_val]
  · intro line
    exact bytesOf_length 4 _

/-- A string whose size fits into a `size_t`. -/
def StringFits (s : Option Text) : Prop := ∀ t, s = some t → t.length+1 < 2 ^ 32

theorem loads_tag {t : ℕ} (h : t < 128) : Loads name (LoadChar name) (DumpChar t).flatten t := by
  have hload : Loads name (LoadChar name) (DumpChar t).flatten
      (if t < 128 then (t : ℤ) else (t : ℤ)-256) := loads_char (by omega)
  rwa [if_pos h] at hload

theorem loads_constant {c : Constant} (h : ∀ s, c = .string s → StringFits s) :
    Loads name (LoadConstant name) (DumpConstant c).flatten c := by
  cases c with
  | nil =>
    rw [DumpConstant, ← List.append_nil (DumpChar LUA_TNIL).flatten]
    apply (loads_tag (by decide)).bind
    rw [if_pos rfl]
    exact Decodes.pure _
  | boolean b =>
    rw [DumpConstant, List.flatten_append]
    apply (loads_tag (by decide)).bind
    rw [if_neg (by decide), if_pos rfl]
    have hval : BitVec.ofNat 8 ((if b.toNat < 128 then (b.toNat : ℤ) else (b.toNat : ℤ)-256) %
        256).toNat = b := by
      have hlt : b.toNat < 256 := b.isLt
      have hn : ((if b.toNat < 128 then (b.toNat : ℤ) else (b.toNat : ℤ)-256) % 256).toNat =
          b.toNat := by
        split_ifs <;> omega
      rw [hn, BitVec.ofNat_toNat, BitVec.setWidth_eq]
    have hchar : Loads name (LoadChar name) _ _ := loads_char b.isLt
    have hload := hchar.map
      (f := fun b => Constant.boolean (BitVec.ofNat 8 (b % 256).toNat))
    rwa [hval] at hload
  | number n =>
    rw [DumpConstant, List.flatten_append]
    apply (loads_tag (by decide)).bind
    rw [if_neg (by decide), if_neg (by decide), if_pos rfl]
    exact (loads_number n).map
  | string s =>
    rw [DumpConstant, List.flatten_append]
    apply (loads_tag (by decide)).bind
    rw [if_neg (by decide), if_neg (by decide), if_neg (by decide), if_pos rfl]
    exact (loads_string (h s rfl)).map

theorem loads_locVar {v : LocVar} (hname : StringFits v.varname) (hstart : v.startpc < 2 ^ 31)
    (hend : v.endpc < 2 ^ 31) : Loads name (LoadLocVar name) (DumpLocVar v).flatten v := by
  rw [DumpLocVar, List.flatten_append, List.flatten_append]
  apply (loads_string hname).bind
  apply (loads_int hstart).bind
  exact (loads_int hend).map

/-! ### Functions -/

mutual

/-- The numbers of a function fit into the chunk, and its code is what the checker accepts. -/
def Dumpable : Proto → Prop
  | ⟨k, code, protos, lineinfo, locvars, upvalues, source, linedefined, lastlinedefined, nups,
      numparams, is_vararg, maxstacksize⟩ =>
    luaG_checkcode ⟨k, code, protos, lineinfo, locvars, upvalues, source, linedefined,
        lastlinedefined, nups, numparams, is_vararg, maxstacksize⟩ = true ∧
      StringFits (some source) ∧
      (linedefined < 2 ^ 31 ∧ lastlinedefined < 2 ^ 31) ∧
      (nups < 256 ∧ numparams < 256 ∧ is_vararg < 256 ∧ maxstacksize < 256) ∧
      (code.length < 2 ^ 31 ∧ k.length < 2 ^ 31 ∧ protos.length < 2 ^ 31 ∧
        lineinfo.length < 2 ^ 31 ∧ locvars.length < 2 ^ 31 ∧ upvalues.length < 2 ^ 31) ∧
      (∀ s, Constant.string s ∈ k → StringFits s) ∧
      (∀ v ∈ locvars, StringFits v.varname ∧ v.startpc < 2 ^ 31 ∧ v.endpc < 2 ^ 31) ∧
      (∀ u ∈ upvalues, StringFits u) ∧ AllDumpable protos

def AllDumpable : List Proto → Prop
  | [] => True
  | f :: fs => Dumpable f ∧ AllDumpable fs

end

mutual

/-- What is loaded from a dump: all of the function, or without its debug information. `p` is
the source of the function around it. -/
def loaded (strip : Bool) (p : Text) : Proto → Proto
  | ⟨k, code, protos, lineinfo, locvars, upvalues, source, linedefined, lastlinedefined, nups,
      numparams, is_vararg, maxstacksize⟩ =>
    let source := if strip then p else source
    { k := k, code := code, p := allLoaded strip source protos
      lineinfo := if strip then [] else lineinfo
      locvars := if strip then [] else locvars
      upvalues := if strip then [] else upvalues
      source := source, linedefined := linedefined, lastlinedefined := lastlinedefined
      nups := nups, numparams := numparams, is_vararg := is_vararg
      maxstacksize := maxstacksize }

def allLoaded (strip : Bool) (source : Text) : List Proto → List Proto
  | [] => []
  | f :: fs => loaded strip source f :: allLoaded strip source fs

end

mutual

/-- How deep functions are nested. -/
def nesting : Proto → ℕ
  | ⟨_, _, protos, _, _, _, _, _, _, _, _, _, _⟩ => allNesting protos+1

def allNesting : List Proto → ℕ
  | [] => 0
  | f :: fs => max (nesting f) (allNesting fs)

end

mutual

theorem loaded_all (p : Text) : (f : Proto) → loaded false p f = f
  | ⟨k, code, protos, lineinfo, locvars, upvalues, source, linedefined, lastlinedefined, nups,
      numparams, is_vararg, maxstacksize⟩ => by
    simp only [loaded, Bool.false_eq_true, if_false, allLoaded_all source protos]

theorem allLoaded_all (source : Text) : (fs : List Proto) → allLoaded false source fs = fs
  | [] => rfl
  | f :: fs => by rw [allLoaded, loaded_all source f, allLoaded_all source fs]

end

theorem loaded_nups (strip : Bool) (p : Text) (f : Proto) :
    (loaded strip p f).nups = f.nups := by
  cases f
  rfl

theorem getElem?_allLoaded (strip : Bool) (source : Text) (fs : List Proto) (n : ℕ) :
    (allLoaded strip source fs)[n]? = (fs[n]?).map (loaded strip source) := by
  induction fs generalizing n with
  | nil => rfl
  | cons f fs ih =>
    cases n with
    | zero => rfl
    | succ n => simpa [allLoaded] using ih n

/-- The checker does not look at what `strip` leaves out. -/
theorem symbStep_loaded (strip : Bool) (p : Text) (f : Proto) (lastpc reg pc last : ℕ) :
    symbStep (loaded strip p f) lastpc reg pc last = symbStep f lastpc reg pc last := by
  have hop (i : Instruction) (op : OpCode) (last : ℕ) :
      checkOp (loaded strip p f) lastpc reg pc last i op = checkOp f lastpc reg pc last i op := by
    cases op with
    | OP_CLOSURE =>
      have hp : (loaded strip p f).p = allLoaded strip (if strip then p else f.source) f.p := by
        cases f
        rfl
      simp only [checkOp, hp, getElem?_allLoaded]
      cases f.p[GETARG_Bx i]? with
      | none => rfl
      | some g =>
        simp only [Option.map_some, Option.bind_eq_bind, Option.bind_some, loaded_nups]
        cases f
        rfl
    | _ =>
      cases f
      rfl
  simp only [symbStep, hop]
  cases f
  rfl

theorem symbLoop_loaded (strip : Bool) (p : Text) (f : Proto) (lastpc reg fuel pc last : ℕ) :
    symbLoop (loaded strip p f) lastpc reg fuel pc last = symbLoop f lastpc reg fuel pc last := by
  induction fuel generalizing pc last with
  | zero => rfl
  | succ fuel ih => simp only [symbLoop, symbStep_loaded, ih]

theorem checkcode_loaded {f : Proto} (h : luaG_checkcode f = true) (strip : Bool) (p : Text) :
    luaG_checkcode (loaded strip p f) = true := by
  have hcode : (loaded strip p f).code = f.code := by
    cases f
    rfl
  have hpre (hf : precheck f = true) : precheck (loaded strip p f) = true := by
    cases f
    cases strip with
    | false => exact hf
    | true =>
      simp only [precheck, decide_eq_true_eq] at hf
      simpa [precheck, loaded] using ⟨hf.1, hf.2.2.2⟩
  obtain ⟨hf, hloop⟩ := (luaG_checkcode_iff f).mp h
  rw [luaG_checkcode_iff, hcode]
  simp only [symbLoop_loaded]
  exact ⟨hpre hf, hloop⟩

theorem flatten_flatMap {α : Type} (xs : List α) (dump : α → List Text) :
    (xs.flatMap dump).flatten = xs.flatMap (fun x => (dump x).flatten) := by
  induction xs with
  | nil => rfl
  | cons x xs ih => rw [List.flatMap_cons, List.flatten_append, ih, List.flatMap_cons]

/-- A vector with its length in front. -/
theorem loads_times {α : Type} {m : Load α} (xs : List α) {dump : α → List Text}
    (h : ∀ x ∈ xs, Loads name m (dump x).flatten x) :
    Loads name (times m xs.length) (xs.flatMap dump).flatten xs := by
  have hload := Decodes.times (fun x => x) h
  rw [List.map_id'] at hload
  rwa [flatten_flatMap]

mutual

/-- The bytes of a function are loaded to what `strip` leaves of it. -/
theorem loads_function (strip : Bool) (parent : Option Text) (p : Text)
    (hp : strip = false → ∀ q, parent = some q → p = q) (depth : ℕ) :
    (f : Proto) → Dumpable f → nesting f ≤ depth →
      Loads name (LoadFunction name depth p) (DumpFunction strip parent f).flatten
        (loaded strip p f)
  | ⟨k, code, protos, lineinfo, locvars, upvalues, source, linedefined, lastlinedefined, nups,
      numparams, is_vararg, maxstacksize⟩, hf, hdepth => by
    obtain ⟨hcheck, hsource, ⟨hline, hlast⟩, ⟨hnups, hparams, hvararg, hstack⟩,
      ⟨hcode, hk, hprotos, hinfo, hlocs, hups⟩, hstrings, hlocvars, hupvalues, hnested⟩ := hf
    rw [nesting] at hdepth
    obtain ⟨d, rfl⟩ : ∃ d, depth = d+1 := ⟨depth-1, by omega⟩
    -- a source that is left out is the one of the function around
    have hgetD : ((if some source = parent ∨ strip = true then none else some source).getD p) =
        if strip then p else source := by
      cases strip with
      | true => simp
      | false =>
        by_cases hsame : some source = parent
        · rw [if_pos (.inl hsame)]
          exact hp rfl source hsame.symm
        · simp [hsame]
    have hchecked := checkcode_loaded hcheck strip p
    simp only [loaded] at hchecked
    have hempty : (DumpFunction strip parent ⟨k, code, protos, lineinfo, locvars, upvalues, source,
        linedefined, lastlinedefined, nups, numparams, is_vararg, maxstacksize⟩).flatten =
        (DumpFunction strip parent ⟨k, code, protos, lineinfo, locvars, upvalues, source,
          linedefined, lastlinedefined, nups, numparams, is_vararg, maxstacksize⟩).flatten ++ [] :=
      (List.append_nil _).symm
    rw [hempty]
    simp only [DumpFunction, DumpDebug, List.flatten_append, List.append_assoc]
    apply (loads_string (s := if some source = parent ∨ strip = true then none else some source)
      _).bind
    · rw [hgetD]
      apply (loads_int hline).bind
      apply (loads_int hlast).bind
      apply (loads_byte hnups).bind
      apply (loads_byte hparams).bind
      apply (loads_byte hvararg).bind
      apply (loads_byte hstack).bind
      apply (loads_code hcode).bind
      apply (loads_int hk).bind
      apply (loads_times k (fun c hc => loads_constant (fun s hs => hstrings s (hs ▸ hc)))).bind
      apply (loads_int hprotos).bind
      apply (loads_functions strip source (if strip then p else source) (by
        intro hs
        rw [hs]
        rfl) d protos hnested (by omega)).bind
      apply (loads_lineinfo (if strip then [] else lineinfo) (by
        split_ifs
        · decide
        · exact hinfo)).bind
      apply (loads_int (x := (if strip then [] else locvars).length) (by
        split_ifs
        · decide
        · exact hlocs)).bind
      apply (loads_times (if strip then [] else locvars) _).bind
      · apply (loads_int (x := (if strip then [] else upvalues).length) (by
          split_ifs
          · decide
          · exact hups)).bind
        apply (loads_times (if strip then [] else upvalues) _).bind
        · rw [if_pos hchecked]
          exact Decodes.pure _
        · intro u hu
          cases strip with
          | true => cases hu
          | false => exact loads_string (hupvalues u hu)
      · intro v hv
        cases strip with
        | true => cases hv
        | false =>
          obtain ⟨hname, hstart, hend⟩ := hlocvars v hv
          exact loads_locVar hname hstart hend
    · intro t ht
      split_ifs at ht
      exact hsource t ht

theorem loads_functions (strip : Bool) (parent p : Text)
    (hp : strip = false → p = parent) (depth : ℕ) :
    (fs : List Proto) → AllDumpable fs → allNesting fs ≤ depth →
      Loads name (times (LoadFunction name depth p) fs.length)
        (DumpFunctions strip parent fs).flatten (allLoaded strip p fs)
  | [], _, _ => Decodes.pure []
  | f :: fs, hfs, hdepth => by
    rw [DumpFunctions, List.flatten_append]
    apply (loads_function strip (some parent) p _ depth f hfs.1 _).bind
    · exact (loads_functions strip parent p hp depth fs hfs.2 (by
        rw [allNesting] at hdepth
        omega)).map
    · intro hs q hq
      rw [← Option.some.inj hq]
      exact hp hs
    · rw [allNesting] at hdepth
      omega

end

/-! ### Chunks -/

/-- The blocks of a chunk one after the other. -/
def chunkBytes (strip : Bool) (f : Proto) : Text :=
  luaU_header ++ (DumpFunction strip none f).flatten

theorem loads_chunk (strip : Bool) {f : Proto} (hf : Dumpable f) (depth : ℕ)
    (hdepth : nesting f ≤ depth) (name : Text) :
    Loads (undumpName name) (luaU_undump depth name) (chunkBytes strip f)
      (loaded strip (txt "=?") f) := by
  have hheader : Loads (undumpName name) (LoadHeader (undumpName name)) (luaU_header ++ []) () := by
    apply (loads_block luaU_header).bind
    rw [if_neg (fun h => h rfl)]
    exact Decodes.pure ()
  rw [List.append_nil] at hheader
  apply hheader.bind
  exact loads_function strip none (txt "=?") (by simp) depth f hf hdepth

/-- A writer that takes every block gets the chunk. -/
theorem luaU_dump_eq {δ : Type} (f : Proto) (writer : δ → Text → δ × ℤ) (data : δ)
    (strip : Bool) (hwriter : ∀ data b, (writer data b).2 = 0) :
    luaU_dump f writer data strip =
      { data := (luaU_header :: DumpFunction strip none f).foldl
          (fun data b => (writer data b).1) data
        status := 0 } := by
  have hfold (bs : List Text) (data : δ) :
      bs.foldl (DumpBlock writer) { data := data, status := 0 } =
        { data := bs.foldl (fun data b => (writer data b).1) data, status := 0 } := by
    induction bs generalizing data with
    | nil => rfl
    | cons b bs ih =>
      have hblock : DumpBlock writer { data := data, status := 0 } b =
          { data := (writer data b).1, status := 0 } := by
        rw [DumpBlock, if_pos rfl]
        simp only [hwriter]
      rw [List.foldl_cons, hblock, ih, List.foldl_cons]
  exact hfold _ data

/-- The writer of `string.dump`, which appends to a buffer. -/
def bufferWriter (buffer b : Text) : Text × ℤ := (buffer ++ b, 0)

theorem luaU_dump_buffer (f : Proto) (strip : Bool) :
    (luaU_dump f bufferWriter [] strip).data = chunkBytes strip f := by
  rw [luaU_dump_eq _ _ _ _ (fun _ _ => rfl)]
  have hfold (bs : List Text) (data : Text) :
      bs.foldl (fun data b => (bufferWriter data b).1) data = data ++ bs.flatten := by
    induction bs generalizing data with
    | nil => simp
    | cons b bs ih => rw [List.foldl_cons, ih, bufferWriter, List.flatten_cons, List.append_assoc]
  dsimp only
  rw [hfold]
  rfl

/-- What `luaU_dump` writes for a function is loaded again from any stream that begins with it,
in whatever pieces the reader gives it, and nothing behind it is read: the result is the
function itself, or with `strip` the function without its debug information. From a stream
that ends early it is not loaded. -/
theorem undump_dump (f : Proto) (hf : Dumpable f) (strip : Bool) (depth : ℕ)
    (hdepth : nesting f ≤ depth) (name : Text) :
    (∀ z rest, z.content = (luaU_dump f bufferWriter [] strip).data ++ rest →
      ∃ z', luaU_undump depth name z =
          .ok (if strip then loaded true (txt "=?") f else f, z') ∧ z'.content = rest) ∧
      ∀ z more, z.content ++ more = (luaU_dump f bufferWriter [] strip).data → more ≠ [] →
        luaU_undump depth name z =
          .error (chunkError (undumpName name) (txt "unexpected end")) := by
  obtain ⟨hreads, hneeds⟩ := loads_chunk strip hf depth hdepth name
  rw [luaU_dump_buffer]
  refine ⟨?_, hneeds⟩
  intro z rest h
  obtain ⟨z', hz', hrest⟩ := hreads z rest h
  refine ⟨z', ?_, hrest⟩
  cases strip with
  | true => exact hz'
  | false =>
    rw [loaded_all] at hz'
    exact hz'

/-- The chunk of `endlessLoop`, in two pieces. -/
def endlessLoopChunk : Zio where
  p := []
  reader := [(chunkBytes false endlessLoop).take 20, (chunkBytes false endlessLoop).drop 20]

theorem endlessLoop_dumpable : Dumpable endlessLoop := by
  refine ⟨by decide +kernel, ?_, by decide, by decide, by decide, ?_, ?_, ?_, trivial⟩
  · intro t ht
    rw [← Option.some.inj ht]
    decide
  · intro s hs
    simp at hs
  · intro v hv
    cases hv
  · intro u hu
    cases hu

theorem undump_dump_endlessLoop :
    ∃ z', luaU_undump 1 (txt "=loop") endlessLoopChunk = .ok (endlessLoop, z') ∧
      z'.content = [] := by
  have h := (undump_dump endlessLoop endlessLoop_dumpable false 1 (le_refl _) (txt "=loop")).1
  exact h endlessLoopChunk [] (by decide +kernel)

end LuaIde
