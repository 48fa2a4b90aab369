import LuaIde.ChunkRoundTrip

/-! Whatever bytes a chunk consists of: the functions that `luaU_undump` makes of it, with all
functions inside of them, are checked, and so none of them leaves its code or its vectors. -/
namespace LuaIde

open LineText DecimalText Decoding

/-- `g` is `f` or a function inside of it. -/
inductive Within : Proto → Proto → Prop where
  | self (f : Proto) : Within f f
  | inside {f g h : Proto} : g ∈ f.p → Within h g → Within h f

/-- A step of a loader that comes to its end. -/
theorem load_bind_ok {α β : Type} {m : Load α} {k : α → Load β} {z z' : Zio} {b : β}
    (h : (m >>= k) z = .ok (b, z')) : ∃ a t, m z = .ok (a, t) ∧ k a t = .ok (b, z') := by
  cases hm : m z with
  | error e =>
    have herror : (m >>= k) z = .error e := run_bind_error hm
    rw [herror] at h
    cases h
  | ok r =>
    have hok : (m >>= k) z = k r.1 r.2 := run_bind_ok hm
    exact ⟨r.1, r.2, rfl, hok ▸ h⟩

theorem mem_times {α : Type} {m : Load α} {P : α → Prop}
    (hm : ∀ z a z', m z = .ok (a, z') → P a) {n : ℕ} {z z' : Zio} {as : List α}
    (h : times m n z = .ok (as, z')) : ∀ a ∈ as, P a := by
  induction n generalizing z z' as with
  | zero =>
    obtain ⟨rfl, -⟩ := Prod.mk.inj (Except.ok.inj h)
    simp
  | succ n ih =>
    obtain ⟨a, t, ha, h⟩ := load_bind_ok h
    obtain ⟨bs, u, hbs, h⟩ := load_bind_ok h
    obtain ⟨rfl, -⟩ := Prod.mk.inj (Except.ok.inj h)
    intro x hx
    rcases List.mem_cons.mp hx with rfl | hx
    · exact hm z x t ha
    · exact ih hbs x hx

/-- A function that has been loaded was checked, and so were those inside of it. -/
theorem loadFunction_checked (name : Text) (depth : ℕ) (p : Text) (z z' : Zio) (f : Proto)
    (h : LoadFunction name depth p z = .ok (f, z')) (g : Proto) (hg : Within g f) :
    luaG_checkcode g = true := by
  induction depth generalizing p z z' f g with
  | zero => cases h
  | succ depth ih =>
    obtain ⟨source, _, -, h⟩ := load_bind_ok h
    obtain ⟨linedefined, _, -, h⟩ := load_bind_ok h
    obtain ⟨lastlinedefined, _, -, h⟩ := load_bind_ok h
    obtain ⟨nups, _, -, h⟩ := load_bind_ok h
    obtain ⟨numparams, _, -, h⟩ := load_bind_ok h
    obtain ⟨is_vararg, _, -, h⟩ := load_bind_ok h
    obtain ⟨maxstacksize, _, -, h⟩ := load_bind_ok h
    obtain ⟨code, _, -, h⟩ := load_bind_ok h
    obtain ⟨sizek, _, -, h⟩ := load_bind_ok h
    obtain ⟨k, _, -, h⟩ := load_bind_ok h
    obtain ⟨sizep, _, -, h⟩ := load_bind_ok h
    obtain ⟨protos, _, hprotos, h⟩ := load_bind_ok h
    obtain ⟨lineinfo, _, -, h⟩ := load_bind_ok h
    obtain ⟨sizelocvars, _, -, h⟩ := load_bind_ok h
    obtain ⟨locvars, _, -, h⟩ := load_bind_ok h
    obtain ⟨sizeupvalues, _, -, h⟩ := load_bind_ok h
    obtain ⟨upvalues, _, -, h⟩ := load_bind_ok h
    have hnested (q : Proto) (hq : q ∈ protos) (g : Proto) (hg : Within g q) :
        luaG_checkcode g = true := by
      apply mem_times (P := fun q => ∀ g, Within g q → luaG_checkcode g = true) _ hprotos q hq g hg
      intro z q z' hload g hg
      exact ih _ z z' q hload g hg
    dsimp only at h
    split_ifs at h with hcheck
    · obtain ⟨rfl, -⟩ := Prod.mk.inj (Except.ok.inj h)
      cases hg with
      | self => exact hcheck
      | inside hmem hin => exact hnested _ hmem g hin
    · cases h

/-- No chunk, however its bytes were made, yields a function that leaves its code: at every
position one of its functions executes there is an instruction, and it uses no place outside
of the vectors of the function, as long as the counts of `OP_SETLIST` are in place. -/
theorem undumped_code_stays_inside (depth : ℕ) (name : Text) (z z' : Zio) (f : Proto)
    (hload : luaU_undump depth name z = .ok (f, z')) (g : Proto) (hg : Within g f)
    (hcounts : CountsPlaced g) (pc : ℤ) (hpc : Executed g pc) :
    ∃ n i op, fetch g pc = some (n, i, op) ∧ InBounds g op (uses g n i op) := by
  obtain ⟨_, _, -, h⟩ := load_bind_ok hload
  exact accepted_code_stays_inside g (loadFunction_checked _ depth _ _ _ f h g hg) hcounts pc hpc

theorem undumped_code_stays_inside_endlessLoop :
    ∃ n i op, fetch endlessLoop 1 = some (n, i, op) ∧
      InBounds endlessLoop op (uses endlessLoop n i op) := by
  obtain ⟨z', hz', -⟩ := (loads_chunk false endlessLoop_dumpable 1
    (le_refl _) (txt "=loop")).reads endlessLoopChunk [] (by decide +kernel)
  apply undumped_code_stays_inside 1 (txt "=loop") endlessLoopChunk z' endlessLoop _ endlessLoop
    (.self _) (countsPlaced_of_none (by decide +kernel)) 1
  · exact .single ⟨0, 1, .OP_LOADK, by decide +kernel, by decide +kernel⟩
  · rw [loaded_all] at hz'
    exact hz'

end LuaIde
