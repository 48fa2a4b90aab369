import LuaIde.Attempts
import LuaIde.LuaTableRehash

/-! A table and the map from keys to values that it stands for. -/
namespace LuaIde.Ltable

open Function Attempts

variable {ν : Type*} {hash : Key → ℕ} {t : Table ν}

/-- What assigns to a table: `luaV_settable` where no metamethod is called, `lua_rawseti`, the
fields of a constructor, and `OP_SETLIST`, which first makes room up to the element `last`. -/
inductive TableOp (ν : Type*) where
  | set (key : Index) (v : Option ν)
  | setnum (key : ℤ) (v : Option ν)
  | setstr (key : ℕ) (v : Option ν)
  | setlist (last : ℕ)

namespace TableOp

/-- An assignment through the pointer that `luaH_set` and its variants return. -/
def assign (r : Except Fault (Table ν × Place)) (v : Option ν) : Except Fault (Table ν) :=
  r.map fun r => r.1.store r.2 v

def apply (hash : Key → ℕ) (fuel : ℕ) (t : Table ν) : TableOp ν → Except Fault (Table ν)
  | .set key v => assign (luaH_set hash (newkey hash fuel) t key) v
  | .setnum key v => assign (luaH_setnum hash (newkey hash fuel) t key) v
  | .setstr key v => assign (luaH_setstr hash (newkey hash fuel) t key) v
  | .setlist last =>
    if last > t.sizearray then luaH_resizearray hash fuel t last else .ok t

/-- The operation on the map. -/
def meaning (m : Key → Option ν) : TableOp ν → Except Fault (Key → Option ν)
  | .set .nil _ => luaG_runerror "table index is nil"
  | .set .nan _ => luaG_runerror "table index is NaN"
  | .set (.key k) v => .ok (update m k v)
  | .setnum key v => .ok (update m (.integer key) v)
  | .setstr key v => .ok (update m (.string key) v)
  | .setlist _ => .ok m

/-- The array part stays within `MAXASIZE`. -/
def Bounded : TableOp ν → Prop
  | .setlist last => last ≤ MAXASIZE
  | _ => True

end TableOp

theorem luaH_new_eq (narray : ℕ) {nhash : ℕ} (hnh : nhash ≤ MAXASIZE) :
    ∃ array : ℕ → Option ν, luaH_new narray nhash = .ok (fresh array narray nhash) ∧
      ∀ i < narray, array i = none := by
  rw [luaH_new, setnodevector_eq hnh]
  refine ⟨_, rfl, ?_⟩
  intro i hi
  exact if_pos ⟨Nat.zero_le i, hi⟩

theorem read_fresh {array : ℕ → Option ν} {narray nhash : ℕ} (hna : narray ≤ MAXASIZE)
    (hnh : nhash ≤ MAXASIZE) (harray : ∀ i < narray, array i = none) :
    (fresh array narray nhash).read hash = fun _ => none := by
  funext k
  rw [Option.eq_none_iff_forall_ne_some]
  intro v hv
  rw [← (wf_fresh hash array hna hnh).mem_entries, entries_fresh, mem_slice] at hv
  obtain ⟨i, -, hi, -, hval⟩ := hv
  have hnone := harray i (by omega)
  have hsome : array i = some v := hval
  rw [hnone] at hsome
  cases hsome

/-- One assignment adds at most one entry. -/
theorem Wf.length_entries_le {t' : Table ν} (h : Wf hash t) (h' : Wf hash t') {k : Key}
    {v : Option ν} (hread : t'.read hash = update (t.read hash) k v) :
    t'.entries.length ≤ t.entries.length + 1 := by
  have hsub : t'.entries.map Prod.fst ⊆ k :: t.entries.map Prod.fst := by
    intro k' hk'
    obtain ⟨⟨q, w⟩, hw, rfl⟩ := List.mem_map.mp hk'
    rw [h'.mem_entries, hread] at hw
    by_cases hq : q = k
    · rw [hq]
      exact List.mem_cons_self
    · rw [update_of_ne hq, ← h.mem_entries] at hw
      exact List.mem_cons_of_mem k (List.mem_map.mpr ⟨_, hw, rfl⟩)
  have hlen := (List.subperm_of_subset h'.nodup_entries hsub).length_le
  rw [List.length_cons, List.length_map, List.length_map] at hlen
  exact hlen

theorem Wf.length_entries_eq {t' : Table ν} (h : Wf hash t) (h' : Wf hash t')
    (hread : t'.read hash = t.read hash) : t'.entries.length = t.entries.length := by
  have hle {t t' : Table ν} (h : Wf hash t) (h' : Wf hash t')
      (hread : t'.read hash = t.read hash) : t'.entries.length ≤ t.entries.length := by
    have hsub : t'.entries.map Prod.fst ⊆ t.entries.map Prod.fst := by
      intro k hk
      obtain ⟨⟨q, w⟩, hw, rfl⟩ := List.mem_map.mp hk
      rw [h'.mem_entries, hread, ← h.mem_entries] at hw
      exact List.mem_map.mpr ⟨_, hw, rfl⟩
    have hlen := (List.subperm_of_subset h'.nodup_entries hsub).length_le
    rw [List.length_map, List.length_map] at hlen
    exact hlen
  exact le_antisymm (hle h h' hread) (hle h' h hread.symm)

/-- The table and the map behind `n` operations. -/
structure StandsFor (hash : Key → ℕ) (n : ℕ) (t : Table ν) (m : Key → Option ν) : Prop where
  wf : Wf hash t
  read : t.read hash = m
  few : t.entries.length ≤ n

namespace StandsFor

variable {n : ℕ} {m : Key → Option ν}

theorem luaH_set_alike (h : StandsFor hash n t m) (hn : n < MAXASIZE) (k : Key)
    (v : Option ν) (fuel : ℕ) : Alike (StandsFor hash (n+1)) t m
      (TableOp.assign (luaH_set hash (newkey hash (fuel+2)) t (.key k)) v)
      (.ok (update m k v) : Except Fault _) := by
  rcases h.wf.luaH_set_ok k fuel with ⟨t', p, hset, hsetTo⟩ | ⟨-, hmany⟩
  · rw [hset]
    apply Alike.ok
    have hwf := hsetTo.wf.store hsetTo.holds v
    have hread : (t'.store p v).read hash = update (t.read hash) k v := by
      rw [hsetTo.wf.read_store hsetTo.holds, hsetTo.read]
    refine ⟨hwf, ?_, ?_⟩
    · rw [hread, h.read]
    · exact (h.wf.length_entries_le hwf hread).trans (Nat.add_le_add_right h.few 1)
  · have hfew := h.few
    omega

theorem setlist_alike (h : StandsFor hash n t m) {last : ℕ} (hlast : last ≤ MAXASIZE) (fuel : ℕ) :
    Alike (StandsFor hash (n+1)) t m
      (TableOp.apply hash (fuel+1) t (.setlist last)) (.ok m : Except Fault _) := by
  rw [TableOp.apply]
  split_ifs with hgrow
  · rw [luaH_resizearray]
    have hnodes : (nodeEntries t.node t.sizenode).length ≤
        if t.dummynode = true then 0 else t.sizenode := by
      split_ifs with hd
      · rw [Nat.le_zero, List.length_eq_zero_iff, nodeEntries, List.filterMap_eq_nil_iff]
        intro i _
        rw [(h.wf.dummy hd).2.2 i, Option.bind_none]
      · calc (nodeEntries t.node t.sizenode).length ≤ (List.range t.sizenode).length :=
              List.length_filterMap_le ..
          _ = t.sizenode := List.length_range
    have hmax : (if t.dummynode = true then 0 else t.sizenode) ≤ MAXASIZE := by
      split_ifs
      · exact Nat.zero_le _
      · exact Nat.pow_le_pow_right Nat.two_pos h.wf.nodeSize
    have hcount : (t.entries.countP fun e => !fits last e.1) ≤
        if t.dummynode = true then 0 else t.sizenode := by
      have hslice : ((t.slice 0 t.sizearray).countP fun e => !fits last e.1) = 0 := by
        rw [List.countP_eq_zero]
        rintro ⟨k, v⟩ he
        obtain ⟨i, -, hi, rfl, -⟩ := mem_slice.mp he
        have hfits : fits last (.integer (i+1)) = true := decide_eq_true (by omega)
        simp [hfits]
      rw [Table.entries, List.countP_append, hslice, Nat.zero_add]
      exact List.countP_le_length.trans hnodes
    obtain ⟨t', hresize, hresized⟩ := h.wf.resize_ok hlast hmax hcount fuel
    rw [hresize]
    apply Alike.ok
    refine ⟨hresized.wf, hresized.read.trans h.read, ?_⟩
    rw [h.wf.length_entries_eq hresized.wf hresized.read]
    exact h.few.trans (Nat.le_succ n)
  · exact Alike.ok ⟨h.wf, h.read, h.few.trans (Nat.le_succ n)⟩

/-- Each operation does to the table what it means for the map. -/
theorem apply_alike (h : StandsFor hash n t m) (hn : n < MAXASIZE) {op : TableOp ν}
    (hop : op.Bounded) (fuel : ℕ) : Alike (StandsFor hash (n+1)) t m
      (op.apply hash (fuel+2) t) (op.meaning m) := by
  have hlater : StandsFor hash (n+1) t m := ⟨h.wf, h.read, h.few.trans (Nat.le_succ n)⟩
  cases op with
  | set key v =>
    cases key with
    | nil => exact Alike.error hlater
    | nan => exact Alike.error hlater
    | key k => exact h.luaH_set_alike hn k v fuel
  | setnum key v =>
    rw [TableOp.apply, h.wf.luaH_setnum_eq]
    exact h.luaH_set_alike hn (.integer key) v fuel
  | setstr key v => exact h.luaH_set_alike hn (.string key) v fuel
  | setlist last => exact h.setlist_alike hop (fuel+1)

end StandsFor

/-- A new table and the empty map stay together. -/
theorem standsFor_attempts (hash : Key → ℕ) (fuel : ℕ) {narray nhash : ℕ}
    (hna : narray ≤ MAXASIZE) (hnh : nhash ≤ MAXASIZE) {ops : List (TableOp ν)}
    (hops : ∀ op ∈ ops, op.Bounded) (hmany : ops.length ≤ MAXASIZE) :
    ∃ t : Table ν, luaH_new narray nhash = .ok t ∧
      (attempts (TableOp.apply hash (fuel+2)) t ops).2 =
        (attempts TableOp.meaning (fun _ => none) ops).2 ∧
      StandsFor hash ops.length (attempts (TableOp.apply hash (fuel+2)) t ops).1
        (attempts TableOp.meaning (fun _ => none) ops).1 := by
  obtain ⟨array, hnew, harray⟩ := @luaH_new_eq ν narray nhash hnh
  have hstart : StandsFor hash 0 (fresh array narray nhash) (fun _ => none) := by
    refine ⟨wf_fresh hash array hna hnh, read_fresh hna hnh harray, ?_⟩
    rw [Nat.le_zero, List.length_eq_zero_iff, List.eq_nil_iff_forall_not_mem]
    rintro ⟨k, v⟩ he
    rw [(wf_fresh hash array hna hnh).mem_entries, read_fresh hna hnh harray] at he
    cases he
  obtain ⟨herrors, hend⟩ := attempts_alike
    (fun n s m op hn hop hR => hR.apply_alike hn hop fuel) hops hstart
    (by rw [Nat.zero_add]; exact hmany)
  rw [Nat.zero_add] at hend
  exact ⟨_, hnew, herrors, hend⟩

/-- Whatever is assigned to a new table, each operation fails or succeeds as it does for a map,
and in the end `luaH_get` finds for every key what the map has for it. -/
theorem assignments_to_table_eq_map (hash : Key → ℕ) (fuel narray nhash : ℕ)
    (hna : narray ≤ MAXASIZE) (hnh : nhash ≤ MAXASIZE) (ops : List (TableOp ν))
    (hops : ∀ op ∈ ops, op.Bounded) (hmany : ops.length ≤ MAXASIZE) :
    ∃ t : Table ν, luaH_new narray nhash = .ok t ∧
      (attempts (TableOp.apply hash (fuel+2)) t ops).2 =
        (attempts TableOp.meaning (fun _ => none) ops).2 ∧
      ∀ k, (luaH_get hash (attempts (TableOp.apply hash (fuel+2)) t ops).1 (.key k)).bind
          (attempts (TableOp.apply hash (fuel+2)) t ops).1.val =
        (attempts TableOp.meaning (fun _ => none) ops).1 k := by
  obtain ⟨t, hnew, herrors, hend⟩ := standsFor_attempts hash fuel hna hnh hops hmany
  exact ⟨t, hnew, herrors, fun k => congrFun hend.read k⟩

/-- Assignments with an index that is nil and one that is not a number between them. -/
def fiveAssignments : List (TableOp ℕ) :=
  [.setstr 8 (some 1), .set .nil (some 2), .setnum 1 (some 3), .set .nan none, .setlist 3]

theorem fiveAssignments_bounded : ∀ op ∈ fiveAssignments, op.Bounded := by
  intro op hop
  simp only [fiveAssignments, List.mem_cons, List.not_mem_nil, or_false] at hop
  rcases hop with rfl | rfl | rfl | rfl | rfl
  all_goals simp [TableOp.Bounded, MAXASIZE, MAXBITS]

theorem length_fiveAssignments : fiveAssignments.length ≤ MAXASIZE := by
  simp [fiveAssignments, MAXASIZE, MAXBITS]

/-- All keys have the same main position. -/
theorem assignments_to_table_eq_map_collisions :
    ∃ t : Table ℕ, luaH_new 0 1 = .ok t ∧
      (attempts (TableOp.apply (fun _ => 0) 2) t fiveAssignments).2 =
        (attempts TableOp.meaning (fun _ => none) fiveAssignments).2 ∧
      ∀ k, (luaH_get (fun _ => 0) (attempts (TableOp.apply (fun _ => 0) 2) t fiveAssignments).1
          (.key k)).bind (attempts (TableOp.apply (fun _ => 0) 2) t fiveAssignments).1.val =
        (attempts TableOp.meaning (fun _ => none) fiveAssignments).1 k := by
  exact assignments_to_table_eq_map (fun _ => 0) 0 0 1 (by decide) (by decide) fiveAssignments
    fiveAssignments_bounded length_fiveAssignments

end LuaIde.Ltable
