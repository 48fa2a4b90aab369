import LuaIde.LuaTableNodes
import Mathlib.Data.List.Nodup
import Mathlib.Data.List.Range

/-! The entries of a table, and how `resize` puts them into new vectors. -/
namespace LuaIde.Ltable

open Function ChainedScatter

variable {ν : Type*} {hash : Key → ℕ} {t : Table ν}

/-- The entries of a slice of the array part. -/
def Table.slice (t : Table ν) (first length : ℕ) : List (Key × ν) :=
  (List.range' first length).filterMap fun i => (t.array i).map fun v => (.integer (i+1), v)

/-- The entries of the hash part. -/
def nodeEntries (node : ℕ → Node ν) (size : ℕ) : List (Key × ν) :=
  (List.range size).filterMap fun i =>
    (node i).key.bind fun k => (node i).val.map fun v => (k, v)

/-- The entries that are not nil, in the order of the vectors. -/
def Table.entries (t : Table ν) : List (Key × ν) :=
  t.slice 0 t.sizearray ++ nodeEntries t.node t.sizenode

/-- The array part of size `n` has room for the key. -/
def fits (n : ℕ) : Key → Bool
  | .integer m => 0 ≤ m - 1 ∧ m - 1 < n
  | _ => false

theorem mem_slice {first length : ℕ} {k : Key} {v : ν} : (k, v) ∈ t.slice first length ↔
    ∃ i, first ≤ i ∧ i < first + length ∧ k = .integer (i+1) ∧ t.array i = some v := by
  simp only [Table.slice, List.mem_filterMap, List.mem_range'_1, Option.map_eq_some_iff,
    Prod.mk.injEq, and_assoc]
  constructor
  · rintro ⟨i, hfirst, hlast, w, hw, hk, rfl⟩
    exact ⟨i, hfirst, hlast, hk.symm, hw⟩
  · rintro ⟨i, hfirst, hlast, hk, hv⟩
    exact ⟨i, hfirst, hlast, v, hv, hk.symm, rfl⟩

theorem mem_nodeEntries {node : ℕ → Node ν} {size : ℕ} {k : Key} {v : ν} :
    (k, v) ∈ nodeEntries node size ↔
      ∃ i, i < size ∧ (node i).key = some k ∧ (node i).val = some v := by
  simp only [nodeEntries, List.mem_filterMap, List.mem_range, Option.bind_eq_some_iff,
    Option.map_eq_some_iff, Prod.mk.injEq]
  constructor
  · rintro ⟨i, hi, k', hk, w, hw, rfl, rfl⟩
    exact ⟨i, hi, hk, hw⟩
  · rintro ⟨i, hi, hk, hv⟩
    exact ⟨i, hi, k, hk, v, hv, rfl, rfl⟩

namespace Wf

theorem mem_entries (h : Wf hash t) {k : Key} {v : ν} :
    (k, v) ∈ t.entries ↔ t.read hash k = some v := by
  rw [Table.entries, List.mem_append, mem_slice, mem_nodeEntries, h.read_eq_some_iff]
  constructor
  · rintro (⟨i, -, hi, hk, hv⟩ | ⟨i, -, hk, hv⟩)
    · exact ⟨.array i, ⟨hk, by omega⟩, hv⟩
    · exact ⟨.node i, hk, hv⟩
  · rintro ⟨p, hp, hv⟩
    cases p with
    | array i => exact Or.inl ⟨i, Nat.zero_le i, by have := hp.2; omega, hp.1, hv⟩
    | node i => exact Or.inr ⟨i, h.inside hp, hp, hv⟩

end Wf

theorem nodup_slice (first length : ℕ) : ((t.slice first length).map Prod.fst).Nodup := by
  rw [Table.slice, List.map_filterMap]
  apply List.Nodup.filterMap
  · intro i j k hi hj
    simp only [Option.mem_def, Option.map_map, Option.map_eq_some_iff, comp_apply] at hi hj
    obtain ⟨v, -, hi⟩ := hi
    obtain ⟨w, -, hj⟩ := hj
    have hij := hi.trans hj.symm
    simp only [Key.integer.injEq] at hij
    omega
  · exact List.nodup_range'

theorem Wf.nodup_nodeEntries (h : Wf hash t) :
    ((nodeEntries t.node t.sizenode).map Prod.fst).Nodup := by
  rw [nodeEntries, List.map_filterMap]
  apply List.Nodup.filterMap
  · intro i j k hi hj
    simp only [Option.mem_def, Option.map_bind, Option.bind_eq_some_iff, comp_apply,
      Option.map_map, Option.map_eq_some_iff] at hi hj
    obtain ⟨k₁, hk₁, v, -, rfl⟩ := hi
    obtain ⟨k₂, hk₂, w, -, rfl⟩ := hj
    exact h.linked.unique hk₁ hk₂
  · exact List.nodup_range

theorem Wf.nodup_entries (h : Wf hash t) : (t.entries.map Prod.fst).Nodup := by
  rw [Table.entries, List.map_append, List.nodup_append']
  refine ⟨nodup_slice 0 _, h.nodup_nodeEntries, ?_⟩
  intro k hk hk'
  obtain ⟨⟨k₁, v⟩, hv, rfl⟩ := List.mem_map.mp hk
  obtain ⟨⟨k₂, w⟩, hw, hkk⟩ := List.mem_map.mp hk'
  obtain ⟨i, -, hi, hk₁, -⟩ := mem_slice.mp hv
  obtain ⟨j, -, hj, -⟩ := mem_nodeEntries.mp hw
  have hkk' : k₂ = .integer (i+1) := hkk.trans hk₁
  rw [hkk'] at hj
  apply h.apart hj
  omega

/-! ### Putting entries in one after the other -/

def insertAll (hash : Key → ℕ) (newkey : Table ν → Key → Except Fault (Table ν × Place)) :
    List (Key × ν) → Table ν → Except Fault (Table ν)
  | [], t => .ok t
  | (k, v) :: es, t => do
    let (t', p) ← luaH_set hash newkey t (.key k)
    insertAll hash newkey es (t'.store p (some v))

theorem insertAll_append (newkey : Table ν → Key → Except Fault (Table ν × Place))
    (es fs : List (Key × ν)) (t : Table ν) : insertAll hash newkey (es ++ fs) t =
      (insertAll hash newkey es t).bind (insertAll hash newkey fs) := by
  induction es generalizing t with
  | nil => rfl
  | cons e es ih =>
    rw [List.cons_append, insertAll, insertAll]
    cases luaH_set hash newkey t (.key e.1) with
    | error f => rfl
    | ok r => exact ih _

/-- What is read behind the assignment of an entry. -/
def withEntry (m : Key → Option ν) (e : Key × ν) : Key → Option ν := update m e.1 (some e.2)

/-- Entries that have keys of their own replace what was read. -/
theorem foldl_update_eq_some_iff (es : List (Key × ν)) (hnodup : (es.map Prod.fst).Nodup)
    (m : Key → Option ν) (k : Key) (v : ν) :
    es.foldl withEntry m k = some v ↔
      (k, v) ∈ es ∨ (k ∉ es.map Prod.fst ∧ m k = some v) := by
  induction es generalizing m with
  | nil => simp
  | cons e es ih =>
    rw [List.map_cons, List.nodup_cons] at hnodup
    rw [List.foldl_cons, ih hnodup.2, List.mem_cons, List.map_cons, List.mem_cons]
    by_cases hk : k = e.1
    · rw [hk, withEntry, update_self]
      have hnot : (e.1, v) ∉ es := fun hin => hnodup.1 (List.mem_map.mpr ⟨_, hin, rfl⟩)
      simp [hnot, hnodup.1, Prod.ext_iff, eq_comm]
    · rw [withEntry, update_of_ne hk]
      simp [hk, Prod.ext_iff]

/-- `t'` is `t` behind the insertion of entries. -/
structure Inserted (hash : Key → ℕ) (es : List (Key × ν)) (t t' : Table ν) : Prop where
  wf : Wf hash t'
  read : t'.read hash = es.foldl withEntry (t.read hash)
  sizearray : t'.sizearray = t.sizearray
  behind : ∀ i, t.sizearray ≤ i → t'.array i = t.array i
  lsizenode : t'.lsizenode = t.lsizenode
  dummynode : t'.dummynode = t.dummynode
  keyCount : t'.keyCount ≤ t.keyCount + es.countP fun e => !fits t.sizearray e.1

theorem Wf.fits_eq_true (h : Wf hash t) {k : Key} (hk : fits t.sizearray k = true) :
    ∃ i, luaH_get hash t (.key k) = some (.array i) := by
  cases k with
  | integer n =>
    have hn : 0 ≤ n - 1 ∧ n - 1 < t.sizearray := of_decide_eq_true hk
    rw [h.luaH_get_integer, luaH_getnum, if_pos hn]
    exact ⟨_, rfl⟩
  | number b => cases hk
  | string s => cases hk
  | boolean b => cases hk
  | pointer tt a => cases hk

theorem keyCount_store (p : Place) (v : Option ν) : (t.store p v).keyCount = t.keyCount := by
  simp only [Table.keyCount, store_sizenode, store_key]

/-- There are nodes for the entries that do not go to the array part. -/
structure Room (t : Table ν) (es : List (Key × ν)) : Prop where
  nodes : t.keyCount + (es.countP fun e => !fits t.sizearray e.1) ≤ t.sizenode
  dummy : (es.countP fun e => !fits t.sizearray e.1) ≠ 0 → t.dummynode = false

theorem Room.of_append (es fs : List (Key × ν)) (h : Room t (es ++ fs)) : Room t es where
  nodes := by
    have hnodes := h.nodes
    rw [List.countP_append] at hnodes
    omega
  dummy := by
    intro hne
    apply h.dummy
    rw [List.countP_append]
    omega

namespace Inserted

variable {t' t'' : Table ν} {e : Key × ν} {es fs : List (Key × ν)}

theorem sizenode (h : Inserted hash es t t') : t'.sizenode = t.sizenode := by
  rw [Table.sizenode, h.lsizenode, Table.sizenode]

theorem trans (h : Inserted hash es t t') (h' : Inserted hash fs t' t'') :
    Inserted hash (es ++ fs) t t'' where
  wf := h'.wf
  read := by rw [h'.read, h.read, List.foldl_append]
  sizearray := h'.sizearray.trans h.sizearray
  behind := by
    intro i hi
    rw [h'.behind i (by rw [h.sizearray]; exact hi), h.behind i hi]
  lsizenode := h'.lsizenode.trans h.lsizenode
  dummynode := h'.dummynode.trans h.dummynode
  keyCount := by
    have hle := h'.keyCount
    have hle' := h.keyCount
    rw [h.sizearray] at hle
    rw [List.countP_append]
    omega

theorem room (h : Inserted hash es t t') (hroom : Room t (es ++ fs)) : Room t' fs where
  nodes := by
    have hle := h.keyCount
    have hnodes := hroom.nodes
    rw [List.countP_append] at hnodes
    rw [h.sizenode, h.sizearray]
    omega
  dummy := by
    intro hne
    rw [h.dummynode]
    apply hroom.dummy
    rw [List.countP_append]
    rw [h.sizearray] at hne
    omega

end Inserted

/-- While there is a node for the key, an assignment does not make the table grow. -/
theorem Wf.luaH_set_inserted (h : Wf hash t) {k : Key} {v : ν} (hroom : Room t [(k, v)])
    (fuel : ℕ) : ∃ t' p, luaH_set hash (newkey hash (fuel+1)) t (.key k) = .ok (t', p) ∧
      Inserted hash [(k, v)] t (t'.store p (some v)) := by
  rw [luaH_set]
  cases hget : luaH_get hash t (.key k) with
  | some p =>
    have hp := h.luaH_get_eq_some_iff.mp hget
    refine ⟨t, p, rfl, h.store hp _, h.read_store hp _, store_sizearray p _, ?_,
      store_lsizenode p _, store_dummynode p _, ?_⟩
    · intro i hi
      cases p with
      | array j =>
        have hj : j < t.sizearray := hp.2
        exact update_of_ne (by omega) ..
      | node j => rfl
    · rw [keyCount_store]
      exact Nat.le_add_right _ _
  | none =>
    have hfits : (!fits t.sizearray k) = true := by
      by_contra hnot
      obtain ⟨i, hi⟩ := h.fits_eq_true (by simpa using hnot)
      rw [hget] at hi
      cases hi
    have hcount : ([(k, v)].countP fun e => !fits t.sizearray e.1) = 1 := by
      rw [List.countP_singleton, if_pos hfits]
    have hd := hroom.dummy (by omega)
    have hnodes := hroom.nodes
    obtain ⟨t', p, hnew, hadded⟩ := h.newkey_added hd hget
      (Or.inr (h.getfreepos_isSome hd (by omega))) fuel
    have hp := hadded.holds
    refine ⟨t', p, hnew, hadded.wf.store hp _, ?_, ?_, ?_, ?_, ?_, ?_⟩
    · rw [hadded.wf.read_store hp, hadded.read]
      rfl
    · rw [store_sizearray, hadded.sizearray]
    · intro i hi
      rw [← hadded.array]
      cases p with
      | array j =>
        have hj : j < t'.sizearray := hp.2
        rw [hadded.sizearray] at hj
        exact update_of_ne (by omega) ..
      | node j => rfl
    · rw [store_lsizenode, hadded.lsizenode]
    · rw [store_dummynode, hadded.dummynode]
    · rw [keyCount_store, hcount]
      exact hadded.keyCount

/-- While there are nodes for the entries, no insertion makes the table grow. -/
theorem Wf.inserted (h : Wf hash t) {es : List (Key × ν)} (hroom : Room t es) (fuel : ℕ) :
    ∃ t', insertAll hash (newkey hash (fuel+1)) es t = .ok t' ∧ Inserted hash es t t' := by
  induction es generalizing t with
  | nil => exact ⟨t, rfl, h, rfl, rfl, fun _ _ => rfl, rfl, rfl, Nat.le_add_right _ _⟩
  | cons e es ih =>
    obtain ⟨k, v⟩ := e
    obtain ⟨t₁, p, hset, hone⟩ := h.luaH_set_inserted (hroom.of_append [(k, v)] es) fuel
    obtain ⟨t', hrest, hins⟩ := ih hone.wf (hone.room hroom)
    refine ⟨t', ?_, hone.trans hins⟩
    rw [insertAll, hset]
    exact hrest

/-! ### The loops of `resize` -/

theorem nodeEntries_succ (node : ℕ → Node ν) (i : ℕ) : nodeEntries node (i+1) =
    nodeEntries node i ++ ((node i).key.bind fun k => (node i).val.map fun v => (k, v)).toList := by
  rw [nodeEntries, List.range_succ, List.filterMap_append, nodeEntries, List.filterMap_cons,
    List.filterMap_nil]
  cases (node i).key.bind fun k => (node i).val.map fun v => (k, v) <;> rfl

theorem reinsertNodes_eq (newkey : Table ν → Key → Except Fault (Table ν × Place))
    (nold : ℕ → Node ν) (i : ℕ) (t : Table ν) :
    reinsertNodes hash newkey nold i t = insertAll hash newkey (nodeEntries nold i).reverse t := by
  induction i generalizing t with
  | zero => rfl
  | succ i ih =>
    rw [nodeEntries_succ, List.reverse_append, reinsertNodes]
    cases hkey : (nold i).key with
    | none => exact ih t
    | some k =>
      cases hval : (nold i).val with
      | none => exact ih t
      | some v =>
        show _ = insertAll hash newkey ((k, v) :: (nodeEntries nold i).reverse) t
        rw [insertAll]
        simp only
        cases luaH_set hash newkey t (.key k) with
        | error f => rfl
        | ok r => exact ih _

theorem Wf.luaH_setnum_eq (h : Wf hash t)
    (newkey : Table ν → Key → Except Fault (Table ν × Place)) (n : ℤ) :
    luaH_setnum hash newkey t n = luaH_set hash newkey t (.key (.integer n)) := by
  rw [luaH_setnum, luaH_set, h.luaH_get_integer]

theorem slice_succ (first length : ℕ) : t.slice first (length+1) =
    ((t.array first).map fun v => (Key.integer (first+1), v)).toList ++
      t.slice (first+1) length := by
  rw [Table.slice, List.range'_succ, List.filterMap_cons, Table.slice]
  cases t.array first <;> rfl

/-- The loop over the vanishing slice reads values that no insertion touches: they are still
those of `u`, the table as it was. -/
theorem Wf.reinsertArray_eq (h : Wf hash t) (fuel : ℕ) {first length : ℕ} {u : Table ν}
    (hfirst : t.sizearray ≤ first) (hu : ∀ i, first ≤ i → t.array i = u.array i)
    (hroom : Room t (u.slice first length)) :
    reinsertArray hash (newkey hash (fuel+1)) (List.range' first length) t =
      insertAll hash (newkey hash (fuel+1)) (u.slice first length) t := by
  induction length generalizing t first with
  | zero => rfl
  | succ length ih =>
    rw [List.range'_succ, reinsertArray, hu first le_rfl]
    rw [slice_succ] at hroom ⊢
    have hrest (i : ℕ) (hi : first + 1 ≤ i) : t.array i = u.array i := hu i (by omega)
    cases hval : u.array first with
    | none =>
      rw [hval] at hroom
      exact ih h (by omega) hrest hroom
    | some v =>
      rw [hval] at hroom
      obtain ⟨t₁, p, hset, hone⟩ := h.luaH_set_inserted (hroom.of_append _ _) fuel
      simp only [Option.map_some, Option.toList_some, List.singleton_append]
      rw [insertAll, h.luaH_setnum_eq, hset]
      apply ih hone.wf
      · rw [hone.sizearray]
        omega
      · intro i hi
        rw [hone.behind i (by omega)]
        exact hrest i hi
      · exact hone.room hroom

end LuaIde.Ltable
