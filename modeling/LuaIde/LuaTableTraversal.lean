import LuaIde.LuaTableMap

/-! Traversals with `luaH_next` that assign to the fields they come by. -/
namespace LuaIde.Ltable

open Function ChainedScatter Attempts

variable {ν : Type*} {hash : Key → ℕ} {t : Table ν}

/-- The positions of a traversal: first the array part, then the nodes. -/
def Table.placeAt (t : Table ν) (pos : ℕ) : Place :=
  if pos < t.sizearray then .array pos else .node (pos - t.sizearray)

def Table.places (t : Table ν) : ℕ := t.sizearray + t.sizenode

/-- The entry at a position, if it is not nil. -/
def Table.entryAt (t : Table ν) (pos : ℕ) : Option (Key × ν) :=
  if pos < t.sizearray then (t.array pos).map fun v => (Key.integer (pos+1), v)
  else (t.node (pos - t.sizearray)).key.bind fun k =>
    (t.node (pos - t.sizearray)).val.map fun v => (k, v)

theorem entryAt_eq_some_iff {pos : ℕ} {k : Key} {v : ν} : t.entryAt pos = some (k, v) ↔
    t.Holds (t.placeAt pos) k ∧ t.val (t.placeAt pos) = some v := by
  rw [Table.entryAt, Table.placeAt]
  split_ifs with hpos
  · simp only [Option.map_eq_some_iff, Prod.mk.injEq, Table.Holds, Table.val]
    constructor
    · rintro ⟨w, hw, rfl, rfl⟩
      exact ⟨⟨rfl, hpos⟩, hw⟩
    · rintro ⟨⟨hk, -⟩, hv⟩
      exact ⟨v, hv, hk.symm, rfl⟩
  · simp only [Option.bind_eq_some_iff, Option.map_eq_some_iff, Prod.mk.injEq, Table.Holds,
      Table.val]
    constructor
    · rintro ⟨k', hk, w, hw, rfl, rfl⟩
      exact ⟨hk, hw⟩
    · rintro ⟨hk, hv⟩
      exact ⟨k, hk, v, hv, rfl, rfl⟩

theorem placeAt_injective {pos pos' : ℕ} (h : t.placeAt pos = t.placeAt pos') : pos = pos' := by
  rw [Table.placeAt, Table.placeAt] at h
  split_ifs at h
  · exact Place.array.inj h
  · have hnode := Place.node.inj h
    omega

/-- A key's place has a position. -/
theorem Wf.exists_placeAt (h : Wf hash t) {p : Place} {k : Key} (hp : t.Holds p k) :
    ∃ pos < t.places, t.placeAt pos = p := by
  cases p with
  | array i =>
    have hi : i < t.sizearray := hp.2
    exact ⟨i, Nat.lt_of_lt_of_le hi (Nat.le_add_right _ _), if_pos hi⟩
  | node i =>
    have hi : i < t.sizenode := h.inside hp
    refine ⟨t.sizearray + i, Nat.add_lt_add_left hi _, ?_⟩
    rw [Table.placeAt, if_neg (by omega), Nat.add_sub_cancel_left]

theorem Wf.findindex_eq (h : Wf hash t) {pos : ℕ} {k : Key} (hk : t.Holds (t.placeAt pos) k) :
    findindex hash t (.key k) = .ok (pos : ℤ) := by
  have hmax : MAXASIZE = 67108864 := rfl
  have hsize := h.arraySize
  rw [findindex]
  rw [Table.placeAt] at hk
  by_cases hpos : pos < t.sizearray
  · rw [if_pos hpos] at hk
    have hindex : arrayindex k = pos + 1 := by
      rw [hk.1, arrayindex, if_pos]
      omega
    rw [hindex, if_pos (by omega), Int.add_sub_cancel]
  · rw [if_neg hpos] at hk
    have hkey : (t.node (pos - t.sizearray)).key = some k := hk
    have hnot : ¬ (0 < arrayindex k ∧ arrayindex k ≤ t.sizearray) := by
      intro hin
      have hother (hindex : arrayindex k = -1) : False := by
        rw [hindex] at hin
        omega
      cases k with
      | integer n =>
        rw [arrayindex] at hin
        split_ifs at hin
        · exact h.apart hkey (by omega)
        · omega
      | number b => exact hother rfl
      | string s => exact hother rfl
      | boolean b => exact hother rfl
      | pointer tt a => exact hother rfl
    rw [if_neg hnot, h.chain_eq_some_iff.mpr hkey]
    simp only [Except.ok.injEq]
    omega

theorem findSome?_congr {α β : Type*} {f g : α → Option β} {l : List α}
    (h : ∀ a ∈ l, f a = g a) : l.findSome? f = l.findSome? g := by
  induction l with
  | nil => rfl
  | cons a l ih =>
    rw [List.findSome?_cons, List.findSome?_cons, h a List.mem_cons_self,
      ih fun b hb => h b (List.mem_cons_of_mem a hb)]

/-- `luaH_next` looks for the first entry from a position on. -/
theorem luaH_next_eq {key : Index} {i : ℕ} (hi : findindex hash t key = .ok ((i : ℤ) - 1)) :
    luaH_next hash t key = .ok ((List.range' i (t.places - i)).findSome? t.entryAt) := by
  have hto : ((i : ℤ) - 1 + 1).toNat = i := by omega
  have harray (n : ℕ) (hn : i + n ≤ t.sizearray) : (List.range' i n).findSome? t.entryAt =
      (List.range' i n).findSome? fun i => (t.array i).map fun v => (Key.integer (i+1), v) := by
    apply findSome?_congr
    intro j hj
    rw [List.mem_range'_1] at hj
    rw [Table.entryAt, if_pos (by omega)]
  have hnode (j n : ℕ) : (List.range' (t.sizearray + j) n).findSome? t.entryAt =
      (List.range' j n).findSome? fun i =>
        (t.node i).key.bind fun k => (t.node i).val.map fun v => (k, v) := by
    rw [← List.map_add_range', List.findSome?_map]
    apply findSome?_congr
    intro i _
    rw [Function.comp_apply, Table.entryAt, if_neg (by omega), Nat.add_sub_cancel_left]
  rw [luaH_next, hi]
  simp only [hto]
  by_cases hle : i ≤ t.sizearray
  · have hsplit : List.range' i (t.places - i) =
        List.range' i (t.sizearray - i) ++ List.range' t.sizearray t.sizenode := by
      have happend := @List.range'_append_1 i (t.sizearray - i) t.sizenode
      have hsum : t.sizearray - i + t.sizenode = t.places - i := by
        rw [Table.places]
        omega
      rw [hsum, Nat.add_sub_cancel' hle] at happend
      exact happend.symm
    rw [hsplit, List.findSome?_append, harray _ (by omega)]
    have hzero := hnode 0 t.sizenode
    rw [Nat.add_zero] at hzero
    rw [hzero, Nat.sub_eq_zero_of_le hle, Nat.sub_zero]
    cases (List.range' i (t.sizearray - i)).findSome? fun i =>
      (t.array i).map fun v => (Key.integer (i+1), v) <;> rfl
  · obtain ⟨j, rfl⟩ : ∃ j, i = t.sizearray + j := ⟨i - t.sizearray, by omega⟩
    have hrest : t.places - (t.sizearray + j) = t.sizenode - j := by
      rw [Table.places]
      omega
    rw [Nat.sub_eq_zero_of_le (Nat.le_add_right _ _), hrest, hnode, Nat.add_sub_cancel_left]
    rfl

/-- Where a search in a range finds something, it has not found anything before. -/
theorem findSome?_range'_eq_some {β : Type*} {f : ℕ → Option β} {i n : ℕ} {b : β}
    (h : (List.range' i n).findSome? f = some b) :
    ∃ j, i ≤ j ∧ j < i + n ∧ f j = some b ∧ ∀ m, i ≤ m → m < j → f m = none := by
  induction n generalizing i with
  | zero => cases h
  | succ n ih =>
    rw [List.range'_succ, List.findSome?_cons] at h
    cases hi : f i with
    | some c =>
      rw [hi] at h
      exact ⟨i, le_rfl, by omega, hi.trans h, fun m hm hlt => by omega⟩
    | none =>
      rw [hi] at h
      obtain ⟨j, hij, hj, hb, hbefore⟩ := ih h
      refine ⟨j, by omega, by omega, hb, ?_⟩
      intro m hm hlt
      by_cases hmi : m = i
      · rw [hmi]
        exact hi
      · exact hbefore m (by omega) hlt

/-! ### A traversal and what its body does -/

/-- Assignments to fields that are there. `luaH_set` returns the place `luaH_get` finds. -/
def assignExisting (hash : Key → ℕ) (t : Table ν) : List (Key × Option ν) → Table ν
  | [] => t
  | (k, v) :: as =>
    match luaH_get hash t (.key k) with
    | some p => assignExisting hash (t.store p v) as
    | none => assignExisting hash t as

/-- `while (lua_next(...))`: the entries it comes by. The body of the loop makes the assignments
`body i` in the pass `i`. -/
def traverse (hash : Key → ℕ) (body : ℕ → List (Key × Option ν)) :
    ℕ → ℕ → Table ν → Index → Except Fault (List (Key × ν))
  | 0, _, _, _ => .error .stuck
  | fuel+1, i, t, key => do
    match ← luaH_next hash t key with
    | none => return []
    | some (k, v) =>
      let rest ← traverse hash body fuel (i+1) (assignExisting hash t (body i)) (.key k)
      return (k, v) :: rest

/-- The keys are where they were. -/
structure SameKeys (hash : Key → ℕ) (t t' : Table ν) : Prop where
  wf : Wf hash t'
  sizearray : t'.sizearray = t.sizearray
  sizenode : t'.sizenode = t.sizenode
  holds : ∀ p k, t'.Holds p k ↔ t.Holds p k

theorem SameKeys.placeAt {t' : Table ν} (h : SameKeys hash t t') (pos : ℕ) :
    t'.placeAt pos = t.placeAt pos := by
  rw [Table.placeAt, h.sizearray, Table.placeAt]

theorem SameKeys.places {t' : Table ν} (h : SameKeys hash t t') : t'.places = t.places := by
  rw [Table.places, h.sizearray, h.sizenode, Table.places]

theorem Wf.assignExisting_sameKeys (h : Wf hash t) (as : List (Key × Option ν)) :
    SameKeys hash t (assignExisting hash t as) := by
  induction as generalizing t with
  | nil => exact ⟨h, rfl, rfl, fun _ _ => Iff.rfl⟩
  | cons a as ih =>
    rw [assignExisting]
    cases hget : luaH_get hash t (.key a.1) with
    | none => exact ih h
    | some p =>
      have hrest := ih (h.store (h.luaH_get_eq_some_iff.mp hget) a.2)
      refine ⟨hrest.wf, ?_, ?_, ?_⟩
      · rw [hrest.sizearray, store_sizearray]
      · rw [hrest.sizenode, store_sizenode]
      · intro q k
        rw [hrest.holds, store_holds]

/-- What is read behind the assignments was there before, or has been assigned. -/
theorem Wf.read_assignExisting (h : Wf hash t) (as : List (Key × Option ν)) (k : Key) :
    (assignExisting hash t as).read hash k = t.read hash k ∨
      ∃ v, (k, v) ∈ as ∧ (assignExisting hash t as).read hash k = v := by
  induction as generalizing t with
  | nil => exact Or.inl rfl
  | cons a as ih =>
    rw [assignExisting]
    cases hget : luaH_get hash t (.key a.1) with
    | none =>
      rcases ih h with hsame | ⟨v, hv, hread⟩
      · exact Or.inl hsame
      · exact Or.inr ⟨v, List.mem_cons_of_mem a hv, hread⟩
    | some p =>
      have hp := h.luaH_get_eq_some_iff.mp hget
      rcases ih (h.store hp a.2) with hsame | ⟨v, hv, hread⟩
      · rw [h.read_store hp] at hsame
        by_cases hk : k = a.1
        · rw [hk, update_self] at hsame
          refine Or.inr ⟨a.2, ?_, ?_⟩
          · rw [hk]
            exact List.mem_cons_self
          · rw [hk]
            exact hsame
        · rw [update_of_ne hk] at hsame
          exact Or.inl hsame
      · exact Or.inr ⟨v, List.mem_cons_of_mem a hv, hread⟩

/-- What a traversal comes by that goes on from position `i` in its pass `n`. -/
structure Visits (hash : Key → ℕ) (body : ℕ → List (Key × Option ν)) (n i : ℕ) (t : Table ν)
    (vs : List (Key × ν)) : Prop where
  nodup : (vs.map Prod.fst).Nodup
  later : ∀ e ∈ vs, ∃ pos, i ≤ pos ∧ t.Holds (t.placeAt pos) e.1
  every : ∀ pos k, i ≤ pos → t.Holds (t.placeAt pos) k → t.read hash k ≠ none →
    (∀ m, (k, none) ∉ body m) → k ∈ vs.map Prod.fst
  values : ∀ k v, (k, v) ∈ vs → t.read hash k = some v ∨ ∃ m, (k, some v) ∈ body m

theorem Wf.traverse_visits (h : Wf hash t) (body : ℕ → List (Key × Option ν)) {fuel n i : ℕ}
    {key : Index} (hkey : findindex hash t key = .ok ((i : ℤ) - 1)) (hfuel : t.places < fuel + i)
    (hi : i ≤ t.places) :
    ∃ vs, traverse hash body fuel n t key = .ok vs ∧ Visits hash body n i t vs := by
  induction fuel generalizing t n i key with
  | zero => omega
  | succ fuel ih =>
    rw [traverse, luaH_next_eq hkey]
    cases hnext : (List.range' i (t.places - i)).findSome? t.entryAt with
    | none =>
      refine ⟨[], rfl, List.nodup_nil, fun e he => absurd he List.not_mem_nil, ?_,
        fun k v he => absurd he List.not_mem_nil⟩
      intro pos k hpos hholds hread _
      obtain ⟨v, hv⟩ := Option.ne_none_iff_exists'.mp hread
      rw [h.read_of_holds hholds] at hv
      obtain ⟨pos', hlt, hplace⟩ := h.exists_placeAt hholds
      obtain rfl := placeAt_injective hplace
      rw [List.findSome?_eq_none_iff] at hnext
      have hnone := hnext pos' (by rw [List.mem_range'_1]; omega)
      rw [entryAt_eq_some_iff.mpr ⟨hholds, hv⟩] at hnone
      cases hnone
    | some e =>
      obtain ⟨k, v⟩ := e
      obtain ⟨pos, hipos, hpos, hentry, hbefore⟩ := findSome?_range'_eq_some hnext
      obtain ⟨hholds, hval⟩ := entryAt_eq_some_iff.mp hentry
      have hsame := h.assignExisting_sameKeys (body n)
      have hkey' : findindex hash (assignExisting hash t (body n)) (.key k) =
          .ok (((pos + 1 : ℕ) : ℤ) - 1) := by
        have hpos' : (((pos + 1 : ℕ) : ℤ) - 1) = pos := by omega
        rw [hpos']
        apply hsame.wf.findindex_eq
        rw [hsame.placeAt, hsame.holds]
        exact hholds
      obtain ⟨vs, hvs, hvisits⟩ := ih hsame.wf (n := n+1) hkey'
        (by rw [hsame.places]; omega) (by rw [hsame.places]; omega)
      refine ⟨(k, v) :: vs, ?_, ?_, ?_, ?_, ?_⟩
      · show (traverse hash body fuel (n+1) (assignExisting hash t (body n)) (.key k)).bind _ = _
        rw [hvs]
        rfl
      · rw [List.map_cons, List.nodup_cons]
        refine ⟨?_, hvisits.nodup⟩
        intro hk
        obtain ⟨e, he, hek⟩ := List.mem_map.mp hk
        obtain ⟨pos', hlater, hplace⟩ := hvisits.later e he
        rw [hsame.placeAt, hsame.holds, hek] at hplace
        have hpp := placeAt_injective (h.holds_unique hplace hholds)
        omega
      · intro e he
        rcases List.mem_cons.mp he with rfl | he
        · exact ⟨pos, hipos, hholds⟩
        · obtain ⟨pos', hlater, hplace⟩ := hvisits.later e he
          rw [hsame.placeAt, hsame.holds] at hplace
          exact ⟨pos', by omega, hplace⟩
      · intro pos' k' hpos' hholds' hread hkept
        rw [List.map_cons, List.mem_cons]
        by_cases hk : k' = k
        · exact Or.inl hk
        · right
          have hlater : pos + 1 ≤ pos' := by
            by_contra hle
            obtain ⟨w, hw⟩ := Option.ne_none_iff_exists'.mp hread
            rw [h.read_of_holds hholds'] at hw
            have hentry' := entryAt_eq_some_iff.mpr ⟨hholds', hw⟩
            by_cases hpp : pos' = pos
            · rw [hpp] at hholds'
              exact hk (holds_key_unique hholds' hholds)
            · rw [hbefore pos' hpos' (by omega)] at hentry'
              cases hentry'
          apply hvisits.every pos' k' hlater
          · rw [hsame.placeAt, hsame.holds]
            exact hholds'
          · rcases h.read_assignExisting (body n) k' with heq | ⟨w, hw, heq⟩
            · rw [heq]
              exact hread
            · rw [heq]
              intro hnone
              rw [hnone] at hw
              exact hkept n hw
          · exact hkept
      · intro k' w hin
        rcases List.mem_cons.mp hin with heq | hin
        · obtain ⟨rfl, rfl⟩ := Prod.mk.inj heq
          left
          rw [h.read_of_holds hholds]
          exact hval
        · rcases hvisits.values k' w hin with hread | hbody
          · rcases h.read_assignExisting (body n) k' with heq | ⟨x, hx, heq⟩
            · rw [heq] at hread
              exact Or.inl hread
            · rw [heq] at hread
              rw [hread] at hx
              exact Or.inr ⟨n, hx⟩
          · exact Or.inr hbody

/-- A traversal of a table that has been assigned to ends after one call for every place at
most. It comes by no key twice, although its body assigns to fields that are there: it comes by
every entry that is not cleared on the way, with a value that the table had or that the body
has assigned. -/
theorem traversal_visits_each_entry_once (hash : Key → ℕ) (fuel narray nhash : ℕ)
    (hna : narray ≤ MAXASIZE) (hnh : nhash ≤ MAXASIZE) (ops : List (TableOp ν))
    (hops : ∀ op ∈ ops, op.Bounded) (hmany : ops.length ≤ MAXASIZE)
    (body : ℕ → List (Key × Option ν)) :
    ∃ (t₀ t : Table ν) (m : Key → Option ν) (vs : List (Key × ν)), luaH_new narray nhash = .ok t₀ ∧
      t = (attempts (TableOp.apply hash (fuel+2)) t₀ ops).1 ∧
      m = (attempts TableOp.meaning (fun _ => none) ops).1 ∧
      traverse hash body (t.sizearray + t.sizenode + 1) 0 t .nil = .ok vs ∧
      (vs.map Prod.fst).Nodup ∧
      (∀ k, m k ≠ none → (∀ i, (k, none) ∉ body i) → k ∈ vs.map Prod.fst) ∧
      ∀ k v, (k, v) ∈ vs → m k = some v ∨ ∃ i, (k, some v) ∈ body i := by
  obtain ⟨t₀, hnew, -, hend⟩ := standsFor_attempts hash fuel hna hnh hops hmany
  obtain ⟨vs, hvs, hvisits⟩ := hend.wf.traverse_visits body (n := 0) (i := 0)
    (show findindex hash _ .nil = .ok (((0 : ℕ) : ℤ) - 1) from rfl)
    (Nat.lt_succ_self _) (Nat.zero_le _)
  refine ⟨t₀, _, _, vs, hnew, rfl, rfl, hvs, hvisits.nodup, ?_, ?_⟩
  · intro k hk hkept
    rw [← hend.read] at hk
    obtain ⟨v, hv⟩ := Option.ne_none_iff_exists'.mp hk
    obtain ⟨p, hp, -⟩ := hend.wf.read_eq_some_iff.mp hv
    obtain ⟨pos, -, rfl⟩ := hend.wf.exists_placeAt hp
    exact hvisits.every pos k (Nat.zero_le pos) hp hk hkept
  · intro k v hin
    rw [← hend.read]
    exact hvisits.values k v hin

/-- A loop that clears the field 1. -/
def clearFirst : ℕ → List (Key × Option ℕ) := fun _ => [(.integer 1, none)]

theorem traversal_visits_each_entry_once_clearing :
    ∃ (t₀ t : Table ℕ) (m : Key → Option ℕ) (vs : List (Key × ℕ)), luaH_new 0 1 = .ok t₀ ∧
      t = (attempts (TableOp.apply (fun _ => 0) 2) t₀ fiveAssignments).1 ∧
      m = (attempts TableOp.meaning (fun _ => none) fiveAssignments).1 ∧
      traverse (fun _ => 0) clearFirst (t.sizearray + t.sizenode + 1) 0 t .nil = .ok vs ∧
      (vs.map Prod.fst).Nodup ∧
      (∀ k, m k ≠ none → (∀ i, (k, none) ∉ clearFirst i) → k ∈ vs.map Prod.fst) ∧
      ∀ k v, (k, v) ∈ vs → m k = some v ∨ ∃ i, (k, some v) ∈ clearFirst i :=
  traversal_visits_each_entry_once (fun _ => 0) 0 0 1 (by decide) (by decide)
    fiveAssignments fiveAssignments_bounded length_fiveAssignments clearFirst

end LuaIde.Ltable
