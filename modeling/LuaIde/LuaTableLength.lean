import LuaIde.LuaTableMap

/-! The sizes a table takes, and the border that `luaH_getn` finds in it. -/
namespace LuaIde.Ltable

open Function Attempts

variable {ν : Type*} {hash : Key → ℕ} {t : Table ν}

/-- A new key leaves the vectors of a table that has been assigned to as they are, or the table
gets the largest array part of which its integer keys use more than half, and a hash part that
the other keys use by more than half. -/
theorem new_sizes_are_used_by_half (hash : Key → ℕ) (fuel narray nhash : ℕ)
    (hna : narray ≤ MAXASIZE) (hnh : nhash ≤ MAXASIZE) (ops : List (TableOp ν))
    (hops : ∀ op ∈ ops, op.Bounded) (hmany : ops.length ≤ MAXASIZE) (k : Key) :
    ∃ (t₀ t : Table ν) (m : Key → Option ν), luaH_new narray nhash = .ok t₀ ∧
      t = (attempts (TableOp.apply hash (fuel+2)) t₀ ops).1 ∧
      m = (attempts TableOp.meaning (fun _ => none) ops).1 ∧
      ∀ t' p, luaH_set hash (newkey hash (fuel+2)) t (.key k) = .ok (t', p) →
        (t'.sizearray = t.sizearray ∧ t'.lsizenode = t.lsizenode) ∨
        ∃ keys : List Key, keys.Nodup ∧ (∀ q, q ∈ keys ↔ q = k ∨ m q ≠ none) ∧
          (t'.sizearray = 0 ∨ ∃ j ≤ MAXBITS, t'.sizearray = 2 ^ j ∧
            2 ^ j / 2 < keys.countP (fits t'.sizearray)) ∧
          (∀ j ≤ MAXBITS, 2 ^ j / 2 < keys.countP (fits (2 ^ j)) → 2 ^ j ≤ t'.sizearray) ∧
          (t'.dummynode = true ∨
            t'.sizenode < 2 * keys.countP fun q => !fits t'.sizearray q) := by
  obtain ⟨t₀, hnew, -, hend⟩ := standsFor_attempts hash fuel hna hnh hops hmany
  refine ⟨t₀, _, _, hnew, rfl, rfl, ?_⟩
  generalize (attempts (TableOp.apply hash (fuel+2)) t₀ ops).1 = t at hend
  intro t' p hset
  cases hget : luaH_get hash t (.key k) with
  | some q =>
    rw [luaH_set, hget] at hset
    obtain ⟨rfl, -⟩ := Prod.mk.inj (Except.ok.inj hset)
    exact Or.inl ⟨rfl, rfl⟩
  | none =>
    rcases hend.wf.luaH_set_ok k fuel with ⟨t'', p', hset', hsetTo⟩ | ⟨herror, -⟩
    · rw [hset'] at hset
      obtain ⟨rfl, -⟩ := Prod.mk.inj (Except.ok.inj hset)
      rcases hsetTo.sizes with hsame | ⟨hsized, hnodes⟩
      · exact Or.inl hsame
      · refine Or.inr ⟨_, hend.wf.nodup_keysWith hget, ?_, hsized.size, hsized.largest, hnodes⟩
        intro q
        rw [Table.keysWith, List.mem_cons, ← hend.read]
        apply or_congr Iff.rfl
        rw [List.mem_map, Option.ne_none_iff_exists']
        constructor
        · rintro ⟨⟨q', v⟩, hv, rfl⟩
          exact ⟨v, hend.wf.mem_entries.mp hv⟩
        · rintro ⟨v, hv⟩
          exact ⟨(q, v), hend.wf.mem_entries.mpr hv, rfl⟩
    · rw [herror] at hset
      cases hset

theorem new_sizes_are_used_by_half_fiveAssignments :
    ∃ (t₀ t : Table ℕ) (m : Key → Option ℕ), luaH_new 0 1 = .ok t₀ ∧
      t = (attempts (TableOp.apply (fun _ => 0) 2) t₀ fiveAssignments).1 ∧
      m = (attempts TableOp.meaning (fun _ => none) fiveAssignments).1 ∧
      ∀ t' p, luaH_set (fun _ => 0) (newkey (fun _ => 0) 2) t (.key (.boolean true)) =
          .ok (t', p) →
        (t'.sizearray = t.sizearray ∧ t'.lsizenode = t.lsizenode) ∨
        ∃ keys : List Key, keys.Nodup ∧ (∀ q, q ∈ keys ↔ q = .boolean true ∨ m q ≠ none) ∧
          (t'.sizearray = 0 ∨ ∃ j ≤ MAXBITS, t'.sizearray = 2 ^ j ∧
            2 ^ j / 2 < keys.countP (fits t'.sizearray)) ∧
          (∀ j ≤ MAXBITS, 2 ^ j / 2 < keys.countP (fits (2 ^ j)) → 2 ^ j ≤ t'.sizearray) ∧
          (t'.dummynode = true ∨
            t'.sizenode < 2 * keys.countP fun q => !fits t'.sizearray q) :=
  new_sizes_are_used_by_half (fun _ => 0) 0 0 1 (by decide) (by decide) fiveAssignments
    fiveAssignments_bounded length_fiveAssignments (.boolean true)

/-! ### `luaH_getn` -/

theorem Wf.present_eq (h : Wf hash t) (j : ℕ) :
    present hash t j = (t.read hash (.integer j)).isSome := by
  rw [present, Table.read, h.luaH_get_integer]

theorem binarySearch_spec (p : ℕ → Bool) {fuel i j : ℕ} (hfuel : j - i ≤ fuel + 1) (hij : i < j)
    (hi : i = 0 ∨ p i = true) (hj : p j = false) :
    (binarySearch p fuel i j = 0 ∨ p (binarySearch p fuel i j) = true) ∧
      p (binarySearch p fuel i j + 1) = false ∧ binarySearch p fuel i j < j := by
  induction fuel generalizing i j with
  | zero =>
    obtain rfl : j = i + 1 := by omega
    exact ⟨hi, hj, hij⟩
  | succ fuel ih =>
    rw [binarySearch]
    by_cases hgap : j - i > 1
    · rw [if_pos hgap]
      simp only
      cases hm : p ((i + j) / 2) with
      | true =>
        rw [if_pos rfl]
        exact ih (by omega) (by omega) (Or.inr hm) hj
      | false =>
        rw [if_neg Bool.false_ne_true]
        obtain ⟨hn, hnext, hlt⟩ := ih (i := i) (j := (i + j) / 2) (by omega) (by omega) hi hm
        exact ⟨hn, hnext, by omega⟩
    · rw [if_neg hgap]
      obtain rfl : j = i + 1 := by omega
      exact ⟨hi, hj, hij⟩

theorem findAbsent_spec {fuel i j i' j' : ℕ} (hij : i < j) (hi : i = 0 ∨ present hash t i = true)
    (h : findAbsent hash t fuel i j = some (i', j')) :
    i' < j' ∧ (i' = 0 ∨ present hash t i' = true) ∧ present hash t j' = false := by
  induction fuel generalizing i j with
  | zero => cases h
  | succ fuel ih =>
    rw [findAbsent] at h
    cases hj : present hash t j with
    | true =>
      rw [hj, if_pos rfl] at h
      split_ifs at h with hlarge
      exact ih (by omega) (Or.inr hj) h
    | false =>
      rw [hj, if_neg Bool.false_ne_true] at h
      obtain ⟨rfl, rfl⟩ := Prod.mk.inj (Option.some.inj h)
      exact ⟨hij, hi, hj⟩

theorem firstAbsent_spec {fuel i n : ℕ} (hi : 0 < i)
    (hbefore : i - 1 = 0 ∨ present hash t (i-1) = true) (h : firstAbsent hash t fuel i = some n) :
    (n = 0 ∨ present hash t n = true) ∧ present hash t (n+1) = false := by
  induction fuel generalizing i with
  | zero => cases h
  | succ fuel ih =>
    rw [firstAbsent] at h
    cases hp : present hash t i with
    | true =>
      rw [hp, if_pos rfl] at h
      exact ih (Nat.succ_pos i) (Or.inr hp) h
    | false =>
      rw [hp, if_neg Bool.false_ne_true] at h
      obtain rfl := Option.some.inj h
      refine ⟨hbefore, ?_⟩
      rw [Nat.sub_add_cancel hi]
      exact hp

theorem firstAbsent_none {fuel i : ℕ} (h : firstAbsent hash t fuel i = none) :
    ∀ j, i ≤ j → j < i + fuel → present hash t j = true := by
  induction fuel generalizing i with
  | zero =>
    intro j hj hlt
    omega
  | succ fuel ih =>
    rw [firstAbsent] at h
    split_ifs at h with hp
    intro j hj hlt
    by_cases hji : j = i
    · rw [hji]
      exact hp
    · exact ih h j (by omega) (by omega)

theorem length_entries_le_places : t.entries.length ≤ t.sizearray + t.sizenode := by
  rw [Table.entries, List.length_append]
  apply Nat.add_le_add
  · calc (t.slice 0 t.sizearray).length ≤ (List.range' 0 t.sizearray).length :=
          List.length_filterMap_le ..
      _ = t.sizearray := List.length_range'
  · calc (nodeEntries t.node t.sizenode).length ≤ (List.range t.sizenode).length :=
          List.length_filterMap_le ..
      _ = t.sizenode := List.length_range

/-- More keys than there are places are not present. -/
theorem Wf.exists_firstAbsent (h : Wf hash t) :
    ∃ n, firstAbsent hash t (t.sizearray + t.sizenode + 1) 1 = some n := by
  rw [← Option.ne_none_iff_exists']
  intro hnone
  have hall := firstAbsent_none hnone
  have hsub : (List.range' 1 (t.sizearray + t.sizenode + 1)).map
      (fun (j : ℕ) => Key.integer (j : ℤ)) ⊆ t.entries.map Prod.fst := by
    intro k hk
    obtain ⟨j, hj, rfl⟩ := List.mem_map.mp hk
    rw [List.mem_range'_1] at hj
    have hp := hall j hj.1 hj.2
    rw [h.present_eq] at hp
    obtain ⟨v, hv⟩ := Option.isSome_iff_exists.mp hp
    exact List.mem_map.mpr ⟨(.integer j, v), h.mem_entries.mpr hv, rfl⟩
  have hnodup : ((List.range' 1 (t.sizearray + t.sizenode + 1)).map
      (fun (j : ℕ) => Key.integer (j : ℤ))).Nodup := by
    apply List.Nodup.map _ List.nodup_range'
    intro i j hij
    exact Int.ofNat_inj.mp (Key.integer.inj hij)
  have hlen := (List.subperm_of_subset hnodup hsub).length_le
  rw [List.length_map, List.length_map, List.length_range'] at hlen
  have hplaces := length_entries_le_places (t := t)
  omega

/-- A border: the element 0 or one that is present, before one that is not. -/
def Border (present : ℕ → Bool) (n : ℕ) : Prop :=
  (n = 0 ∨ present n = true) ∧ present (n+1) = false

theorem Wf.unbound_search_border (h : Wf hash t) {j : ℕ} (hj : j = 0 ∨ present hash t j = true) :
    ∃ n, unbound_search hash t j = some n ∧ Border (present hash t) n := by
  rw [unbound_search]
  cases hfind : findAbsent hash t 31 j (j+1) with
  | none =>
    obtain ⟨n, hn⟩ := h.exists_firstAbsent
    exact ⟨n, hn, firstAbsent_spec Nat.one_pos (Or.inl rfl) hn⟩
  | some r =>
    obtain ⟨i', j'⟩ := r
    obtain ⟨hlt, hi, hj'⟩ := findAbsent_spec (Nat.lt_succ_self j) hj hfind
    obtain ⟨hn, hnext, -⟩ := binarySearch_spec (present hash t) (Nat.le_succ (j' - i')) hlt hi hj'
    exact ⟨_, rfl, hn, hnext⟩

theorem Wf.present_of_le (h : Wf hash t) {n : ℕ} (hn : n < t.sizearray) :
    present hash t (n+1) = (t.array n).isSome := by
  have hread : t.read hash (.integer ((n+1 : ℕ) : ℤ)) = t.val (.array n) :=
    h.read_of_holds ⟨rfl, hn⟩
  rw [h.present_eq, hread]
  rfl

theorem Wf.luaH_getn_border (h : Wf hash t) :
    ∃ n, luaH_getn hash t = some n ∧ Border (present hash t) n := by
  rw [luaH_getn]
  split_ifs with hlast hdummy
  · -- there is a border in the array part
    obtain ⟨hn, hnext, hlt⟩ := binarySearch_spec (fun m => (t.array (m-1)).isSome)
      (i := 0) (Nat.le_succ t.sizearray) hlast.1 (Or.inl rfl)
      (by rw [Option.isNone_iff_eq_none.mp hlast.2]; rfl)
    refine ⟨_, rfl, ?_⟩
    generalize binarySearch (fun m => (t.array (m-1)).isSome) t.sizearray 0 t.sizearray = n
      at hn hnext hlt
    constructor
    · cases n with
      | zero => exact Or.inl rfl
      | succ n =>
        right
        have hin : n + 1 < t.sizearray := hlt
        rw [h.present_of_le (show n < t.sizearray by omega)]
        exact hn.resolve_left (Nat.succ_ne_zero n)
    · rw [h.present_of_le hlt]
      exact hnext
  all_goals
    have hj : t.sizearray = 0 ∨ present hash t t.sizearray = true := by
      cases hsize : t.sizearray with
      | zero => exact Or.inl rfl
      | succ n =>
        right
        have hn : n < t.sizearray := by omega
        rw [h.present_of_le hn]
        rw [hsize] at hlast
        by_contra hnone
        exact hlast ⟨Nat.succ_pos n, by simpa using hnone⟩
  · refine ⟨_, rfl, hj, ?_⟩
    rw [h.present_eq, Option.isSome_eq_false_iff, Option.isNone_iff_eq_none,
      Option.eq_none_iff_forall_ne_some]
    intro v hv
    obtain ⟨p, hp, -⟩ := h.read_eq_some_iff.mp hv
    cases p with
    | array i =>
      have hi := hp.2
      have hkey := Key.integer.inj hp.1
      omega
    | node i =>
      have hkey : (t.node i).key = _ := hp
      rw [(h.dummy hdummy).2.2 i] at hkey
      cases hkey
  · exact h.unbound_search_border hj

/-- `luaH_getn` always finds a border of what has been assigned to the table. -/
theorem luaH_getn_is_border (hash : Key → ℕ) (fuel narray nhash : ℕ)
    (hna : narray ≤ MAXASIZE) (hnh : nhash ≤ MAXASIZE) (ops : List (TableOp ν))
    (hops : ∀ op ∈ ops, op.Bounded) (hmany : ops.length ≤ MAXASIZE) :
    ∃ (t₀ t : Table ν) (m : Key → Option ν) (n : ℕ), luaH_new narray nhash = .ok t₀ ∧
      t = (attempts (TableOp.apply hash (fuel+2)) t₀ ops).1 ∧
      m = (attempts TableOp.meaning (fun _ => none) ops).1 ∧
      luaH_getn hash t = some n ∧
      (n = 0 ∨ m (.integer n) ≠ none) ∧ m (.integer (n+1)) = none := by
  obtain ⟨t₀, hnew, -, hend⟩ := standsFor_attempts hash fuel hna hnh hops hmany
  obtain ⟨n, hn, hborder, hnext⟩ := hend.wf.luaH_getn_border
  refine ⟨t₀, _, _, n, hnew, rfl, rfl, hn, ?_, ?_⟩
  · rw [← hend.read, ← Option.isSome_iff_ne_none, ← hend.wf.present_eq]
    exact hborder
  · rw [hend.wf.present_eq, hend.read, Option.isSome_eq_false_iff,
      Option.isNone_iff_eq_none] at hnext
    exact hnext

theorem luaH_getn_is_border_fiveAssignments :
    ∃ (t₀ t : Table ℕ) (m : Key → Option ℕ) (n : ℕ), luaH_new 0 1 = .ok t₀ ∧
      t = (attempts (TableOp.apply (fun _ => 0) 2) t₀ fiveAssignments).1 ∧
      m = (attempts TableOp.meaning (fun _ => none) fiveAssignments).1 ∧
      luaH_getn (fun _ => 0) t = some n ∧
      (n = 0 ∨ m (.integer n) ≠ none) ∧ m (.integer (n+1)) = none :=
  luaH_getn_is_border (fun _ => 0) 0 0 1 (by decide) (by decide) fiveAssignments
    fiveAssignments_bounded length_fiveAssignments

end LuaIde.Ltable
