import LuaIde.LuaTableResize
import Mathlib.Algebra.BigOperators.Group.Finset.Piecewise
import Mathlib.Algebra.Order.BigOperators.Group.Finset

/-! What `rehash` counts, the sizes it takes from that, and assignments to any key. -/
namespace LuaIde.Ltable

open Function ChainedScatter

variable {ν : Type*} {hash : Key → ℕ} {t : Table ν}

/-- The key is one of those between `2 ^ (lg-1)` and `2 ^ lg`. -/
def inSlice (lg : ℕ) : Key → Bool
  | .integer m => 0 < m ∧ m ≤ MAXASIZE ∧ ceillog2 m.toNat = lg
  | _ => false

theorem countint_eq (k : Key) (nums : ℕ → ℕ) : countint k nums =
    ((if fits MAXASIZE k = true then 1 else 0),
      fun lg => nums lg + if inSlice lg k = true then 1 else 0) := by
  have hother (k : Key) (hk : arrayindex k = -1) (hfits : fits MAXASIZE k = false)
      (hslice : ∀ lg, inSlice lg k = false) : countint k nums =
        ((if fits MAXASIZE k = true then 1 else 0),
          fun lg => nums lg + if inSlice lg k = true then 1 else 0) := by
    simp [countint, hk, hfits, hslice]
  cases k with
  | integer m =>
    have hmax : MAXASIZE = 67108864 := rfl
    by_cases hm : 0 < m ∧ m ≤ MAXASIZE
    · have hindex : arrayindex (.integer m) = m := if_pos (by omega)
      have hfits : fits MAXASIZE (.integer m) = true := decide_eq_true (by omega)
      rw [countint, hindex, if_pos hm, if_pos hfits]
      congr 1
      funext lg
      by_cases hlg : lg = ceillog2 m.toNat
      · rw [hlg, update_self, if_pos]
        exact decide_eq_true ⟨hm.1, hm.2, rfl⟩
      · rw [update_of_ne hlg, if_neg, Nat.add_zero]
        simp only [inSlice, decide_eq_true_eq]
        exact fun hin => hlg hin.2.2.symm
    · have hindex : ¬ (0 < arrayindex (.integer m) ∧ arrayindex (.integer m) ≤ MAXASIZE) := by
        rw [arrayindex]
        split_ifs <;> omega
      have hfits : fits MAXASIZE (.integer m) = false := decide_eq_false (by omega)
      have hslice (lg : ℕ) : inSlice lg (.integer m) = false :=
        decide_eq_false fun hin => hm ⟨hin.1, hin.2.1⟩
      rw [countint, if_neg hindex, hfits]
      simp [hslice]
  | number b => exact hother _ rfl rfl fun _ => rfl
  | string s => exact hother _ rfl rfl fun _ => rfl
  | boolean b => exact hother _ rfl rfl fun _ => rfl
  | pointer tt a => exact hother _ rfl rfl fun _ => rfl

theorem numusehashLoop_eq (i ause totaluse : ℕ) (nums : ℕ → ℕ) :
    numusehashLoop t i ause totaluse nums =
      (ause + (nodeEntries t.node i).countP fun e => fits MAXASIZE e.1,
        totaluse + (nodeEntries t.node i).length,
        fun lg => nums lg + (nodeEntries t.node i).countP fun e => inSlice lg e.1) := by
  induction i generalizing ause totaluse nums with
  | zero => rfl
  | succ i ih =>
    rw [nodeEntries_succ, numusehashLoop]
    cases hkey : (t.node i).key with
    | none => simp [ih]
    | some k =>
      cases hval : (t.node i).val with
      | none => simp [ih]
      | some v =>
        simp only [countint_eq, ih, Option.bind_some, Option.map_some, Option.toList_some,
          List.countP_append, List.countP_singleton, List.length_append, List.length_singleton,
          Prod.mk.injEq]
        refine ⟨by omega, by omega, ?_⟩
        funext lg
        omega

/-- Behind the last element there is nothing left to count. -/
theorem numusearrayLoop_done (rest lg : ℕ) {ttlg i : ℕ} (ause : ℕ) (nums : ℕ → ℕ)
    (httlg : ttlg > t.sizearray) (hi : i > t.sizearray) :
    numusearrayLoop t rest lg ttlg i ause nums = (ause, nums) := by
  cases rest with
  | zero => rfl
  | succ rest => rw [numusearrayLoop, if_pos ⟨httlg, hi⟩]

theorem length_slice (first length : ℕ) : (t.slice first length).length =
    (List.range' (first+1) length).countP fun i => (t.array (i-1)).isSome := by
  rw [Table.slice, List.length_filterMap_eq_countP, Nat.add_comm first 1,
    ← List.map_add_range', List.countP_map]
  congr 1
  funext i
  simp [Nat.add_comm 1 i]

/-- The keys of a slice are counted with the power of two they are below. -/
theorem countP_slice {lg first length : ℕ} (hlg : lg ≤ MAXBITS) (hfirst : 2 ^ lg / 2 ≤ first)
    (hlast : first + length ≤ 2 ^ lg) (l : ℕ) :
    ((t.slice first length).countP fun e => inSlice l e.1) =
      if l = lg then (t.slice first length).length else 0 := by
  have hin (e : Key × ν) (he : e ∈ t.slice first length) : inSlice l e.1 = decide (l = lg) := by
    obtain ⟨k, v⟩ := e
    obtain ⟨i, hi, hi', rfl, -⟩ := mem_slice.mp he
    have hmax : 2 ^ lg ≤ MAXASIZE := Nat.pow_le_pow_right Nat.two_pos hlg
    have hto : ((i : ℤ) + 1).toNat = i + 1 := rfl
    have hlog : ceillog2 (i+1) = lg := by
      apply le_antisymm
      · rw [ceillog2_le_iff (Nat.succ_pos i)]
        omega
      · cases lg with
        | zero => exact Nat.zero_le _
        | succ lg =>
          by_contra hlt
          have hle := (ceillog2_le_iff (show 0 < i + 1 by omega) lg).mp (by omega)
          rw [Nat.pow_succ] at hfirst
          omega
    rw [inSlice, hto, hlog]
    apply Bool.decide_congr
    constructor
    · intro h
      exact h.2.2.symm
    · intro h
      exact ⟨by omega, by omega, h.symm⟩
  split_ifs with hl
  · rw [List.countP_eq_length]
    intro e he
    rw [hin e he]
    exact decide_eq_true hl
  · rw [List.countP_eq_zero]
    intro e he
    rw [hin e he]
    simpa using hl

theorem numusearrayLoop_eq (hsize : t.sizearray ≤ MAXASIZE) (rest lg ause : ℕ) (nums : ℕ → ℕ)
    (hrest : rest + lg = MAXBITS + 1) :
    numusearrayLoop t rest lg (2 ^ lg) (2 ^ lg / 2 + 1) ause nums =
      (ause + (t.slice (2 ^ lg / 2) (t.sizearray - 2 ^ lg / 2)).length, fun l => nums l +
        (t.slice (2 ^ lg / 2) (t.sizearray - 2 ^ lg / 2)).countP fun e => inSlice l e.1) := by
  have hnone (n : ℕ) (hn : t.sizearray ≤ n) : t.slice n (t.sizearray - n) = [] := by
    rw [Nat.sub_eq_zero_of_le hn]
    rfl
  induction rest generalizing lg ause nums with
  | zero =>
    obtain rfl : lg = MAXBITS + 1 := by omega
    rw [hnone _ (by rw [Nat.pow_succ, Nat.mul_div_cancel _ Nat.two_pos]; exact hsize)]
    rfl
  | succ rest ih =>
    rw [numusearrayLoop]
    by_cases hdone : 2 ^ lg > t.sizearray ∧ 2 ^ lg / 2 + 1 > t.sizearray
    · rw [if_pos hdone, hnone _ (by omega)]
      rfl
    · rw [if_neg hdone]
      simp only
      have hlc (n : ℕ) : (List.range' (2 ^ lg / 2 + 1) n).countP
          (fun i => (t.array (i-1)).isSome) = (t.slice (2 ^ lg / 2) n).length :=
        (length_slice _ _).symm
      have hdouble : 2 ^ (lg+1) / 2 = 2 ^ lg := by
        rw [Nat.pow_succ, Nat.mul_div_cancel _ Nat.two_pos]
      have hcount (n : ℕ) (hn : 2 ^ lg / 2 + n ≤ 2 ^ lg) :
          update nums lg (nums lg + (t.slice (2 ^ lg / 2) n).length) =
            fun l => nums l + (t.slice (2 ^ lg / 2) n).countP fun e => inSlice l e.1 := by
        funext l
        rw [countP_slice (by omega) le_rfl hn]
        by_cases hl : l = lg
        · rw [hl, update_self, if_pos rfl]
        · rw [update_of_ne hl, if_neg hl, Nat.add_zero]
      rw [hlc]
      by_cases hlast : 2 ^ lg > t.sizearray
      · -- the last slice
        have hmin : min (2 ^ lg) t.sizearray = t.sizearray := by omega
        have hlen : t.sizearray + 1 - (2 ^ lg / 2 + 1) = t.sizearray - 2 ^ lg / 2 := by omega
        rw [hmin, hlen, hcount _ (by omega)]
        exact numusearrayLoop_done _ _ _ _ (by omega) (by omega)
      · have hmin : min (2 ^ lg) t.sizearray = 2 ^ lg := Nat.min_eq_left (Nat.not_lt.mp hlast)
        have hmax : max (2 ^ lg / 2 + 1) (2 ^ lg + 1) = 2 ^ (lg+1) / 2 + 1 := by
          rw [hdouble]
          exact Nat.max_eq_right (Nat.succ_le_succ (Nat.div_le_self _ _))
        have hlen : 2 ^ lg + 1 - (2 ^ lg / 2 + 1) = 2 ^ lg - 2 ^ lg / 2 := by omega
        rw [hmin, hmax, hlen, ← Nat.pow_succ, ih (lg+1) _ _ (by omega), hdouble,
          hcount _ (by omega)]
        have hsplit : t.slice (2 ^ lg / 2) (t.sizearray - 2 ^ lg / 2) =
            t.slice (2 ^ lg / 2) (2 ^ lg - 2 ^ lg / 2) ++
              t.slice (2 ^ lg) (t.sizearray - 2 ^ lg) := by
          have happend := slice_append (t := t) (2 ^ lg / 2) (2 ^ lg - 2 ^ lg / 2)
            (t.sizearray - 2 ^ lg)
          have hsum : 2 ^ lg - 2 ^ lg / 2 + (t.sizearray - 2 ^ lg) = t.sizearray - 2 ^ lg / 2 := by
            omega
          rw [hsum, Nat.add_sub_cancel' (Nat.div_le_self _ _)] at happend
          exact happend
        rw [hsplit]
        simp only [List.length_append, List.countP_append, Nat.add_assoc]

theorem numusearray_eq (hsize : t.sizearray ≤ MAXASIZE) (nums : ℕ → ℕ) : numusearray t nums =
    ((t.slice 0 t.sizearray).length,
      fun l => nums l + (t.slice 0 t.sizearray).countP fun e => inSlice l e.1) := by
  have hloop := numusearrayLoop_eq hsize (MAXBITS+1) 0 0 nums rfl
  rw [Nat.zero_add] at hloop
  exact hloop

/-! ### `computesizes` -/

/-- What `computesizes` has found out about the powers below `2 ^ i`: `n` is the largest of
which more than half is counted, and `na` counts up to it. -/
structure Best (nums : ℕ → ℕ) (i n na : ℕ) : Prop where
  size : (n = 0 ∧ na = 0) ∨
    ∃ j < i, n = 2 ^ j ∧ na = ∑ l ∈ Finset.range (j+1), nums l ∧ 2 ^ j / 2 < na
  largest : ∀ j < i, 2 ^ j / 2 < ∑ l ∈ Finset.range (j+1), nums l → 2 ^ j ≤ n

section Sizes

variable {nums : ℕ → ℕ} {narray : ℕ}

/-- The powers from `2 ^ i` on are too large. -/
theorem Best.extend {i n na m : ℕ} (h : Best nums i n na) (him : i ≤ m)
    (hlarge : ∀ j, i ≤ j → j < m → ∑ l ∈ Finset.range (j+1), nums l ≤ 2 ^ j / 2) :
    Best nums m n na where
  size := by
    rcases h.size with hzero | ⟨j, hj, hn⟩
    · exact Or.inl hzero
    · exact Or.inr ⟨j, by omega, hn⟩
  largest := by
    intro j hj hhalf
    by_cases hji : j < i
    · exact h.largest j hji hhalf
    · exact absurd hhalf (Nat.not_lt.mpr (hlarge j (by omega) hj))

theorem computesizesLoop_best {bound : ℕ}
    (hsmall : ∀ j < bound, ∑ l ∈ Finset.range (j+1), nums l ≤ 2 ^ j)
    (htotal : ∑ l ∈ Finset.range bound, nums l = narray) (rest i na n : ℕ)
    (hrest : rest + i = bound) (h : Best nums i n na) :
    ∃ n' na', computesizesLoop nums narray rest i (2 ^ i) (∑ l ∈ Finset.range i, nums l) na n =
      (n', na') ∧ Best nums bound n' na' := by
  have hle (j : ℕ) (hj : j < bound) : ∑ l ∈ Finset.range (j+1), nums l ≤ narray := by
    rw [← htotal]
    exact Finset.sum_le_sum_of_subset (Finset.range_subset_range.mpr hj)
  induction rest generalizing i na n with
  | zero =>
    obtain rfl : i = bound := by omega
    exact ⟨n, na, rfl, h⟩
  | succ rest ih =>
    rw [computesizesLoop]
    have hsum : (if nums i > 0 then ∑ l ∈ Finset.range i, nums l + nums i
        else ∑ l ∈ Finset.range i, nums l) = ∑ l ∈ Finset.range (i+1), nums l := by
      rw [Finset.sum_range_succ]
      split_ifs with hpos
      · rfl
      · omega
    by_cases hhalf : 2 ^ i / 2 < narray
    · rw [if_pos hhalf]
      simp only [hsum]
      -- a slice without a key does not make up the half
      have hkeys : 2 ^ i / 2 < ∑ l ∈ Finset.range (i+1), nums l → nums i > 0 := by
        intro hlt
        by_contra hzero
        rw [Finset.sum_range_succ] at hlt
        cases i with
        | zero => simp at hlt; omega
        | succ i =>
          have hprev := hsmall i (by omega)
          rw [Nat.pow_succ, Nat.mul_div_cancel _ Nat.two_pos] at hlt
          omega
      have hnext : Best nums (i+1)
          (if nums i > 0 ∧ ∑ l ∈ Finset.range (i+1), nums l > 2 ^ i / 2 then
            (∑ l ∈ Finset.range (i+1), nums l, 2 ^ i) else (na, n)).2
          (if nums i > 0 ∧ ∑ l ∈ Finset.range (i+1), nums l > 2 ^ i / 2 then
            (∑ l ∈ Finset.range (i+1), nums l, 2 ^ i) else (na, n)).1 := by
        by_cases hmore : 2 ^ i / 2 < ∑ l ∈ Finset.range (i+1), nums l
        · rw [if_pos ⟨hkeys hmore, hmore⟩]
          refine ⟨Or.inr ⟨i, Nat.lt_succ_self i, rfl, rfl, hmore⟩, ?_⟩
          intro j hj _
          exact Nat.pow_le_pow_right Nat.two_pos (by omega)
        · rw [if_neg (fun hand => hmore hand.2)]
          apply h.extend (Nat.le_succ i)
          intro j hij hj
          obtain rfl : j = i := by omega
          exact Nat.not_lt.mp hmore
      by_cases hall : ∑ l ∈ Finset.range (i+1), nums l = narray
      · rw [if_pos hall]
        refine ⟨_, _, rfl, hnext.extend (by omega) ?_⟩
        intro j hij hj
        calc ∑ l ∈ Finset.range (j+1), nums l ≤ narray := hle j hj
          _ = ∑ l ∈ Finset.range (i+1), nums l := hall.symm
          _ ≤ 2 ^ i := hsmall i (by omega)
          _ = 2 ^ (i+1) / 2 := by rw [Nat.pow_succ, Nat.mul_div_cancel _ Nat.two_pos]
          _ ≤ 2 ^ j / 2 := Nat.div_le_div_right (Nat.pow_le_pow_right Nat.two_pos hij)
      · rw [if_neg hall, ← Nat.pow_succ]
        exact ih (i+1) _ _ (by omega) hnext
    · rw [if_neg hhalf]
      refine ⟨n, na, rfl, h.extend (by omega) ?_⟩
      intro j hij hj
      calc ∑ l ∈ Finset.range (j+1), nums l ≤ narray := hle j hj
        _ ≤ 2 ^ i / 2 := Nat.not_lt.mp hhalf
        _ ≤ 2 ^ j / 2 := Nat.div_le_div_right (Nat.pow_le_pow_right Nat.two_pos hij)

theorem computesizes_best
    (hsmall : ∀ j ≤ MAXBITS, ∑ l ∈ Finset.range (j+1), nums l ≤ 2 ^ j)
    (htotal : ∑ l ∈ Finset.range (MAXBITS+1), nums l = narray) :
    Best nums (MAXBITS+1) (computesizes nums narray).1 (computesizes nums narray).2 := by
  obtain ⟨n, na, hloop, hbest⟩ := computesizesLoop_best
    (fun j hj => hsmall j (Nat.le_of_lt_succ hj)) htotal (MAXBITS+1) 0 0 0 rfl
    ⟨Or.inl ⟨rfl, rfl⟩, fun j hj => by omega⟩
  have hcompute : computesizes nums narray = (n, na) := hloop
  rw [hcompute]
  exact hbest

end Sizes

/-- The slices up to `2 ^ j` make up the keys an array of that size has room for. -/
theorem sum_inSlice (k : Key) {j : ℕ} (hj : j ≤ MAXBITS) :
    (∑ l ∈ Finset.range (j+1), if inSlice l k = true then 1 else 0) =
      if fits (2 ^ j) k = true then 1 else 0 := by
  have hother (hslice : ∀ l, inSlice l k = false) (hfits : fits (2 ^ j) k = false) :
      (∑ l ∈ Finset.range (j+1), if inSlice l k = true then 1 else 0) =
        if fits (2 ^ j) k = true then 1 else 0 := by
    simp [hslice, hfits]
  cases k with
  | integer m =>
    have hmax : 2 ^ j ≤ MAXASIZE := Nat.pow_le_pow_right Nat.two_pos hj
    have hslice (l : ℕ) : (if inSlice l (.integer m) = true then 1 else 0) =
        if l = ceillog2 m.toNat then (if 0 < m ∧ m ≤ MAXASIZE then 1 else 0) else 0 := by
      simp only [inSlice, decide_eq_true_eq]
      by_cases hl : l = ceillog2 m.toNat
      · rw [if_pos hl, hl]
        simp
      · rw [if_neg hl, if_neg]
        exact fun hin => hl hin.2.2.symm
    rw [Finset.sum_congr rfl (fun l _ => hslice l), Finset.sum_ite_eq']
    simp only [fits, decide_eq_true_eq, Finset.mem_range, Nat.lt_succ_iff]
    by_cases hm : 0 < m
    · have hlog := ceillog2_le_iff (show 0 < m.toNat by omega) j
      have hcast : m.toNat ≤ 2 ^ j ↔ m - 1 < ((2 ^ j : ℕ) : ℤ) := by
        rw [Int.toNat_le]
        omega
      by_cases hlt : m.toNat ≤ 2 ^ j
      · rw [if_pos (hlog.mpr hlt), if_pos ⟨hm, by omega⟩, if_pos ⟨by omega, hcast.mp hlt⟩]
      · rw [if_neg (fun hle => hlt (hlog.mp hle)), if_neg]
        exact fun hin => hlt (hcast.mpr hin.2)
    · have hno : ¬ (0 < m ∧ m ≤ MAXASIZE) := fun hin => hm hin.1
      have hno' : ¬ (0 ≤ m - 1 ∧ m - 1 < ((2 ^ j : ℕ) : ℤ)) := by omega
      rw [if_neg hno, ite_self, if_neg hno']
  | number b => exact hother (fun _ => rfl) rfl
  | string s => exact hother (fun _ => rfl) rfl
  | boolean b => exact hother (fun _ => rfl) rfl
  | pointer tt a => exact hother (fun _ => rfl) rfl

theorem sum_countP_inSlice (ks : List Key) {j : ℕ} (hj : j ≤ MAXBITS) :
    ∑ l ∈ Finset.range (j+1), ks.countP (inSlice l) = ks.countP (fits (2 ^ j)) := by
  induction ks with
  | nil => simp
  | cons k ks ih =>
    simp only [List.countP_cons, Finset.sum_add_distrib]
    rw [ih, sum_inSlice k hj]

/-- No more than `n` keys have room in an array of that size. -/
theorem countP_fits_le {ks : List Key} (hnodup : ks.Nodup) (n : ℕ) : ks.countP (fits n) ≤ n := by
  have hsub : ks.filter (fits n) ⊆ (List.range n).map fun (i : ℕ) => Key.integer ((i : ℤ)+1) := by
    intro k hk
    have hfits := (List.mem_filter.mp hk).2
    cases k with
    | integer m =>
      have hm : 0 ≤ m - 1 ∧ m - 1 < n := of_decide_eq_true hfits
      rw [List.mem_map]
      refine ⟨(m-1).toNat, ?_, ?_⟩
      · rw [List.mem_range]
        omega
      · congr 1
        omega
    | number b => cases hfits
    | string s => cases hfits
    | boolean b => cases hfits
    | pointer tt a => cases hfits
  have hlen := (List.subperm_of_subset (hnodup.filter _) hsub).length_le
  rw [List.length_map, List.length_range] at hlen
  rw [List.countP_eq_length_filter]
  exact hlen

/-! ### `rehash` -/

/-- The keys a rehash makes room for. -/
def Table.keysWith (t : Table ν) (ek : Key) : List Key := ek :: t.entries.map Prod.fst

theorem Wf.nodup_keysWith (h : Wf hash t) {ek : Key} (hk : luaH_get hash t (.key ek) = none) :
    (t.keysWith ek).Nodup := by
  rw [Table.keysWith, List.nodup_cons]
  refine ⟨?_, h.nodup_entries⟩
  intro hin
  obtain ⟨⟨k, v⟩, hv, rfl⟩ := List.mem_map.mp hin
  rw [h.mem_entries, Table.read, hk] at hv
  cases hv

/-- The sizes for the keys: the array part is the largest power of two of which more than half
would be in use. -/
structure Sized (keys : List Key) (nasize : ℕ) : Prop where
  size : nasize = 0 ∨ ∃ j ≤ MAXBITS, nasize = 2 ^ j ∧ 2 ^ j / 2 < keys.countP (fits nasize)
  largest : ∀ j ≤ MAXBITS, 2 ^ j / 2 < keys.countP (fits (2 ^ j)) → 2 ^ j ≤ nasize

theorem Sized.le_max {keys : List Key} {nasize : ℕ} (h : Sized keys nasize) :
    nasize ≤ MAXASIZE := by
  rcases h.size with hzero | ⟨j, hj, hpow, -⟩
  · rw [hzero]
    exact Nat.zero_le _
  · rw [hpow]
    exact Nat.pow_le_pow_right Nat.two_pos hj

/-- `computesizes` of the counts of different keys: the size, and how many keys go there. -/
theorem computesizes_sized {keys : List Key} (hnodup : keys.Nodup) (nums : ℕ → ℕ) {narray : ℕ}
    (hnums : ∀ l, nums l = keys.countP (inSlice l))
    (hnarray : narray = keys.countP (fits MAXASIZE)) :
    Sized keys (computesizes nums narray).1 ∧
      (computesizes nums narray).2 = keys.countP (fits (computesizes nums narray).1) := by
  obtain rfl : nums = fun l => keys.countP (inSlice l) := funext hnums
  obtain rfl := hnarray
  have hsum {j : ℕ} (hj : j ≤ MAXBITS) := sum_countP_inSlice keys hj
  have hbest := computesizes_best
    (fun j hj => (hsum hj).le.trans (countP_fits_le hnodup _)) (hsum le_rfl)
  generalize hna : computesizes (fun l => keys.countP (inSlice l))
    (keys.countP (fits (2 ^ MAXBITS))) = r at hbest
  have hsame : computesizes (fun l => keys.countP (inSlice l)) (keys.countP (fits MAXASIZE)) = r :=
    hna
  rw [hsame]
  have hlargest : ∀ j ≤ MAXBITS, 2 ^ j / 2 < keys.countP (fits (2 ^ j)) → 2 ^ j ≤ r.1 := by
    intro j hj hhalf
    apply hbest.largest j (Nat.lt_succ_of_le hj)
    rw [hsum hj]
    exact hhalf
  rcases hbest.size with ⟨hn, ha⟩ | ⟨j, hj, hn, ha, hhalf⟩
  · refine ⟨⟨Or.inl hn, hlargest⟩, ?_⟩
    have hzero := countP_fits_le hnodup 0
    rw [hn, ha]
    omega
  · rw [hsum (Nat.le_of_lt_succ hj)] at ha
    rw [hn]
    refine ⟨⟨Or.inr ⟨j, Nat.le_of_lt_succ hj, rfl, ?_⟩, ?_⟩, ha⟩
    · rw [← ha]
      exact hhalf
    · rw [← hn]
      exact hlargest

theorem countP_fits_slice (n : ℕ) (hsize : t.sizearray ≤ n) :
    ((t.slice 0 t.sizearray).countP fun e => fits n e.1) = (t.slice 0 t.sizearray).length := by
  rw [List.countP_eq_length]
  rintro ⟨k, v⟩ he
  obtain ⟨i, -, hi, rfl, -⟩ := mem_slice.mp he
  exact decide_eq_true (by omega)

/-- A rehash resizes to the sizes for the keys of the table and the new one. -/
theorem Wf.rehash_eq (h : Wf hash t) (ek : Key) (hk : luaH_get hash t (.key ek) = none)
    (newkey : Table ν → Key → Except Fault (Table ν × Place)) :
    ∃ nasize, Sized (t.keysWith ek) nasize ∧ rehash hash newkey t ek =
      resize hash newkey t nasize ((t.keysWith ek).countP fun k => !fits nasize k) := by
  have hcountP (p : Key → Bool) : (t.keysWith ek).countP p =
      ((t.slice 0 t.sizearray).countP fun e => p e.1) +
        ((nodeEntries t.node t.sizenode).countP fun e => p e.1) +
          if p ek = true then 1 else 0 := by
    rw [Table.keysWith, List.countP_cons, List.countP_map, Table.entries, List.countP_append]
    rfl
  have hsized := computesizes_sized (h.nodup_keysWith hk)
    (fun l => (t.keysWith ek).countP (inSlice l)) (fun _ => rfl) rfl
  refine ⟨_, hsized.1, ?_⟩
  rw [rehash, numusearray_eq h.arraySize]
  simp only [numusehash, numusehashLoop_eq, countint_eq, Nat.zero_add]
  have hnums : (fun lg => ((t.slice 0 t.sizearray).countP fun e => inSlice lg e.1) +
      ((nodeEntries t.node t.sizenode).countP fun e => inSlice lg e.1) +
        if inSlice lg ek = true then 1 else 0) =
      fun l => (t.keysWith ek).countP (inSlice l) := by
    funext l
    rw [hcountP]
  have hnarray : (t.slice 0 t.sizearray).length +
      ((nodeEntries t.node t.sizenode).countP fun e => fits MAXASIZE e.1) +
        (if fits MAXASIZE ek = true then 1 else 0) = (t.keysWith ek).countP (fits MAXASIZE) := by
    rw [hcountP, countP_fits_slice _ h.arraySize]
  rw [hnums, hnarray, hsized.2]
  congr 1
  have hlen := List.length_eq_countP_add_countP
    (fits (computesizes (fun l => (t.keysWith ek).countP (inSlice l))
      ((t.keysWith ek).countP (fits MAXASIZE))).1) (l := t.keysWith ek)
  have hlength : (t.keysWith ek).length =
      (t.slice 0 t.sizearray).length + (nodeEntries t.node t.sizenode).length + 1 := by
    rw [Table.keysWith, List.length_cons, List.length_map, Table.entries, List.length_append]
  simp only [Bool.not_eq_true] at hlen
  rw [← hlength, hlen, Nat.add_sub_cancel_left]
  apply List.countP_congr
  simp

/-! ### `luaH_set` -/

/-- No node is free. -/
theorem Wf.full (h : Wf hash t) (hfree : getfreepos t.node t.lastfree = none) :
    Wf hash { t with lastfree := 0 } where
  linked := h.linked
  inside := h.inside
  keyed := h.keyed
  apart := h.apart
  used := by
    intro j _ hj hd
    by_cases hlast : t.lastfree ≤ j
    · exact h.used hlast hj hd
    · exact getfreepos_none hfree j (Nat.not_le.mp hlast)
  lastfree_le := Nat.zero_le _
  dummy := fun hd => ⟨(h.dummy hd).1, rfl, (h.dummy hd).2.2⟩
  arraySize := h.arraySize
  nodeSize := h.nodeSize

/-- `t'` is `t` with a place `p` for the key. The vectors have kept their sizes, or a rehash has
chosen new ones: no hash part, or one that the keys without room in the array part fill by more
than half. -/
structure SetTo (hash : Key → ℕ) (t : Table ν) (k : Key) (t' : Table ν) (p : Place) : Prop where
  wf : Wf hash t'
  holds : t'.Holds p k
  read : t'.read hash = t.read hash
  sizes : (t'.sizearray = t.sizearray ∧ t'.lsizenode = t.lsizenode) ∨
    (Sized (t.keysWith k) t'.sizearray ∧ (t'.dummynode = true ∨
      t'.sizenode < 2 * (t.keysWith k).countP fun k => !fits t'.sizearray k))

/-- Behind a rehash there is a place for the key. -/
theorem Resized.luaH_set_ok {t' : Table ν} {k : Key} {nasize nhsize : ℕ}
    (h : Resized hash t t' nasize nhsize) (hsized : Sized (t.keysWith k) nasize)
    (hcount : nhsize = (t.keysWith k).countP fun k => !fits nasize k) (fuel : ℕ) :
    ∃ t'' p, luaH_set hash (newkey hash (fuel+1)) t' (.key k) = .ok (t'', p) ∧
      SetTo hash t k t'' p := by
  have hnodes {u : Table ν} (hlsize : u.lsizenode = t'.lsizenode)
      (hdummy : u.dummynode = t'.dummynode) :
      u.dummynode = true ∨ u.sizenode < 2 * (t.keysWith k).countP fun k => !fits nasize k := by
    rw [hdummy, h.dummynode, Table.sizenode, hlsize, h.lsizenode, ← hcount]
    by_cases hzero : nhsize = 0
    · exact Or.inl (decide_eq_true hzero)
    · exact Or.inr (pow_ceillog2_lt (Nat.pos_of_ne_zero hzero))
  rw [luaH_set]
  cases hget : luaH_get hash t' (.key k) with
  | some p =>
    refine ⟨t', p, rfl, h.wf, h.wf.luaH_get_eq_some_iff.mp hget, h.read, Or.inr ⟨?_, ?_⟩⟩
    · rw [h.sizearray]
      exact hsized
    · rw [h.sizearray]
      exact hnodes rfl rfl
  | none =>
    have hfits : (!fits nasize k) = true := by
      by_contra hnot
      rw [← h.sizearray] at hnot
      obtain ⟨i, hi⟩ := h.wf.fits_eq_true (by simpa using hnot)
      rw [hget] at hi
      cases hi
    have hless : t'.keyCount < nhsize := by
      rw [hcount, Table.keysWith, List.countP_cons, if_pos hfits, List.countP_map]
      exact Nat.lt_succ_of_le h.keyCount
    have hdummy : t'.dummynode = false := by
      rw [h.dummynode]
      exact decide_eq_false (by omega)
    have hsize : nhsize ≤ t'.sizenode := by
      rw [Table.sizenode, h.lsizenode]
      exact le_pow_ceillog2 nhsize
    obtain ⟨t'', p, hnew, hadded⟩ := h.wf.newkey_added hdummy hget
      (Or.inr (h.wf.getfreepos_isSome hdummy (lt_of_lt_of_le hless hsize))) fuel
    refine ⟨t'', p, hnew, hadded.wf, hadded.holds, hadded.read.trans h.read, Or.inr ⟨?_, ?_⟩⟩
    · rw [hadded.sizearray, h.sizearray]
      exact hsized
    · rw [hadded.sizearray, h.sizearray]
      exact hnodes hadded.lsizenode hadded.dummynode

/-- `luaH_set` gives every key a place and leaves what is read as it is, unless a table of at
least `MAXASIZE` entries overflows. Its recursion goes no deeper than one rehash. -/
theorem Wf.luaH_set_ok (h : Wf hash t) (k : Key) (fuel : ℕ) :
    (∃ t' p, luaH_set hash (newkey hash (fuel+2)) t (.key k) = .ok (t', p) ∧
      SetTo hash t k t' p) ∨
    (luaH_set hash (newkey hash (fuel+2)) t (.key k) = luaG_runerror "table overflow" ∧
      MAXASIZE ≤ t.entries.length) := by
  rw [luaH_set]
  cases hget : luaH_get hash t (.key k) with
  | some p =>
    exact Or.inl ⟨t, p, rfl, h, h.luaH_get_eq_some_iff.mp hget, rfl, Or.inl ⟨rfl, rfl⟩⟩
  | none =>
    by_cases hroom : t.dummynode = false ∧
        ((t.node (mainposition hash t.lsizenode k)).val = none ∨
          (getfreepos t.node t.lastfree).isSome)
    · obtain ⟨t', p, hnew, hadded⟩ := h.newkey_added hroom.1 hget hroom.2 (fuel+1)
      exact Or.inl ⟨t', p, hnew, hadded.wf, hadded.holds, hadded.read,
        Or.inl ⟨hadded.sizearray, hadded.lsizenode⟩⟩
    · -- the main position is taken and no node is free
      have hfull : getfreepos t.node t.lastfree = none := by
        by_contra hsome
        rw [← ne_eq, ← Option.isSome_iff_ne_none] at hsome
        cases hd : t.dummynode with
        | true =>
          rw [(h.dummy hd).2.1] at hsome
          cases hsome
        | false => exact hroom ⟨hd, Or.inr hsome⟩
      have htaken : (t.node (mainposition hash t.lsizenode k)).val.isSome = true ∨
          t.dummynode = true := by
        cases hd : t.dummynode with
        | true => exact Or.inr rfl
        | false =>
          refine Or.inl (Option.isSome_iff_ne_none.mpr ?_)
          exact fun hval => hroom ⟨hd, Or.inl hval⟩
      have hwf := h.full hfull
      obtain ⟨nasize, hsized, hrehash⟩ := hwf.rehash_eq k hget (newkey hash (fuel+1))
      have hnew : newkey hash (fuel+2) t k =
          (rehash hash (newkey hash (fuel+1)) { t with lastfree := 0 } k).bind
            fun t' => luaH_set hash (newkey hash (fuel+1)) t' (.key k) := by
        rw [newkey, if_pos htaken, hfull]
        rfl
      simp only [hnew, hrehash]
      by_cases hsize : ((t.keysWith k).countP fun k => !fits nasize k) ≤ MAXASIZE
      · obtain ⟨t', hresize, hresized⟩ := hwf.resize_ok hsized.le_max hsize
          (by
            show (t.entries.countP fun e => !fits nasize e.1) ≤ _
            rw [Table.keysWith, List.countP_cons, List.countP_map]
            exact Nat.le_add_right _ _) fuel
        obtain ⟨t'', p, hset, hset'⟩ := hresized.luaH_set_ok hsized rfl fuel
        refine Or.inl ⟨t'', p, ?_, hset'.wf, hset'.holds, hset'.read, hset'.sizes⟩
        have hsame : resize hash (newkey hash (fuel+1)) { t with lastfree := 0 } nasize
            ((Table.keysWith { t with lastfree := 0 } k).countP fun k => !fits nasize k) =
              .ok t' := hresize
        rw [hsame]
        exact hset
      · right
        have hmany : MAXASIZE < (Table.keysWith { t with lastfree := 0 } k).countP
            fun k => !fits nasize k := Nat.not_le.mp hsize
        rw [resize_overflow _ hmany]
        refine ⟨rfl, ?_⟩
        have hle := List.countP_le_length (p := fun k => !fits nasize k) (l := t.keysWith k)
        rw [Table.keysWith, List.length_cons, List.length_map] at hle
        rw [Table.keysWith] at hsize
        omega

end LuaIde.Ltable
