import LuaIde.LuaTableEntries

/-! The vectors of `resize` have room for the entries that go to them. -/
namespace LuaIde.Ltable

open Function ChainedScatter

variable {ν : Type*} {hash : Key → ℕ} {t : Table ν}

theorem le_log2Loop (fuel l x : ℕ) : l ≤ log2Loop fuel l x := by
  induction fuel generalizing l x with
  | zero => exact Nat.le_add_right _ _
  | succ fuel ih =>
    rw [log2Loop]
    split_ifs with hx
    · exact le_trans (Nat.le_add_right l 8) (ih _ _)
    · exact Nat.le_add_right _ _

theorem log_2_le_iff : ∀ x < 256, ∀ i < 8, log_2.getD x 0 ≤ i ↔ x < 2 ^ i := by
  decide +kernel

theorem log_2_le : ∀ x < 256, log_2.getD x 0 ≤ 8 := by
  decide +kernel

theorem log2Loop_le_iff {fuel x : ℕ} (hfuel : x ≤ fuel) (l i : ℕ) :
    log2Loop fuel l x ≤ l + i ↔ x < 2 ^ i := by
  have hbase (hx : x < 256) : l + log_2.getD x 0 ≤ l + i ↔ x < 2 ^ i := by
    rw [Nat.add_le_add_iff_left]
    by_cases hi : i < 8
    · exact log_2_le_iff x hx i hi
    · have hpow : 2 ^ 8 ≤ 2 ^ i := Nat.pow_le_pow_right Nat.two_pos (by omega)
      have hle := log_2_le x hx
      omega
  induction fuel generalizing l i x with
  | zero => exact hbase (by omega)
  | succ fuel ih =>
    rw [log2Loop]
    split_ifs with hx
    · rw [Nat.shiftRight_eq_div_pow]
      by_cases hi : i < 8
      · have hpow : 2 ^ i < 2 ^ 8 := Nat.pow_lt_pow_right (by omega) hi
        have hle := le_log2Loop fuel (l+8) (x / 2 ^ 8)
        omega
      · obtain ⟨j, rfl⟩ : ∃ j, i = 8 + j := ⟨i - 8, by omega⟩
        have hdiv : x / 2 ^ 8 < 2 ^ j ↔ x < 2 ^ (8+j) := by
          rw [Nat.div_lt_iff_lt_mul (by decide), Nat.add_comm, Nat.pow_add]
        have hshift : l + (8 + j) = l + 8 + j := by omega
        rw [← hdiv, hshift]
        apply ih (by omega)
        intro hsmall
        rw [Nat.add_le_add_iff_left]
        by_cases hj : j < 8
        · exact log_2_le_iff _ hsmall j hj
        · have hpow : 2 ^ 8 ≤ 2 ^ j := Nat.pow_le_pow_right Nat.two_pos (by omega)
          have hle := log_2_le _ hsmall
          omega
    · exact hbase (by omega)

theorem ceillog2_le_iff {x : ℕ} (hx : 0 < x) (i : ℕ) : ceillog2 x ≤ i ↔ x ≤ 2 ^ i := by
  have hlog := log2Loop_le_iff (show x - 1 ≤ x by omega) 0 i
  rw [Nat.zero_add] at hlog
  rw [ceillog2, hlog]
  omega

theorem le_pow_ceillog2 (x : ℕ) : x ≤ 2 ^ ceillog2 x := by
  by_cases hzero : x = 0
  · rw [hzero]
    exact Nat.zero_le _
  · exact (ceillog2_le_iff (Nat.pos_of_ne_zero hzero) _).mp le_rfl

theorem pow_ceillog2_lt {x : ℕ} (hx : 0 < x) : 2 ^ ceillog2 x < 2 * x := by
  cases hlog : ceillog2 x with
  | zero =>
    rw [Nat.pow_zero]
    omega
  | succ j =>
    have hnot : ¬ x ≤ 2 ^ j := by
      rw [← ceillog2_le_iff hx, hlog]
      omega
    rw [Nat.pow_succ]
    omega

/-- New vectors, with the values `array` in the one. -/
def fresh (array : ℕ → Option ν) (nasize nhsize : ℕ) : Table ν where
  sizearray := nasize
  array := array
  lsizenode := ceillog2 nhsize
  node := fun _ => ⟨none, none, none⟩
  dummynode := nhsize = 0
  lastfree := if nhsize = 0 then 0 else 2 ^ ceillog2 nhsize

theorem setnodevector_eq {nhsize : ℕ} (h : nhsize ≤ MAXASIZE) :
    setnodevector t nhsize = .ok (fresh t.array t.sizearray nhsize) := by
  rw [setnodevector]
  by_cases hzero : nhsize = 0
  · rw [if_pos hzero, hzero]
    rfl
  · have hlog : ¬ ceillog2 nhsize > MAXBITS := by
      rw [Nat.not_lt, ceillog2_le_iff (Nat.pos_of_ne_zero hzero)]
      exact h
    rw [if_neg hzero, if_neg hlog, fresh, if_neg hzero, decide_eq_false hzero]

theorem setnodevector_overflow {nhsize : ℕ} (h : MAXASIZE < nhsize) :
    setnodevector t nhsize = luaG_runerror "table overflow" := by
  have hzero : nhsize ≠ 0 := by omega
  have hlog : ceillog2 nhsize > MAXBITS := by
    rw [gt_iff_lt, ← Nat.not_le, ceillog2_le_iff (Nat.pos_of_ne_zero hzero), Nat.not_le]
    exact h
  rw [setnodevector, if_neg hzero, if_pos hlog]

section Fresh

variable {array : ℕ → Option ν} {nasize nhsize : ℕ}

theorem wf_fresh (hash : Key → ℕ) (array : ℕ → Option ν) (hna : nasize ≤ MAXASIZE)
    (hnh : nhsize ≤ MAXASIZE) : Wf hash (fresh array nasize nhsize) where
  linked := linked_empty _ _
  inside := fun h => by cases h
  keyed := fun _ => rfl
  apart := fun h => by cases h
  used := by
    intro j hj hlt hd
    have hne : nhsize ≠ 0 := of_decide_eq_false hd
    have hfree : (fresh array nasize nhsize).lastfree = 2 ^ ceillog2 nhsize := if_neg hne
    rw [hfree] at hj
    exact absurd hlt (Nat.not_lt.mpr hj)
  lastfree_le := by
    rw [fresh, Table.sizenode]
    split_ifs
    · exact Nat.zero_le _
    · exact le_rfl
  dummy := by
    intro hd
    have hzero : nhsize = 0 := of_decide_eq_true hd
    refine ⟨?_, if_pos hzero, fun _ => rfl⟩
    rw [hzero]
    rfl
  arraySize := hna
  nodeSize := by
    by_cases hzero : nhsize = 0
    · rw [hzero]
      exact Nat.zero_le _
    · exact (ceillog2_le_iff (Nat.pos_of_ne_zero hzero) _).mpr hnh

theorem entries_fresh :
    (fresh array nasize nhsize).entries = (fresh array nasize nhsize).slice 0 nasize := by
  have hnode : nodeEntries (fresh array nasize nhsize).node
      (fresh array nasize nhsize).sizenode = [] := by
    rw [nodeEntries, List.filterMap_eq_nil_iff]
    exact fun _ _ => rfl
  rw [Table.entries, hnode, List.append_nil]
  rfl

theorem keyCount_fresh : (fresh array nasize nhsize).keyCount = 0 := by
  rw [Table.keyCount, Finset.card_eq_zero, Finset.filter_eq_empty_iff]
  exact fun _ _ hne => hne rfl

theorem le_sizenode_fresh : nhsize ≤ (fresh array nasize nhsize).sizenode :=
  le_pow_ceillog2 nhsize

end Fresh

/-- `t'` has the entries of `t` in vectors for `nasize` and `nhsize` elements. -/
structure Resized (hash : Key → ℕ) (t t' : Table ν) (nasize nhsize : ℕ) : Prop where
  wf : Wf hash t'
  read : t'.read hash = t.read hash
  sizearray : t'.sizearray = nasize
  lsizenode : t'.lsizenode = ceillog2 nhsize
  dummynode : t'.dummynode = decide (nhsize = 0)
  keyCount : t'.keyCount ≤ t.entries.countP fun e => !fits nasize e.1

/-- New vectors that hold `kept` take up the entries `es` that are left. -/
theorem Wf.insert_fresh (h : Wf hash t) {nasize nhsize : ℕ} (array : ℕ → Option ν)
    (kept es : List (Key × ν)) (hna : nasize ≤ MAXASIZE) (hnh : nhsize ≤ MAXASIZE)
    (hperm : t.entries.Perm (kept ++ es))
    (hkept : ∀ k v, (k, v) ∈ (fresh array nasize nhsize).slice 0 nasize ↔ (k, v) ∈ kept)
    (hcount : (t.entries.countP fun e => !fits nasize e.1) ≤ nhsize) (fuel : ℕ) :
    Room (fresh array nasize nhsize) es ∧
      ∃ t', insertAll hash (newkey hash (fuel+1)) es (fresh array nasize nhsize) = .ok t' ∧
        Resized hash t t' nasize nhsize := by
  have hle : (es.countP fun e => !fits nasize e.1) ≤
      t.entries.countP fun e => !fits nasize e.1 := by
    rw [hperm.countP_eq, List.countP_append]
    exact Nat.le_add_left _ _
  have hroom : Room (fresh array nasize nhsize) es := by
    constructor
    · rw [keyCount_fresh, Nat.zero_add]
      exact (hle.trans hcount).trans le_sizenode_fresh
    · intro hne
      apply decide_eq_false
      have hsame : (es.countP fun e => !fits nasize e.1) ≠ 0 := hne
      omega
  have hwf := wf_fresh hash array hna hnh
  obtain ⟨t', hins, hinserted⟩ := hwf.inserted hroom fuel
  have hnodup : ((kept ++ es).map Prod.fst).Nodup :=
    (hperm.map Prod.fst).nodup_iff.mp h.nodup_entries
  rw [List.map_append, List.nodup_append'] at hnodup
  refine ⟨hroom, t', hins, hinserted.wf, ?_, hinserted.sizearray, ?_, hinserted.dummynode, ?_⟩
  · funext k
    apply Option.ext
    intro v
    rw [hinserted.read, foldl_update_eq_some_iff es hnodup.2.1, ← hwf.mem_entries, entries_fresh,
      hkept, ← h.mem_entries, hperm.mem_iff, List.mem_append]
    constructor
    · rintro (hes | ⟨-, hk⟩)
      · exact Or.inr hes
      · exact Or.inl hk
    · rintro (hk | hes)
      · exact Or.inr ⟨hnodup.2.2 (List.mem_map_of_mem hk), hk⟩
      · exact Or.inl hes
  · exact hinserted.lsizenode
  · have hk := hinserted.keyCount
    rw [keyCount_fresh, Nat.zero_add] at hk
    exact hk.trans hle

theorem slice_append (first m n : ℕ) :
    t.slice first (m+n) = t.slice first m ++ t.slice (first+m) n := by
  rw [Table.slice, Table.slice, Table.slice, ← List.filterMap_append, List.range'_append_1]

/-- `resize` keeps what is read, if the new hash part is large enough. -/
theorem Wf.resize_ok (h : Wf hash t) {nasize nhsize : ℕ} (hna : nasize ≤ MAXASIZE)
    (hnh : nhsize ≤ MAXASIZE) (hcount : (t.entries.countP fun e => !fits nasize e.1) ≤ nhsize)
    (fuel : ℕ) : ∃ t', resize hash (newkey hash (fuel+1)) t nasize nhsize = .ok t' ∧
      Resized hash t t' nasize nhsize := by
  rw [resize]
  by_cases hshrink : nasize < t.sizearray
  · -- the first elements stay, the others and the nodes are inserted
    rw [if_neg (by omega), setnodevector_eq hnh]
    show ∃ t', (if nasize < t.sizearray then _ else _) = _ ∧ _
    rw [if_pos hshrink]
    have hsplit : t.slice 0 t.sizearray =
        t.slice 0 nasize ++ t.slice nasize (t.sizearray - nasize) := by
      have happend := slice_append (t := t) 0 nasize (t.sizearray - nasize)
      rw [Nat.zero_add, Nat.add_sub_cancel' hshrink.le] at happend
      exact happend
    obtain ⟨hroom, t', hins, hresized⟩ := h.insert_fresh t.array (t.slice 0 nasize)
      (t.slice nasize (t.sizearray - nasize) ++ (nodeEntries t.node t.sizenode).reverse) hna hnh
      (by
        rw [Table.entries, hsplit, List.append_assoc]
        exact List.Perm.append_left _ (List.Perm.append_left _ (List.reverse_perm _).symm))
      (fun k v => Iff.rfl) hcount fuel
    have harray : reinsertArray hash (newkey hash (fuel+1))
        (List.range' nasize (t.sizearray - nasize)) (fresh t.array nasize nhsize) =
          insertAll hash (newkey hash (fuel+1)) (t.slice nasize (t.sizearray - nasize)) _ :=
      (wf_fresh hash t.array hna hnh).reinsertArray_eq fuel le_rfl (fun _ _ => rfl)
        (hroom.of_append _ _)
    refine ⟨t', ?_, hresized⟩
    rw [← hins, insertAll_append, ← harray]
    apply congrArg
    funext u
    exact reinsertNodes_eq ..
  · -- only the nodes are inserted
    obtain ⟨array, hgrown, hkept⟩ : ∃ array,
        fresh (if nasize > t.sizearray then setarrayvector t nasize else t).array
          (if nasize > t.sizearray then setarrayvector t nasize else t).sizearray nhsize =
            fresh array nasize nhsize ∧
        ∀ k v, (k, v) ∈ (fresh array nasize nhsize).slice 0 nasize ↔
          (k, v) ∈ t.slice 0 t.sizearray := by
      by_cases hgrow : nasize > t.sizearray
      · rw [if_pos hgrow]
        refine ⟨_, rfl, ?_⟩
        intro k v
        rw [mem_slice, mem_slice]
        apply exists_congr
        intro i
        show _ ∧ _ ∧ _ ∧ (if t.sizearray ≤ i ∧ i < nasize then none else t.array i) = some v ↔ _
        by_cases hi : t.sizearray ≤ i ∧ i < nasize
        · rw [if_pos hi]
          simp only [reduceCtorEq, and_false, false_iff]
          omega
        · rw [if_neg hi]
          constructor
          · rintro ⟨hz, hlt, hrest⟩
            exact ⟨hz, by omega, hrest⟩
          · rintro ⟨hz, hlt, hrest⟩
            exact ⟨hz, by omega, hrest⟩
      · rw [if_neg hgrow]
        obtain rfl : nasize = t.sizearray := by omega
        exact ⟨t.array, rfl, fun k v => Iff.rfl⟩
    rw [setnodevector_eq hnh, hgrown]
    show ∃ t', (if nasize < t.sizearray then _ else _) = _ ∧ _
    rw [if_neg hshrink]
    obtain ⟨hroom, t', hins, hresized⟩ := h.insert_fresh array
      (t.slice 0 t.sizearray) (nodeEntries t.node t.sizenode).reverse hna hnh
      (List.Perm.append_left _ (List.reverse_perm _).symm) hkept hcount fuel
    exact ⟨t', (reinsertNodes_eq ..).trans hins, hresized⟩

theorem resize_overflow (newkey : Table ν → Key → Except Fault (Table ν × Place))
    {nasize nhsize : ℕ} (hnh : MAXASIZE < nhsize) :
    resize hash newkey t nasize nhsize = luaG_runerror "table overflow" := by
  rw [resize, setnodevector_overflow hnh]
  rfl

end LuaIde.Ltable
