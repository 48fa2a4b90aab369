import LuaIde.LuaTable

/-! What a table keeps between two operations, and what `newkey` does where no rehash is
needed. -/
namespace LuaIde.Ltable

open Function ChainedScatter

variable {ν : Type*} {hash : Key → ℕ} {t : Table ν}

theorem mainposition_lt (l : ℕ) (k : Key) : mainposition hash l k < 2 ^ l := by
  have hpos : 0 < 2 ^ l := Nat.two_pow_pos l
  have hmod (x : ℕ) : x % ((2 ^ l - 1) ||| 1) < 2 ^ l := by
    cases l with
    | zero => exact Nat.mod_lt x (by decide)
    | succ l =>
      have hodd : (2 ^ (l+1) - 1) ||| 1 = 2 ^ (l+1) - 1 := by
        apply Nat.eq_of_testBit_eq
        intro i
        cases i with
        | zero => simp [Nat.pow_succ]; omega
        | succ i =>
          have hone : Nat.testBit 1 (i+1) = false :=
            Nat.testBit_lt_two_pow (Nat.one_lt_two_pow (Nat.succ_ne_zero i))
          rw [Nat.testBit_or, hone, Bool.or_false]
      have htwo : 2 ≤ 2 ^ (l+1) := by
        rw [Nat.pow_succ]
        have hpos := Nat.two_pow_pos l
        omega
      rw [hodd]
      have hlt := Nat.mod_lt x (show 2 ^ (l+1) - 1 > 0 by omega)
      omega
  have hand (x : ℕ) : x &&& (2 ^ l - 1) < 2 ^ l := by
    rw [Nat.and_two_pow_sub_one_eq_mod]
    exact Nat.mod_lt x hpos
  cases k with
  | string s => exact hand _
  | boolean b => exact hand _
  | integer n => exact hmod _
  | number b => exact hmod _
  | pointer tt a => exact hmod _

/-- What every operation keeps. -/
structure Wf (hash : Key → ℕ) (t : Table ν) : Prop where
  linked : Linked (mainposition hash t.lsizenode) t.sizenode (fun i => (t.node i).key)
    (fun i => (t.node i).next)
  inside : ∀ {i k}, (t.node i).key = some k → i < t.sizenode
  keyed : ∀ {i}, (t.node i).key = none → (t.node i).val = none
  apart : ∀ {i n}, (t.node i).key = some (.integer n) → ¬ (0 ≤ n - 1 ∧ n - 1 < t.sizearray)
  used : ∀ {j}, t.lastfree ≤ j → j < t.sizenode → t.dummynode = false → (t.node j).key ≠ none
  lastfree_le : t.lastfree ≤ t.sizenode
  dummy : t.dummynode = true → t.lsizenode = 0 ∧ t.lastfree = 0 ∧ ∀ i, (t.node i).key = none
  arraySize : t.sizearray ≤ MAXASIZE
  nodeSize : t.lsizenode ≤ MAXBITS

/-- The place of a key. -/
def Table.Holds (t : Table ν) : Place → Key → Prop
  | .array i, k => k = .integer (i+1) ∧ i < t.sizearray
  | .node i, k => (t.node i).key = some k

/-- The value `luaH_get` finds. -/
def Table.read (hash : Key → ℕ) (t : Table ν) (k : Key) : Option ν :=
  (luaH_get hash t (.key k)).bind t.val

namespace Wf

theorem chain_eq_some_iff (h : Wf hash t) {k : Key} {i : ℕ} :
    chain hash t k = some i ↔ (t.node i).key = some k :=
  h.linked.walk_eq_some_iff (Nat.lt_succ_self _)

theorem luaH_getnum_eq_some_iff (h : Wf hash t) {n : ℤ} {p : Place} :
    luaH_getnum hash t n = some p ↔ t.Holds p (.integer n) := by
  rw [luaH_getnum]
  cases p with
  | array i =>
    rw [Table.Holds]
    split_ifs with hn
    · simp only [Option.some.injEq, Place.array.injEq, Key.integer.injEq]
      omega
    · simp only [Option.map_eq_some_iff, reduceCtorEq, and_false, exists_false, Key.integer.injEq,
        false_iff]
      omega
  | node i =>
    rw [Table.Holds]
    split_ifs with hn
    · simp only [Option.some.injEq, reduceCtorEq, false_iff]
      intro hi
      exact h.apart hi hn
    · simp [h.chain_eq_some_iff]

/-- The search for an int and the one for any key agree. -/
theorem luaH_get_integer (h : Wf hash t) (n : ℤ) :
    luaH_get hash t (.key (.integer n)) = luaH_getnum hash t n := by
  rw [luaH_get]
  split_ifs with hint
  · rfl
  · rw [luaH_getnum, if_neg]
    have hsize := h.arraySize
    have hmax : MAXASIZE = 67108864 := rfl
    omega

theorem luaH_get_eq_some_iff (h : Wf hash t) {k : Key} {p : Place} :
    luaH_get hash t (.key k) = some p ↔ t.Holds p k := by
  have hchain (hk : ∀ n, k ≠ .integer n) :
      (chain hash t k).map Place.node = some p ↔ t.Holds p k := by
    cases p with
    | array i =>
      rw [Table.Holds]
      simp only [Option.map_eq_some_iff, reduceCtorEq, and_false, exists_false, false_iff]
      intro hi
      exact hk _ hi.1
    | node i =>
      rw [Table.Holds, ← h.chain_eq_some_iff]
      simp
  cases k with
  | integer n =>
    rw [h.luaH_get_integer]
    exact h.luaH_getnum_eq_some_iff
  | number b => exact hchain (fun n hn => by cases hn)
  | string s => exact hchain (fun n hn => by cases hn)
  | boolean b => exact hchain (fun n hn => by cases hn)
  | pointer tt a => exact hchain (fun n hn => by cases hn)

theorem luaH_get_eq_none_iff (h : Wf hash t) {k : Key} :
    luaH_get hash t (.key k) = none ↔ ∀ p, ¬ t.Holds p k := by
  rw [Option.eq_none_iff_forall_ne_some]
  apply forall_congr'
  intro p
  rw [ne_eq, h.luaH_get_eq_some_iff]

theorem holds_unique (h : Wf hash t) {p q : Place} {k : Key} (hp : t.Holds p k)
    (hq : t.Holds q k) : p = q := by
  rw [← h.luaH_get_eq_some_iff] at hp hq
  exact Option.some.inj (hp.symm.trans hq)

theorem read_eq_some_iff (h : Wf hash t) {k : Key} {v : ν} :
    t.read hash k = some v ↔ ∃ p, t.Holds p k ∧ t.val p = some v := by
  rw [Table.read, Option.bind_eq_some_iff]
  apply exists_congr
  intro p
  rw [h.luaH_get_eq_some_iff]

theorem read_of_holds (h : Wf hash t) {k : Key} {p : Place} (hp : t.Holds p k) :
    t.read hash k = t.val p := by
  rw [Table.read, h.luaH_get_eq_some_iff.mpr hp, Option.bind_some]

end Wf

theorem holds_key_unique {p : Place} {k k' : Key} (hk : t.Holds p k) (hk' : t.Holds p k') :
    k = k' := by
  cases p with
  | array i => exact hk.1.trans hk'.1.symm
  | node i => exact Option.some.inj (Eq.trans (Eq.symm hk) hk')

/-! ### Assignments -/

@[simp] theorem store_sizearray (p : Place) (v : Option ν) :
    (t.store p v).sizearray = t.sizearray := by
  cases p <;> rfl

@[simp] theorem store_lsizenode (p : Place) (v : Option ν) :
    (t.store p v).lsizenode = t.lsizenode := by
  cases p <;> rfl

@[simp] theorem store_sizenode (p : Place) (v : Option ν) :
    (t.store p v).sizenode = t.sizenode := by
  rw [Table.sizenode, store_lsizenode, Table.sizenode]

@[simp] theorem store_dummynode (p : Place) (v : Option ν) :
    (t.store p v).dummynode = t.dummynode := by
  cases p <;> rfl

@[simp] theorem store_lastfree (p : Place) (v : Option ν) :
    (t.store p v).lastfree = t.lastfree := by
  cases p <;> rfl

theorem store_node (j : ℕ) (v : Option ν) :
    (t.store (.node j) v).node = update t.node j { t.node j with val := v } := rfl

@[simp] theorem store_key (p : Place) (v : Option ν) (i : ℕ) :
    ((t.store p v).node i).key = (t.node i).key := by
  cases p with
  | array j => rfl
  | node j =>
    by_cases hij : i = j
    · rw [hij, store_node, update_self]
    · rw [store_node, update_of_ne hij]

@[simp] theorem store_next (p : Place) (v : Option ν) (i : ℕ) :
    ((t.store p v).node i).next = (t.node i).next := by
  cases p with
  | array j => rfl
  | node j =>
    by_cases hij : i = j
    · rw [hij, store_node, update_self]
    · rw [store_node, update_of_ne hij]

theorem store_holds (p q : Place) (v : Option ν) (k : Key) :
    (t.store p v).Holds q k ↔ t.Holds q k := by
  cases q with
  | array i => rw [Table.Holds, Table.Holds, store_sizearray]
  | node i => rw [Table.Holds, Table.Holds, store_key]

theorem store_val_self (p : Place) (v : Option ν) : (t.store p v).val p = v := by
  cases p with
  | array i => exact update_self ..
  | node i => rw [Table.val, store_node, update_self]

theorem store_val_of_ne {p q : Place} (v : Option ν) (h : q ≠ p) :
    (t.store p v).val q = t.val q := by
  cases p with
  | array i =>
    cases q with
    | array j => exact update_of_ne (fun hj => h (by rw [hj])) ..
    | node j => rfl
  | node i =>
    cases q with
    | array j => rfl
    | node j =>
      rw [Table.val, store_node, update_of_ne, Table.val]
      intro hj
      exact h (by rw [hj])

/-- The value at a key's place can be anything. -/
theorem Wf.store (h : Wf hash t) {p : Place} {k : Key} (hp : t.Holds p k) (v : Option ν) :
    Wf hash (t.store p v) where
  linked := by simpa using h.linked
  inside := by
    intro i k hi
    rw [store_key] at hi
    rw [store_sizenode]
    exact h.inside hi
  keyed := by
    intro i hi
    rw [store_key] at hi
    have hne : Place.node i ≠ p := by
      intro he
      rw [← he, Table.Holds, hi] at hp
      cases hp
    have hval := store_val_of_ne (t := t) v hne
    exact hval.trans (h.keyed hi)
  apart := by
    intro i n hi
    rw [store_key] at hi
    rw [store_sizearray]
    exact h.apart hi
  used := by
    intro j hfree hj hd
    rw [store_lastfree] at hfree
    rw [store_sizenode] at hj
    rw [store_dummynode] at hd
    rw [store_key]
    exact h.used hfree hj hd
  lastfree_le := by simpa using h.lastfree_le
  dummy := by simpa using h.dummy
  arraySize := by simpa using h.arraySize
  nodeSize := by simpa using h.nodeSize

theorem Wf.read_store (h : Wf hash t) {p : Place} {k : Key} (hp : t.Holds p k) (v : Option ν) :
    (t.store p v).read hash = update (t.read hash) k v := by
  funext k'
  have hstore := h.store hp v
  by_cases hk : k' = k
  · rw [hk, update_self, hstore.read_of_holds ((store_holds p p v k).mpr hp), store_val_self]
  · rw [update_of_ne hk]
    apply Option.ext
    intro w
    rw [hstore.read_eq_some_iff, h.read_eq_some_iff]
    apply exists_congr
    intro q
    rw [store_holds]
    apply and_congr_right
    intro hq
    rw [store_val_of_ne]
    intro hqp
    rw [hqp] at hq
    exact hk (holds_key_unique hq hp)

/-! ### New keys -/

theorem getfreepos_some {node : ℕ → Node ν} {m n : ℕ} (h : getfreepos node m = some n) :
    n < m ∧ (node n).key = none ∧ ∀ j, n < j → j < m → (node j).key ≠ none := by
  induction m with
  | zero => cases h
  | succ m ih =>
    rw [getfreepos] at h
    split_ifs at h with hkey
    · obtain rfl := Option.some.inj h
      exact ⟨Nat.lt_succ_self m, hkey, fun j hj hjm => by omega⟩
    · obtain ⟨hlt, hn, hrest⟩ := ih h
      refine ⟨by omega, hn, ?_⟩
      intro j hj hjm
      by_cases he : j = m
      · rw [he]
        exact hkey
      · exact hrest j hj (by omega)

theorem getfreepos_none {node : ℕ → Node ν} {m : ℕ} (h : getfreepos node m = none) :
    ∀ j < m, (node j).key ≠ none := by
  induction m with
  | zero =>
    intro j hj
    omega
  | succ m ih =>
    rw [getfreepos] at h
    split_ifs at h with hkey
    intro j hj
    by_cases he : j = m
    · rw [he]
      exact hkey
    · exact ih h j (by omega)

/-- The number of nodes that have a key. -/
def Table.keyCount (t : Table ν) : ℕ :=
  ((Finset.range t.sizenode).filter (fun i => (t.node i).key ≠ none)).card

/-- `t'` is `t` with a key `k` at `p`, whose value is nil. -/
structure Added (hash : Key → ℕ) (t t' : Table ν) (p : Place) (k : Key) : Prop where
  wf : Wf hash t'
  holds : t'.Holds p k
  read : t'.read hash = t.read hash
  sizearray : t'.sizearray = t.sizearray
  array : t'.array = t.array
  lsizenode : t'.lsizenode = t.lsizenode
  dummynode : t'.dummynode = t.dummynode
  keyCount : t'.keyCount ≤ t.keyCount + 1

theorem keyCount_le_succ {t' : Table ν} {n : ℕ} (hsize : t'.lsizenode = t.lsizenode)
    (hkey : ∀ i, i ≠ n → (t.node i).key = none → (t'.node i).key = none) :
    t'.keyCount ≤ t.keyCount + 1 := by
  have hsub : (Finset.range t'.sizenode).filter (fun i => (t'.node i).key ≠ none) ⊆
      insert n ((Finset.range t.sizenode).filter (fun i => (t.node i).key ≠ none)) := by
    intro i hi
    rw [Finset.mem_filter] at hi
    rw [Finset.mem_insert, Finset.mem_filter]
    by_cases hin : i = n
    · exact Or.inl hin
    · refine Or.inr ⟨?_, fun hnone => hi.2 (hkey i hin hnone)⟩
      rw [Table.sizenode, ← hsize]
      exact hi.1
  exact (Finset.card_le_card hsub).trans (Finset.card_insert_le _ _)

theorem Wf.read_eq_of_nodes {t' : Table ν} (h : Wf hash t) (h' : Wf hash t')
    (hsize : t'.sizearray = t.sizearray) (harray : t'.array = t.array)
    (hnode : ∀ k v, (∃ i, (t'.node i).key = some k ∧ (t'.node i).val = some v) ↔
      ∃ i, (t.node i).key = some k ∧ (t.node i).val = some v) :
    t'.read hash = t.read hash := by
  funext k
  apply Option.ext
  intro v
  rw [h'.read_eq_some_iff, h.read_eq_some_iff]
  have hsplit (u : Table ν) : (∃ p, u.Holds p k ∧ u.val p = some v) ↔
      (∃ i, u.Holds (.array i) k ∧ u.val (.array i) = some v) ∨
        ∃ i, (u.node i).key = some k ∧ (u.node i).val = some v := by
    constructor
    · rintro ⟨p, hp⟩
      cases p with
      | array i => exact Or.inl ⟨i, hp⟩
      | node i => exact Or.inr ⟨i, hp⟩
    · rintro (⟨i, hi⟩ | ⟨i, hi⟩)
      · exact ⟨.array i, hi⟩
      · exact ⟨.node i, hi⟩
  rw [hsplit, hsplit, hnode]
  simp only [Table.Holds, Table.val, hsize, harray]

/-- What there is to show of new nodes: they keep the entries, and have `k` at `m`. The one
node that has come to use is `n`. -/
theorem Wf.added (h : Wf hash t) {k : Key} {node : ℕ → Node ν} {lastfree m n : ℕ}
    (hdummy : t.dummynode = false) (hk : luaH_get hash t (.key k) = none)
    (hlinked : Linked (mainposition hash t.lsizenode) t.sizenode (fun i => (node i).key)
      (fun i => (node i).next))
    (hm : (node m).key = some k) (hn : n < t.sizenode)
    (hkeys : ∀ i, i ≠ n → (t.node i).key = none → (node i).key = none)
    (hkeyed : ∀ {i}, (node i).key = none → (node i).val = none)
    (hnew : ∀ {i k'}, (node i).key = some k' → (k' = k ∧ (node i).val = none) ∨
      ∃ j, (t.node j).key = some k' ∧ (t.node j).val = (node i).val)
    (hold : ∀ {j k' v}, (t.node j).key = some k' → (t.node j).val = some v →
      ∃ i, (node i).key = some k' ∧ (node i).val = some v)
    (hused : ∀ {j}, lastfree ≤ j → j < t.sizenode → (node j).key ≠ none)
    (hfree : lastfree ≤ t.sizenode) :
    Added hash t { t with node := node, lastfree := lastfree } (.node m) k := by
  have habsent := h.luaH_get_eq_none_iff.mp hk
  have hwf : Wf hash { t with node := node, lastfree := lastfree } := by
    constructor
    case linked => exact hlinked
    case inside =>
      intro i k' hi
      by_contra hlt
      have hin : i ≠ n := fun he => hlt (he ▸ hn)
      have hnone : (t.node i).key = none := by
        by_contra hsome
        obtain ⟨q, hq⟩ := Option.ne_none_iff_exists'.mp hsome
        exact hlt (h.inside hq)
      rw [hkeys i hin hnone] at hi
      cases hi
    case keyed => exact hkeyed
    case apart =>
      intro i a hi
      rcases hnew hi with ⟨hak, -⟩ | ⟨j, hj, -⟩
      · -- a key the vector has room for is found there
        intro ha
        have ha2 : a - 1 < t.sizearray := ha.2
        apply habsent (.array (a-1).toNat)
        refine ⟨?_, by omega⟩
        rw [← hak]
        congr 1
        omega
      · exact h.apart hj
    case used => exact fun hj hlt _ => hused hj hlt
    case lastfree_le => exact hfree
    case dummy =>
      intro hd
      exact absurd (hdummy.symm.trans hd) Bool.false_ne_true
    case arraySize => exact h.arraySize
    case nodeSize => exact h.nodeSize
  refine ⟨hwf, hm, ?_, rfl, rfl, rfl, rfl, keyCount_le_succ (t := t) (n := n) rfl hkeys⟩
  apply h.read_eq_of_nodes hwf rfl rfl
  intro k' v
  constructor
  · rintro ⟨i, hi, hv⟩
    rcases hnew hi with ⟨-, hnone⟩ | ⟨j, hj, hval⟩
    · have hv' : (node i).val = some v := hv
      rw [hnone] at hv'
      cases hv'
    · exact ⟨j, hj, hval.trans hv⟩
  · rintro ⟨j, hj, hv⟩
    exact hold hj hv

section NewKey

variable {k : Key} {mp : ℕ}

/-- The node at the main position is free. -/
theorem Wf.added_place (h : Wf hash t) (hdummy : t.dummynode = false)
    (hk : luaH_get hash t (.key k) = none) (hmp : mainposition hash t.lsizenode k = mp)
    (hval : (t.node mp).val = none) :
    Added hash t { t with node := update t.node mp { t.node mp with key := some k } }
      (.node mp) k := by
  have habsent := h.luaH_get_eq_none_iff.mp hk
  have hkey (i : ℕ) : (update t.node mp { t.node mp with key := some k } i).key =
      update (fun i => (t.node i).key) mp (some k) i := by
    by_cases hi : i = mp
    · rw [hi, update_self, update_self]
    · rw [update_of_ne hi, update_of_ne hi]
  have hnext (i : ℕ) : (update t.node mp { t.node mp with key := some k } i).next =
      (t.node i).next := by
    by_cases hi : i = mp
    · rw [hi, update_self]
    · rw [update_of_ne hi]
  have hvals (i : ℕ) : (update t.node mp { t.node mp with key := some k } i).val =
      (t.node i).val := by
    by_cases hi : i = mp
    · rw [hi, update_self]
    · rw [update_of_ne hi]
  apply h.added hdummy hk (n := mp)
  · rw [funext hkey, funext hnext, ← hmp]
    exact h.linked.place fun j hj => habsent (.node j) hj
  · exact (hkey mp).trans (update_self ..)
  · exact hmp ▸ mainposition_lt _ k
  · intro i hi hnone
    exact (hkey i).trans ((update_of_ne hi ..).trans hnone)
  · intro i hi
    rw [hkey] at hi
    rw [hvals]
    by_cases him : i = mp
    · rw [him]
      exact hval
    · rw [update_of_ne him] at hi
      exact h.keyed hi
  · intro i k' hi
    rw [hkey] at hi
    rw [hvals]
    by_cases him : i = mp
    · rw [him, update_self] at hi
      rw [him]
      exact Or.inl ⟨(Option.some.inj hi).symm, hval⟩
    · rw [update_of_ne him] at hi
      exact Or.inr ⟨i, hi, rfl⟩
  · intro j k' v hj hv
    refine ⟨j, ?_, (hvals j).trans hv⟩
    have hjm : j ≠ mp := by
      intro he
      rw [he, hval] at hv
      cases hv
    exact (hkey j).trans ((update_of_ne hjm ..).trans hj)
  · intro j hfree hj
    rw [hkey]
    by_cases hjm : j = mp
    · rw [hjm, update_self]
      exact Option.some_ne_none k
    · rw [update_of_ne hjm]
      exact h.used hfree hj hdummy
  · exact h.lastfree_le

/-- The nodes behind the free one are in use. -/
theorem Wf.used_behind (h : Wf hash t) (hdummy : t.dummynode = false) {n j : ℕ}
    (hfree : getfreepos t.node t.lastfree = some n) (hnj : n ≤ j) (hne : j ≠ n)
    (hj : j < t.sizenode) : (t.node j).key ≠ none := by
  obtain ⟨-, -, hbehind⟩ := getfreepos_some hfree
  by_cases hlast : t.lastfree ≤ j
  · exact h.used hlast hj hdummy
  · exact hbehind j (by omega) (by omega)

/-- The new node goes into the free position. -/
theorem Wf.added_attach (h : Wf hash t) (hdummy : t.dummynode = false)
    (hk : luaH_get hash t (.key k) = none) (hmp : mainposition hash t.lsizenode k = mp)
    {n : ℕ} (hfree : getfreepos t.node t.lastfree = some n) {k' : Key}
    (hother : (t.node mp).key = some k') (hmain : mainposition hash t.lsizenode k' = mp)
    {node : ℕ → Node ν} (hnode : node = update (update t.node n { t.node n with
      key := some k, next := (t.node mp).next }) mp { t.node mp with next := some n }) :
    Added hash t { t with node := node, lastfree := n } (.node n) k := by
  have habsent := h.luaH_get_eq_none_iff.mp hk
  obtain ⟨hlt, hn, -⟩ := getfreepos_some hfree
  have hsize : n < t.sizenode := lt_of_lt_of_le hlt h.lastfree_le
  have hne : n ≠ mp := by
    intro he
    rw [he, hother] at hn
    cases hn
  have hkey (i : ℕ) : (node i).key = update (fun i => (t.node i).key) n (some k) i := by
    rw [hnode]
    by_cases him : i = mp
    · rw [him, update_self, update_of_ne hne.symm]
    · rw [update_of_ne him]
      by_cases hin : i = n
      · rw [hin, update_self, update_self]
      · rw [update_of_ne hin, update_of_ne hin]
  have hnext (i : ℕ) : (node i).next =
      update (update (fun i => (t.node i).next) n (t.node mp).next) mp (some n) i := by
    rw [hnode]
    by_cases him : i = mp
    · rw [him, update_self, update_self]
    · rw [update_of_ne him, update_of_ne him]
      by_cases hin : i = n
      · rw [hin, update_self, update_self]
      · rw [update_of_ne hin, update_of_ne hin]
  have hvals (i : ℕ) : (node i).val = (t.node i).val := by
    rw [hnode]
    by_cases him : i = mp
    · rw [him, update_self]
    · rw [update_of_ne him]
      by_cases hin : i = n
      · rw [hin, update_self]
      · rw [update_of_ne hin]
  apply h.added hdummy hk (n := n)
  · rw [funext hkey, funext hnext, ← hmp]
    apply h.linked.attach (fun j hj => habsent (.node j) hj)
    · rw [hmp]
      exact hother
    · exact hmain.trans hmp.symm
    · exact hn
    · exact mainposition_lt _ k
    · exact hsize
  · exact (hkey n).trans (update_self ..)
  · exact hsize
  · intro i hi hnone
    exact (hkey i).trans ((update_of_ne hi ..).trans hnone)
  · intro i hi
    rw [hkey] at hi
    rw [hvals]
    by_cases hin : i = n
    · rw [hin, update_self] at hi
      cases hi
    · rw [update_of_ne hin] at hi
      exact h.keyed hi
  · intro i q hi
    rw [hkey] at hi
    rw [hvals]
    by_cases hin : i = n
    · rw [hin, update_self] at hi
      rw [hin]
      exact Or.inl ⟨(Option.some.inj hi).symm, h.keyed hn⟩
    · rw [update_of_ne hin] at hi
      exact Or.inr ⟨i, hi, rfl⟩
  · intro j q v hj hv
    refine ⟨j, ?_, (hvals j).trans hv⟩
    have hjn : j ≠ n := by
      intro he
      rw [he, hn] at hj
      cases hj
    exact (hkey j).trans ((update_of_ne hjn ..).trans hj)
  · intro j hnj hj
    rw [hkey]
    by_cases hjn : j = n
    · rw [hjn, update_self]
      exact Option.some_ne_none k
    · rw [update_of_ne hjn]
      exact h.used_behind hdummy hfree hnj hjn hj
  · exact hsize.le

/-- The colliding node moves into the free position. -/
theorem Wf.added_displace (h : Wf hash t) (hdummy : t.dummynode = false)
    (hk : luaH_get hash t (.key k) = none) (hmp : mainposition hash t.lsizenode k = mp)
    {n : ℕ} (hfree : getfreepos t.node t.lastfree = some n) {k' : Key}
    (hother : (t.node mp).key = some k') (hmain : mainposition hash t.lsizenode k' ≠ mp)
    {previous : ℕ} (hprevious : (t.node previous).next = some mp) {node : ℕ → Node ν}
    (hnode : node = update (update (update t.node previous { t.node previous with
      next := some n }) n (t.node mp)) mp ⟨some k, none, none⟩) :
    Added hash t { t with node := node, lastfree := n } (.node mp) k := by
  have habsent := h.luaH_get_eq_none_iff.mp hk
  obtain ⟨hlt, hn, -⟩ := getfreepos_some hfree
  have hsize : n < t.sizenode := lt_of_lt_of_le hlt h.lastfree_le
  have hne : n ≠ mp := by
    intro he
    rw [he, hother] at hn
    cases hn
  have hkey (i : ℕ) : (node i).key =
      update (update (fun i => (t.node i).key) n (some k')) mp (some k) i := by
    rw [hnode]
    by_cases him : i = mp
    · rw [him, update_self, update_self]
    · rw [update_of_ne him, update_of_ne him]
      by_cases hin : i = n
      · rw [hin, update_self, update_self, hother]
      · rw [update_of_ne hin, update_of_ne hin]
        by_cases hip : i = previous
        · rw [hip, update_self]
        · rw [update_of_ne hip]
  have hnext (i : ℕ) : (node i).next = update (update (update (fun i => (t.node i).next)
      previous (some n)) n (t.node mp).next) mp none i := by
    rw [hnode]
    by_cases him : i = mp
    · rw [him, update_self, update_self]
    · rw [update_of_ne him, update_of_ne him]
      by_cases hin : i = n
      · rw [hin, update_self, update_self]
      · rw [update_of_ne hin, update_of_ne hin]
        by_cases hip : i = previous
        · rw [hip, update_self, update_self]
        · rw [update_of_ne hip, update_of_ne hip]
  have hvals (i : ℕ) : (node i).val =
      if i = mp then none else if i = n then (t.node mp).val else (t.node i).val := by
    rw [hnode]
    by_cases him : i = mp
    · rw [him, update_self, if_pos rfl]
    · rw [update_of_ne him, if_neg him]
      by_cases hin : i = n
      · rw [hin, update_self, if_pos rfl]
      · rw [update_of_ne hin, if_neg hin]
        by_cases hip : i = previous
        · rw [hip, update_self]
        · rw [update_of_ne hip]
  apply h.added hdummy hk (n := n)
  · rw [funext hkey, funext hnext, ← hmp]
    apply h.linked.displace
    · exact fun j hj => habsent (.node j) hj
    · rw [hmp]
      exact hother
    · rw [hmp]
      exact hmain
    · rw [hmp]
      exact hprevious
    · exact hn
    · exact hsize
  · exact (hkey mp).trans (update_self ..)
  · exact hsize
  · intro i hin hnone
    have him : i ≠ mp := by
      intro he
      rw [he, hother] at hnone
      cases hnone
    exact (hkey i).trans ((update_of_ne him ..).trans ((update_of_ne hin ..).trans hnone))
  · intro i hi
    rw [hkey] at hi
    by_cases him : i = mp
    · rw [him, update_self] at hi
      cases hi
    · rw [update_of_ne him] at hi
      by_cases hin : i = n
      · rw [hin, update_self] at hi
        cases hi
      · rw [update_of_ne hin] at hi
        rw [hvals, if_neg him, if_neg hin]
        exact h.keyed hi
  · intro i q hi
    rw [hkey] at hi
    rw [hvals]
    by_cases him : i = mp
    · rw [him, update_self] at hi
      exact Or.inl ⟨(Option.some.inj hi).symm, if_pos him⟩
    · rw [update_of_ne him] at hi
      rw [if_neg him]
      by_cases hin : i = n
      · rw [hin, update_self] at hi
        rw [if_pos hin, ← Option.some.inj hi]
        exact Or.inr ⟨mp, hother, rfl⟩
      · rw [update_of_ne hin] at hi
        rw [if_neg hin]
        exact Or.inr ⟨i, hi, rfl⟩
  · intro j q v hj hv
    by_cases hjm : j = mp
    · rw [hjm] at hj hv
      refine ⟨n, ?_, ?_⟩
      · rw [hkey, update_of_ne hne, update_self, ← hother]
        exact hj
      · rw [hvals, if_neg hne, if_pos rfl]
        exact hv
    · have hjn : j ≠ n := by
        intro he
        rw [he, hn] at hj
        cases hj
      refine ⟨j, ?_, ?_⟩
      · rw [hkey, update_of_ne hjm, update_of_ne hjn]
        exact hj
      · rw [hvals, if_neg hjm, if_neg hjn]
        exact hv
  · intro j hnj hj
    rw [hkey]
    by_cases hjm : j = mp
    · rw [hjm, update_self]
      exact Option.some_ne_none k
    · rw [update_of_ne hjm]
      by_cases hjn : j = n
      · rw [hjn, update_self]
        exact Option.some_ne_none k'
      · rw [update_of_ne hjn]
        exact h.used_behind hdummy hfree hnj hjn hj
  · exact hsize.le

/-- While a node is free, `newkey` needs no rehash. -/
theorem Wf.newkey_added (h : Wf hash t) (hdummy : t.dummynode = false)
    (hk : luaH_get hash t (.key k) = none)
    (hroom : (t.node (mainposition hash t.lsizenode k)).val = none ∨
      (getfreepos t.node t.lastfree).isSome) (fuel : ℕ) :
    ∃ t' p, newkey hash (fuel+1) t k = .ok (t', p) ∧ Added hash t t' p k := by
  rw [newkey]
  generalize hmp : mainposition hash t.lsizenode k = mp at hroom
  cases hval : (t.node mp).val with
  | none =>
    rw [if_neg (by simp [hdummy])]
    exact ⟨_, _, rfl, h.added_place hdummy hk hmp hval⟩
  | some v =>
    rw [if_pos (Or.inl Option.isSome_some)]
    cases hfree : getfreepos t.node t.lastfree with
    | none =>
      rw [hval, hfree] at hroom
      simp at hroom
    | some n =>
      cases hother : (t.node mp).key with
      | none =>
        rw [h.keyed hother] at hval
        cases hval
      | some k' =>
        have hne : n ≠ mp := by
          intro he
          rw [← he, (getfreepos_some hfree).2.1] at hother
          cases hother
        simp only [hother]
        split_ifs with hmain
        · obtain ⟨previous, hreach, hprevious⟩ := h.linked.exists_previous hother hmain
          have hwalk : ChainedScatter.walk (fun i => (t.node i).next = some mp)
              (fun i => (t.node i).next) (t.sizenode + 1) (mainposition hash t.lsizenode k') =
                some previous := by
            apply h.linked.walk_of_reach (Nat.lt_succ_self _) hreach
            · simpa using hprevious
            · intro j hj
              exact h.linked.inj (by simpa using hj) hprevious
          have hpm : mp ≠ previous := by
            intro he
            rw [← he] at hprevious
            exact h.linked.next_ne_self mp hprevious
          have hwalk' : ChainedScatter.walk (fun i => (t.node i).next = some mp)
              (fun i => (t.node i).next) (Table.sizenode { t with lastfree := n } + 1)
              (mainposition hash t.lsizenode k') = some previous := hwalk
          rw [hwalk']
          refine ⟨_, _, rfl, h.added_displace hdummy hk hmp hfree hother hmain hprevious ?_⟩
          rw [update_of_ne hpm]
        · refine ⟨_, _, rfl, h.added_attach hdummy hk hmp hfree hother (not_not.mp hmain) ?_⟩
          rw [update_of_ne hne, update_self, update_of_ne hne.symm, update_comm hne, update_idem]
          exact update_comm hne.symm ..

theorem Wf.getfreepos_isSome (h : Wf hash t) (hdummy : t.dummynode = false)
    (hroom : t.keyCount < t.sizenode) : (getfreepos t.node t.lastfree).isSome := by
  by_contra hnone
  rw [Option.not_isSome_iff_eq_none] at hnone
  have hall : (Finset.range t.sizenode).filter (fun i => (t.node i).key ≠ none) =
      Finset.range t.sizenode := by
    rw [Finset.filter_eq_self]
    intro j hj
    by_cases hlast : t.lastfree ≤ j
    · exact h.used hlast (Finset.mem_range.mp hj) hdummy
    · exact getfreepos_none hnone j (by omega)
  rw [Table.keyCount, hall, Finset.card_range] at hroom
  exact lt_irrefl _ hroom

end NewKey

end LuaIde.Ltable
