import LuaIde.LuaTableTraversal
import LuaIde.Undisturbed
import Mathlib.Logic.Equiv.List

/-! The tables of a stopped program, read off the vectors of `ltable.c`: their entries in the
order of `lua_next` and the strings whose nodes are cleared. `lua_next` on what is read is
`luaH_next` on the vectors, also behind a key that `lua_tostring` has converted, so that the
commands that go over the globals do what loops over the vectors say. -/
namespace LuaIde

open LineText CheckedFold

namespace Ltable

variable {ν : Type*} {hash : Key → ℕ} {t : Table ν}

/-- How many entries lie in front of a position. -/
def Table.before (t : Table ν) (pos : ℕ) : ℕ := ((List.range pos).filterMap t.entryAt).length

theorem entries_eq (t : Table ν) : t.entries = (List.range t.places).filterMap t.entryAt := by
  have harray : (List.range t.sizearray).filterMap t.entryAt = t.slice 0 t.sizearray := by
    rw [Table.slice, List.range_eq_range']
    apply List.filterMap_congr
    intro i hi
    rw [List.mem_range'_1] at hi
    rw [Table.entryAt, if_pos (by omega)]
  have hnodes : ((List.range t.sizenode).map (t.sizearray + ·)).filterMap t.entryAt =
      nodeEntries t.node t.sizenode := by
    rw [nodeEntries, List.filterMap_map]
    apply List.filterMap_congr
    intro i _
    rw [Function.comp_apply, Table.entryAt, if_neg (by omega), Nat.add_sub_cancel_left]
  rw [Table.places, List.range_add, List.filterMap_append, harray, hnodes, Table.entries]

theorem entries_split {pos : ℕ} (h : pos ≤ t.places) :
    t.entries = (List.range pos).filterMap t.entryAt ++
      (List.range' pos (t.places - pos)).filterMap t.entryAt := by
  have happend := @List.range'_append_1 0 pos (t.places - pos)
  rw [Nat.zero_add, Nat.add_sub_cancel' h] at happend
  rw [entries_eq, ← List.filterMap_append, List.range_eq_range', List.range_eq_range', happend]

theorem before_le {pos : ℕ} (h : pos ≤ t.places) : t.before pos ≤ t.entries.length := by
  rw [entries_split h, List.length_append]
  exact Nat.le_add_right _ _

theorem before_succ (pos : ℕ) :
    t.before (pos+1) = t.before pos + (t.entryAt pos).toList.length := by
  rw [Table.before, List.range_succ, List.filterMap_append, List.length_append, Table.before]
  cases h : t.entryAt pos with
  | none => simp [h]
  | some e => simp [h]

/-- The next entry from a position on. -/
theorem getElem?_before {pos : ℕ} (h : pos ≤ t.places) :
    t.entries[t.before pos]? = (List.range' pos (t.places - pos)).findSome? t.entryAt := by
  rw [entries_split h, Table.before, List.getElem?_append_right le_rfl, Nat.sub_self,
    ← List.head?_eq_getElem?, List.head?_filterMap]

/-- An entry is behind as many entries as its position says. -/
theorem getElem?_of_entryAt {pos : ℕ} {e : Key × ν} (hpos : pos < t.places)
    (he : t.entryAt pos = some e) : t.entries[t.before pos]? = some e := by
  obtain ⟨n, hn⟩ : ∃ n, t.places - pos = n + 1 := ⟨t.places - pos - 1, by omega⟩
  rw [getElem?_before hpos.le, hn, List.range'_succ, List.findSome?_cons, he]

theorem luaH_next_start : luaH_next hash t .nil = .ok t.entries[0]? := by
  have hstart : findindex hash t .nil = .ok (((0 : ℕ) : ℤ) - 1) := rfl
  rw [luaH_next_eq hstart, ← getElem?_before (Nat.zero_le _)]
  rfl

/-- Behind the position of its key `luaH_next` finds the next entry. -/
theorem luaH_next_of_findindex {key : Index} {pos : ℕ} (hpos : pos < t.places)
    (hi : findindex hash t key = .ok (pos : ℤ)) :
    luaH_next hash t key = .ok t.entries[t.before (pos+1)]? := by
  have hnext : findindex hash t key = .ok (((pos + 1 : ℕ) : ℤ) - 1) := by
    rw [hi]
    congr 1
    omega
  rw [luaH_next_eq hnext, getElem?_before hpos]

/-- An entry of a table has a position, and is found there. -/
theorem Wf.exists_position (h : Wf hash t) {i : ℕ} {k : Key} {v : ν}
    (he : t.entries[i]? = some (k, v)) :
    ∃ pos < t.places, t.entryAt pos = some (k, v) ∧ t.before pos = i ∧
      findindex hash t (.key k) = .ok (pos : ℤ) := by
  have hread := h.mem_entries.mp (List.mem_of_getElem? he)
  obtain ⟨p, hp, hv⟩ := h.read_eq_some_iff.mp hread
  obtain ⟨pos, hpos, rfl⟩ := h.exists_placeAt hp
  have hat : t.entryAt pos = some (k, v) := entryAt_eq_some_iff.mpr ⟨hp, hv⟩
  refine ⟨pos, hpos, hat, ?_, h.findindex_eq hp⟩
  -- no key has two entries
  have hlist := getElem?_of_entryAt hpos hat
  obtain ⟨hlt, -⟩ := List.getElem?_eq_some_iff.mp hlist
  have hkeys : (t.entries.map Prod.fst)[t.before pos]? = (t.entries.map Prod.fst)[i]? := by
    rw [List.getElem?_map, List.getElem?_map, hlist, he]
  exact (List.getElem?_inj (by rwa [List.length_map]) h.nodup_entries).mp hkeys

/-- A string is found in its node, whether that is cleared or not, or nowhere. -/
theorem Wf.findindex_string (h : Wf hash t) (s : ℕ) :
    (∃ pos < t.places, t.Holds (t.placeAt pos) (.string s) ∧
      findindex hash t (.key (.string s)) = .ok (pos : ℤ)) ∨
    (∀ p, ¬ t.Holds p (.string s)) ∧
      findindex hash t (.key (.string s)) = luaG_runerror "invalid key to 'next'" := by
  by_cases hheld : ∃ p, t.Holds p (.string s)
  · obtain ⟨p, hp⟩ := hheld
    obtain ⟨pos, hpos, rfl⟩ := h.exists_placeAt hp
    exact .inl ⟨pos, hpos, hp, h.findindex_eq hp⟩
  · rw [not_exists] at hheld
    refine .inr ⟨hheld, ?_⟩
    have hchain : chain hash t (.string s) = none :=
      (h.linked.walk_eq_none_iff (Nat.lt_succ_self _)).mpr fun n hn => hheld (.node n) hn
    have hindex : arrayindex (.string s) = -1 := rfl
    rw [findindex, hindex, if_neg (by omega), hchain]

/-- The table has come out of operations on a new one. -/
inductive Assigned (hash : Key → ℕ) : Table ν → Prop
  | attempts {fuel narray nhash : ℕ} {t₀ : Table ν} {ops : List (TableOp ν)}
      (hna : narray ≤ MAXASIZE) (hnh : nhash ≤ MAXASIZE) (hops : ∀ op ∈ ops, op.Bounded)
      (hmany : ops.length ≤ MAXASIZE) (hnew : luaH_new narray nhash = .ok t₀) :
      Assigned hash (Attempts.attempts (TableOp.apply hash (fuel+2)) t₀ ops).1

theorem Assigned.wf (h : Assigned hash t) : Wf hash t := by
  cases h with
  | @attempts fuel narray nhash t₀ ops hna hnh hops hmany hnew =>
    obtain ⟨t₁, hnew', -, hend⟩ := standsFor_attempts hash fuel hna hnh hops hmany
    obtain rfl := Except.ok.inj (hnew'.symm.trans hnew)
    exact hend.wf

end Ltable

/-- What the keys and values of a table are for the Lua program. A string is known by the
address of its one copy. -/
structure Reading (ν : Type*) where
  key : Ltable.Key → LuaValue
  value : ν → LuaValue
  intern : Text → ℕ
  key_string : ∀ k s, key k = .string s ↔ k = .string (intern s)

namespace Reading

variable {ν : Type*} (R : Reading ν) (hash : Ltable.Key → ℕ)

def entry (e : Ltable.Key × ν) : LuaValue × LuaValue := (R.key e.1, R.value e.2)

def entries (t : Ltable.Table ν) : Table := t.entries.map R.entry

/-- The nodes that are found for a string although their values are nil. -/
def cleared (t : Ltable.Table ν) : Cleared (R.entries t) := fun s =>
  match Ltable.findindex hash t (.key (.string (R.intern s))) with
  | .error _ => none
  | .ok pos =>
    if h : (t.entryAt pos.toNat).isNone ∧ t.before pos.toNat < (R.entries t).length + 1 then
      some ⟨t.before pos.toNat, h.2⟩
    else none

/-- The key that a slot of the stack holds while a table is gone over: nil in the beginning, an
entry's own, or the string made of it. -/
inductive Names (t : Ltable.Table ν) : Slot → Ltable.Index → Prop
  | start : Names t ⟨.nil, none⟩ .nil
  | entry {i : ℕ} {k : Ltable.Key} {v : ν} (h : t.entries[i]? = some (k, v)) :
    Names t ⟨R.key k, some i⟩ (.key k)
  | text (s : Text) : Names t ⟨.string s, none⟩ (.key (.string (R.intern s)))

/-- The key a loop body leaves that has read it with `lua_tostring` or not. -/
def leftIndex (read : Bool) (k : Ltable.Key) : Ltable.Index :=
  match read, R.key k with
  | true, .number n => .key (.string (R.intern n.text))
  | _, _ => .key k

/-- `while (lua_next(L, -2))` over the vectors, with a body that reads some of the keys. -/
def goOver (touched : LuaValue → Bool) (t : Ltable.Table ν) :
    ℕ → Ltable.Index → Except Ltable.Fault (List (Ltable.Key × ν))
  | 0, _ => .error .stuck
  | fuel+1, key => do
    match ← Ltable.luaH_next hash t key with
    | none => return []
    | some (k, v) =>
      let rest ← goOver touched t fuel (R.leftIndex (touched (R.value v)) k)
      return (k, v) :: rest

variable {R hash} {t : Ltable.Table ν}

theorem getElem?_entries_none {i : ℕ} (h : t.entries[i]? = none) : (R.entries t)[i]? = none := by
  rw [entries, List.getElem?_map, h, Option.map_none]

theorem getElem?_entries_some {i : ℕ} {k : Ltable.Key} {v : ν} (h : t.entries[i]? = some (k, v)) :
    (R.entries t)[i]? = some (R.key k, R.value v) := by
  rw [entries, List.getElem?_map, h, Option.map_some, entry]

theorem names_leftKey {i : ℕ} {k : Ltable.Key} {v : ν} (h : t.entries[i]? = some (k, v))
    (read : Bool) : R.Names t (leftKey read (R.key k) i) (R.leftIndex read k) := by
  have hown : R.Names t ⟨R.key k, some i⟩ (.key k) := .entry h
  cases read with
  | false => exact hown
  | true =>
    obtain ⟨key, hk⟩ : ∃ key, R.key k = key := ⟨_, rfl⟩
    rw [hk] at hown
    simp only [leftIndex, hk]
    cases key with
    | number n => exact .text n.text
    | _ => exact hown

/-- The entry of a string, by the address of the string. -/
theorem findIdx?_string (s : Text) :
    (R.entries t).findIdx? (fun e => decide (e.1 = .string s)) =
      t.entries.findIdx? fun e => decide (e.1 = .string (R.intern s)) := by
  rw [entries, List.findIdx?_map]
  congr 1
  funext e
  exact decide_eq_decide.mpr (R.key_string e.1 s)

/-- The only entry of a string is that at the position of its node. -/
theorem findIdx?_live (h : Ltable.Wf hash t) {k : Ltable.Key} {v : ν} {pos : ℕ}
    (hpos : pos < t.places) (he : t.entryAt pos = some (k, v)) :
    t.entries.findIdx? (fun e => decide (e.1 = k)) = some (t.before pos) := by
  obtain ⟨hlt, hget⟩ := List.getElem?_eq_some_iff.mp (Ltable.getElem?_of_entryAt hpos he)
  rw [List.findIdx?_eq_some_iff_getElem]
  refine ⟨hlt, by rw [hget]; simp, ?_⟩
  intro j hj hkey
  obtain ⟨v', hother⟩ : ∃ v', t.entries[j]? = some (k, v') := by
    refine ⟨(t.entries.get ⟨j, by omega⟩).2, ?_⟩
    rw [List.getElem?_eq_getElem (by omega), ← of_decide_eq_true hkey]
    rfl
  obtain ⟨pos', -, -, hbefore, hfound'⟩ := h.exists_position hother
  have hfound := h.findindex_eq (Ltable.entryAt_eq_some_iff.mp he).1
  have hsame : pos' = pos := by exact_mod_cast Except.ok.inj (hfound'.symm.trans hfound)
  rw [← hbefore, hsame] at hj
  exact absurd hj (lt_irrefl _)

theorem findIdx?_of_read (h : Ltable.Wf hash t) {k : Ltable.Key} (hk : t.read hash k = none) :
    t.entries.findIdx? (fun e => decide (e.1 = k)) = none := by
  rw [List.findIdx?_eq_none_iff]
  rintro ⟨k', v⟩ hin
  have hread := h.mem_entries.mp hin
  simp only [decide_eq_false_iff_not]
  rintro rfl
  rw [hk] at hread
  cases hread

/-- The search for a string finds the position behind its node, live or cleared. -/
theorem findString_eq (h : Ltable.Wf hash t) (s : Text) :
    findString (R.entries t) (R.cleared hash t) s =
      match Ltable.findindex hash t (.key (.string (R.intern s))) with
      | .error _ => .error .luaError
      | .ok pos => .ok (t.before (pos.toNat + 1)) := by
  rw [findString, findIdx?_string, cleared]
  rcases h.findindex_string (R.intern s) with ⟨pos, hpos, hholds, hfound⟩ | ⟨hnone, hfound⟩
  · rw [hfound]
    simp only [Int.toNat_natCast]
    by_cases hlive : t.entryAt pos = none
    · -- the node of a cleared entry
      have hread : t.read hash (.string (R.intern s)) = none := by
        rw [h.read_of_holds hholds, Option.eq_none_iff_forall_not_mem]
        intro v hv
        rw [Ltable.entryAt_eq_some_iff.mpr ⟨hholds, hv⟩] at hlive
        cases hlive
      have hlt : t.before pos < (R.entries t).length + 1 := by
        rw [entries, List.length_map]
        exact Nat.lt_succ_of_le (Ltable.before_le hpos.le)
      have hsucc : t.before (pos+1) = t.before pos := by
        rw [Ltable.before_succ, hlive]
        rfl
      rw [findIdx?_of_read h hread, dif_pos ⟨by rw [hlive]; rfl, hlt⟩, hsucc]
    · obtain ⟨⟨k, v⟩, he⟩ := Option.ne_none_iff_exists'.mp hlive
      obtain rfl : k = .string (R.intern s) :=
        Ltable.holds_key_unique (Ltable.entryAt_eq_some_iff.mp he).1 hholds
      have hsucc : t.before (pos+1) = t.before pos + 1 := by
        rw [Ltable.before_succ, he]
        rfl
      rw [findIdx?_live h hpos he, hsucc]
  · have hread : t.read hash (.string (R.intern s)) = none := by
      rw [Option.eq_none_iff_forall_not_mem]
      intro v hv
      obtain ⟨p, hp, -⟩ := h.read_eq_some_iff.mp hv
      exact hnone p hp
    rw [findIdx?_of_read h hread, hfound]
    rfl

/-- From a key that lies on the stack the API model goes on where `luaH_next` does, and raises
the error of `luaH_next`. -/
theorem findindex_refines (h : Ltable.Wf hash t) {key : Slot} {index : Ltable.Index}
    (hkey : R.Names t key index) :
    match Ltable.luaH_next hash t index with
    | .error _ => findindex (R.entries t) (R.cleared hash t) key = .error .luaError
    | .ok e => ∃ j, findindex (R.entries t) (R.cleared hash t) key = .ok j ∧ t.entries[j]? = e := by
  -- what lies on the stack is nil, an entry's own key, or a text that was made of one
  cases hkey with
  | start =>
    rw [Ltable.luaH_next_start]
    exact ⟨0, rfl, rfl⟩
  | entry he =>
    obtain ⟨pos, hpos, hat, hbefore, hfound⟩ := h.exists_position he
    rw [Ltable.luaH_next_of_findindex hpos hfound]
    refine ⟨_, rfl, ?_⟩
    rw [Ltable.before_succ, hat, hbefore]
    rfl
  | text s =>
    have hstring : findindex (R.entries t) (R.cleared hash t) ⟨.string s, none⟩ =
        findString (R.entries t) (R.cleared hash t) s := rfl
    rw [hstring, findString_eq h s]
    rcases h.findindex_string (R.intern s) with ⟨pos, hpos, -, hfound⟩ | ⟨-, hfound⟩
    · rw [Ltable.luaH_next_of_findindex hpos hfound, hfound]
      exact ⟨_, rfl, rfl⟩
    · rw [Ltable.luaH_next, hfound]
      rfl

/-- `lua_next` on the tables that are read off does what `luaH_next` does on the vectors: it puts
the next entry on the stack, takes the key off behind the last one, or raises its error. -/
theorem luaH_next_refines (h : Ltable.Wf hash t) {key : Slot} {index : Ltable.Index}
    (hkey : R.Names t key index) (s : Machine) (rest : List Slot) :
    let run := (luaH_next (R.entries t) (R.cleared hash t)).run { s with stack := key :: rest }
    (∀ why, Ltable.luaH_next hash t index = .error why → run = .error .luaError) ∧
      (Ltable.luaH_next hash t index = .ok none → run = .ok (false, { s with stack := rest })) ∧
        ∀ k v, Ltable.luaH_next hash t index = .ok (some (k, v)) →
          ∃ j, R.Names t ⟨R.key k, some j⟩ (.key k) ∧
            run =
              .ok (true, { s with stack := ⟨R.value v, none⟩ :: ⟨R.key k, some j⟩ :: rest }) := by
  intro run
  have hnext := findindex_refines h hkey
  refine ⟨fun why hi => ?_, fun hi => ?_, fun k v hi => ?_⟩
  · rw [hi] at hnext
    simp only [run, luaH_next, StateT.run, hnext, bind, Except.bind]
  · rw [hi] at hnext
    obtain ⟨j, hj, he⟩ := hnext
    have hend : (R.entries t)[j]? = none := getElem?_entries_none he
    simp only [run, luaH_next, StateT.run, hj, hend, bind, Except.bind]
    rfl
  · rw [hi] at hnext
    obtain ⟨j, hj, he⟩ := hnext
    have hentry : (R.entries t)[j]? = some (R.key k, R.value v) := getElem?_entries_some he
    refine ⟨j, .entry he, ?_⟩
    simp only [run, luaH_next, StateT.run, hj, hentry, bind, Except.bind]
    rfl

theorem luaH_next_of_ok (h : Ltable.Wf hash t) {key : Slot} {index : Ltable.Index} {j : ℕ}
    (hkey : R.Names t key index)
    (hj : findindex (R.entries t) (R.cleared hash t) key = .ok j) :
    Ltable.luaH_next hash t index = .ok t.entries[j]? := by
  have hnext := findindex_refines h hkey
  cases hi : Ltable.luaH_next hash t index with
  | error why =>
    rw [hi] at hnext
    cases hj.symm.trans hnext
  | ok e =>
    rw [hi] at hnext
    obtain ⟨j', hj', he⟩ := hnext
    obtain rfl := Except.ok.inj (hj.symm.trans hj')
    rw [he]

theorem goOver_of_error (h : Ltable.Wf hash t) {key : Slot} {index : Ltable.Index} {why : Fault}
    (hkey : R.Names t key index)
    (hj : findindex (R.entries t) (R.cleared hash t) key = .error why)
    (touched : LuaValue → Bool) (fuel : ℕ) (vs : List (Ltable.Key × ν)) :
    R.goOver hash touched t fuel index ≠ .ok vs := by
  have hnext := findindex_refines h hkey
  cases fuel with
  | zero => exact fun h => nomatch h
  | succ fuel =>
    rw [goOver]
    cases hi : Ltable.luaH_next hash t index with
    | error why => exact fun h => nomatch h
    | ok e =>
      rw [hi] at hnext
      obtain ⟨j', hj', -⟩ := hnext
      cases hj.symm.trans hj'

theorem goOver_some {key : Ltable.Index} {k : Ltable.Key} {v : ν}
    (hi : Ltable.luaH_next hash t key = .ok (some (k, v))) (touched : LuaValue → Bool) (fuel : ℕ)
    (vs : List (Ltable.Key × ν)) : R.goOver hash touched t (fuel+1) key = .ok vs ↔
      ∃ rest, R.goOver hash touched t fuel (R.leftIndex (touched (R.value v)) k) = .ok rest ∧
        (k, v) :: rest = vs := by
  rw [goOver, hi, bind_eq_ok]
  constructor
  · rintro ⟨e, he, hrest⟩
    obtain rfl := Except.ok.inj he
    obtain ⟨rest, hok, hcons⟩ := bind_eq_ok.mp hrest
    exact ⟨rest, hok, Except.ok.inj hcons⟩
  · rintro ⟨rest, hok, rfl⟩
    exact ⟨some (k, v), rfl, bind_eq_ok.mpr ⟨rest, hok, rfl⟩⟩

/-- The loop over what is read off a table comes to its end exactly when the loop over its
vectors does, and by the same entries. -/
theorem walk_refines (h : Ltable.Wf hash t) (touched : LuaValue → Bool) (fuel : ℕ) {key : Slot}
    {index : Ltable.Index} {j : ℕ} (hkey : R.Names t key index)
    (hj : findindex (R.entries t) (R.cleared hash t) key = .ok j) (es : Table) :
    walk (R.entries t) (R.cleared hash t) touched fuel j = .ok es ↔
      ∃ vs, R.goOver hash touched t fuel index = .ok vs ∧ es = vs.map R.entry := by
  -- induction on the passes; each starts from the key the last one left
  induction fuel generalizing key index j es with
  | zero => simp [walk, goOver]
  | succ fuel ih =>
    have hnext := luaH_next_of_ok h hkey hj
    cases he : t.entries[j]? with
    | none =>
      rw [he] at hnext
      have hend : (R.entries t)[j]? = none := getElem?_entries_none he
      -- neither side has an entry left
      rw [walk, hend, goOver, hnext]
      constructor
      · intro hes
        obtain rfl := Except.ok.inj hes
        exact ⟨[], rfl, rfl⟩
      · rintro ⟨vs, hvs, rfl⟩
        obtain rfl := Except.ok.inj hvs
        rfl
    | some e =>
      obtain ⟨k, v⟩ := e
      rw [he] at hnext
      have hentry : (R.entries t)[j]? = some (R.key k, R.value v) := getElem?_entries_some he
      -- the key as the body leaves it is where both sides go on
      have hleft : R.Names t (leftKey (touched (R.value v)) (R.key k) j)
          (R.leftIndex (touched (R.value v)) k) := names_leftKey he _
      have hposition := findindex_leftKey (R.entries t) (R.cleared hash t) (touched (R.value v))
        (R.key k) j
      simp only [walk, hentry, ← hposition, goOver_some hnext, bind_eq_ok]
      constructor
      · rintro ⟨j', hj', es', hes', hcons⟩
        obtain rfl := Except.ok.inj hcons
        obtain ⟨vs, hvs, rfl⟩ := (ih hleft hj' es').mp hes'
        exact ⟨(k, v) :: vs, ⟨vs, hvs, rfl⟩, rfl⟩
      · rintro ⟨vs, ⟨rest, hrest, rfl⟩, rfl⟩
        cases hj' : findindex (R.entries t) (R.cleared hash t)
            (leftKey (touched (R.value v)) (R.key k) j) with
        | error why => exact absurd hrest (goOver_of_error h hleft hj' touched fuel rest)
        | ok j' => exact ⟨j', rfl, _, (ih hleft hj' _).mpr ⟨rest, hrest, rfl⟩, rfl⟩

end Reading

/-- The same stop, with tables that are kept in vectors. -/
def LuaState.withTables {ν : Type*} (L : LuaState) (R : Reading ν) (hash : Ltable.Key → ℕ)
    (tables : ℕ → Ltable.Table ν) : LuaState :=
  { L with
    heap := fun ref => R.entries (tables ref)
    cleared := fun ref => R.cleared hash (tables ref) }

section Commands

variable {ν : Type*} {L : LuaState} {R : Reading ν} {hash : Ltable.Key → ℕ}
  {tables : ℕ → Ltable.Table ν}

/-- A loop over the globals comes to its end when the loop over their vectors does. -/
theorem walk_withTables (h : Ltable.Wf hash (tables L.globals)) (touched : LuaValue → Bool)
    (es : Table) :
    let stopped := L.withTables R hash tables
    walk (stopped.heap stopped.globals) (stopped.cleared stopped.globals) touched
        ((stopped.heap stopped.globals).length + 1) 0 = .ok es ↔
      ∃ vs, R.goOver hash touched (tables L.globals) ((tables L.globals).entries.length + 1) .nil =
        .ok vs ∧ es = vs.map R.entry := by
  intro stopped
  have hlength : (stopped.heap stopped.globals).length = (tables L.globals).entries.length :=
    List.length_map _
  rw [hlength]
  exact Reading.walk_refines h touched _ .start rfl es

/-- getglobals over the vectors of the globals. -/
theorem getGlobals_withTables (h : Ltable.Wf hash (tables L.globals)) (t : Text) :
    getGlobals .declared (L.withTables R hash tables) = .ok t ↔
      ∃ vs, R.goOver hash (fun v => !v.isFunction) (tables L.globals)
          ((tables L.globals).entries.length + 1) .nil = .ok vs ∧
        (∀ e ∈ vs.map R.entry, entryRoom .declared (L.withTables R hash tables) e) ∧
        (∀ pre, pre <+: vs.map R.entry →
          fits Buffers.declared.val (globalsText (L.withTables R hash tables) pre).length) ∧
        t = globalsText (L.withTables R hash tables) (vs.map R.entry) := by
  rw [getGlobals_eq_ok _ Buffers.inhabited_declared]
  constructor
  · rintro ⟨es, hw, hrest⟩
    obtain ⟨vs, hvs, rfl⟩ := (walk_withTables h _ es).mp hw
    exact ⟨vs, hvs, hrest⟩
  · rintro ⟨vs, hvs, hrest⟩
    exact ⟨_, (walk_withTables h _ _).mpr ⟨vs, hvs, rfl⟩, hrest⟩

/-- display over the vectors of the globals. -/
theorem listGlobals_withTables (h : Ltable.Wf hash (tables L.globals))
    (skips : LuaValue → Bool) :
    listGlobals (L.withTables R hash tables) skips = .ok () ↔
      ∃ vs, R.goOver hash (fun v => !skips v) (tables L.globals)
          ((tables L.globals).entries.length + 1) .nil = .ok vs ∧
        ∀ e ∈ vs.map R.entry, skips e.2 = false → tostring e.1 ≠ none := by
  rw [listGlobals_eq_ok]
  constructor
  · rintro ⟨es, hw, hnames⟩
    obtain ⟨vs, hvs, rfl⟩ := (walk_withTables h _ es).mp hw
    exact ⟨vs, hvs, hnames⟩
  · rintro ⟨vs, hvs, hnames⟩
    exact ⟨_, (walk_withTables h _ _).mpr ⟨vs, hvs, rfl⟩, hnames⟩

end Commands

/-- Over globals that assignments have made, getglobals and display do on the registers of the
hooked function what the loops of `luaH_next` over the vectors say: getglobals answers with the
text of the entries its loop comes by, if that ends and the arrays have room at each of them, and
display comes to its end if its loop does and the keys it reads have texts. -/
theorem inspection_over_vectors {ν : Type*} (L : LuaState) (R : Reading ν)
    (hash : Ltable.Key → ℕ) (tables : ℕ → Ltable.Table ν)
    (h : Ltable.Assigned hash (tables L.globals)) (list args : List Text) :
    let stopped := L.withTables R hash tables
    let goesOver (skips : LuaValue → Bool) (vs : List (Ltable.Key × ν)) :=
      R.goOver hash (fun v => !skips v) (tables L.globals)
        ((tables L.globals).entries.length + 1) .nil = .ok vs
    (∀ t, (inspect stopped list (txt "getglobals") args).run (Machine.hooked stopped) =
        .ok (some t, Machine.hooked stopped) ↔
      ∃ vs, goesOver LuaValue.isFunction vs ∧
        (∀ e ∈ vs.map R.entry, entryRoom .declared stopped e) ∧
        (∀ pre, pre <+: vs.map R.entry →
          fits Buffers.declared.val (globalsText stopped pre).length) ∧
        t = globalsText stopped (vs.map R.entry)) ∧
      ((inspect stopped list (txt "display") args).run (Machine.hooked stopped) =
          .ok (none, Machine.hooked stopped) ↔
        ∃ vs, goesOver (displaySkips args) vs ∧
          ∀ e ∈ vs.map R.entry, displaySkips args e.2 = false → tostring e.1 ≠ none) := by
  intro stopped goesOver
  have hgetglobals : dispatch (txt "getglobals") = .getGlobals := by decide
  have hdisplay : dispatch (txt "display") = .display := by decide
  -- the commands leave the stack as it was, so that only what they compute is left to look at
  constructor
  · intro t
    have hends := inspect_ends (L := stopped) list (txt "getglobals") args (some t)
      (Machine.hooked stopped)
    rw [hends, and_iff_left rfl, inspected, hgetglobals, ← getGlobals_withTables h.wf]
    change (getGlobals .declared stopped >>= fun t => .ok (some t)) = .ok (some t) ↔
      getGlobals .declared stopped = .ok t
    cases getGlobals .declared stopped <;> simp [bind, Except.bind]
  · have hends := inspect_ends (L := stopped) list (txt "display") args none
      (Machine.hooked stopped)
    rw [hends, and_iff_left rfl, inspected, hdisplay, ← listGlobals_withTables h.wf]
    change (listGlobals stopped (displaySkips args) >>= fun _ => .ok none) = .ok none ↔
      listGlobals stopped (displaySkips args) = .ok ()
    cases listGlobals stopped (displaySkips args) <;> simp [bind, Except.bind]

/-- With it every text has a number, which can be its address. -/
instance charEncodable : Encodable Char := Encodable.ofLeftInverse Char.toNat Char.ofNat Char.ofNat_toNat

/-- Keys of one digit, strings, and values of other types. -/
def ownAddresses : Reading LuaValue where
  key
    | .integer n => .number (digit (Fin.ofNat 10 n.toNat))
    | .string address => ((Encodable.decode₂ Text address).map .string).getD .nil
    | .boolean b => .boolean b
    | _ => .userdata
  value := id
  intern := Encodable.encode
  key_string k s := by
    cases k with
    | string address =>
      rw [Ltable.Key.string.injEq, eq_comm (a := address), ← Encodable.decode₂_eq_some]
      dsimp only
      cases Encodable.decode₂ Text address <;> simp
    | _ => simp

/-- `_G["1"] = "s"; _G["1"] = nil; _G[1] = "x"`. -/
def clearedOne : List (Ltable.TableOp LuaValue) :=
  let one := ownAddresses.intern (txt "1")
  [.setstr one (some (.string (txt "s"))), .setstr one none, .setnum 1 (some (.string (txt "x")))]

/-- Strings behind numbers. -/
def stringsLast : Ltable.Key → ℕ
  | .string _ => 3
  | _ => 1

/-- The text of the key 1 is found in the node that was cleared, and display comes to its end. -/
theorem inspection_over_vectors_cleared :
    ∃ t₀, Ltable.luaH_new 0 4 = .ok t₀ ∧
      let stopped := (LuaState.mainChunk (txt "@a.lua") 4).withTables ownAddresses stringsLast
        fun _ => (Attempts.attempts (Ltable.TableOp.apply stringsLast 2) t₀ clearedOne).1
      (inspect stopped [] (txt "display") []).run (Machine.hooked stopped) =
        .ok (none, Machine.hooked stopped) := by
  obtain ⟨t₀, hnew⟩ : ∃ t₀, (Ltable.luaH_new 0 4 : Except _ (Ltable.Table LuaValue)) = .ok t₀ :=
    ⟨_, rfl⟩
  refine ⟨t₀, hnew, ?_⟩
  have hbounded : ∀ op ∈ clearedOne, op.Bounded := by
    intro op hop
    simp only [clearedOne, List.mem_cons, List.not_mem_nil, or_false] at hop
    rcases hop with rfl | rfl | rfl <;> trivial
  have hmade : Ltable.Assigned stringsLast
      (Attempts.attempts (Ltable.TableOp.apply stringsLast 2) t₀ clearedOne).1 :=
    .attempts (by decide) (by decide) hbounded (by decide) hnew
  refine (inspection_over_vectors _ ownAddresses stringsLast _ hmade [] []).2.mpr ?_
  obtain rfl := Except.ok.inj hnew
  refine ⟨[(.integer 1, .string (txt "x"))], ?_, ?_⟩
  · decide +kernel
  · intro e he _
    rw [List.mem_singleton.mp he]
    decide

end LuaIde
