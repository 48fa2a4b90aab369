import LuaIde.CheckedState
import LuaIde.LdbReplies

/-! The functions of the Lua API that ldb calls in a line hook, on the registers of the hooked
function: what they push and pop, and the conversion of `lua_tostring` in place. -/
namespace LuaIde

open LineText CheckedFold CheckedState

/-- A stack slot. `position` is where a traversal found the value as a key of its table: keys
without a text of their own are known to `lua_next` by it. -/
structure Slot where
  value : LuaValue
  position : Option ℕ
deriving DecidableEq

/-- What the API functions work on: the stack of the hooked function, its top first, and the
tables. -/
structure Machine where
  stack : List Slot
  heap : ℕ → Table
  cleared : (ref : ℕ) → Cleared (heap ref)

abbrev Api := StateT Machine (Except Fault)

/-- The registers of the hooked function, when the hook is called. -/
def Machine.hooked (L : LuaState) : Machine where
  stack := (L.stack.map (fun v => ⟨v, none⟩)).reverse
  heap := L.heap
  cleared := L.cleared

/-- `index2adr`, as a position from the top. -/
def Machine.index2adr (s : Machine) (index : ℤ) : Option ℕ :=
  if 0 < index then
    if index.toNat ≤ s.stack.length then some (s.stack.length - index.toNat) else none
  else some (-index - 1).toNat

/-- A value at an index, or `luaO_nilobject`. -/
def Machine.at (s : Machine) (index : ℤ) : LuaValue :=
  (((s.index2adr index).bind (s.stack[·]?)).map Slot.value).getD .nil

namespace Machine

def push (s : Machine) (v : LuaValue) : Machine := { s with stack := ⟨v, none⟩ :: s.stack }

def pop (s : Machine) (n : ℕ) : Machine := { s with stack := s.stack.drop n }

end Machine

def lua_pushnil : Api PUnit := modify (·.push .nil)

/-- `lua_pushvalue(L, LUA_GLOBALSINDEX)`. -/
def lua_pushglobals (L : LuaState) : Api PUnit := modify (·.push (.table L.globals))

def lua_pop (n : ℕ) : Api PUnit := modify (·.pop n)

/-- What `lua_type`, `lua_tonumber` and `lua_toboolean` look at. -/
def lua_index (index : ℤ) : Api LuaValue := do
  return (← get).at index

def lua_toboolean (index : ℤ) : Api Bool := do
  return (← lua_index index).toboolean

/-- `lua_tostring`: a number in the slot is converted, and is no key found by a traversal
any longer. -/
def lua_tostring (index : ℤ) : Api (Option Text) := do
  match ← lua_index index with
  | .string s => return some (cstr s)
  | .number n =>
    modify fun s =>
      { s with
        stack := match s.index2adr index with
          | some adr => s.stack.set adr ⟨.string n.text, none⟩
          | none => s.stack }
    return some n.text
  | _ => return none

/-- `findindex`, as the position a traversal goes on from. -/
def findindex (tbl : Table) (cleared : Cleared tbl) (key : Slot) : Except Fault ℕ :=
  match key.position, key.value with
  | some i, _ => .ok (i+1)
  | none, .nil => .ok 0
  | none, .string s => findString tbl cleared s
  | none, _ => .error .luaError

/-- `luaH_next` with the key on top of the stack. -/
def luaH_next (tbl : Table) (cleared : Cleared tbl) : Api Bool := fun s =>
  match s.stack with
  | [] => .error .luaError
  | key :: rest => do
    let j ← findindex tbl cleared key
    match tbl[j]? with
    | some (k, v) => return (true, { s with stack := ⟨v, none⟩ :: ⟨k, some j⟩ :: rest })
    | none => return (false, { s with stack := rest })

def lua_next (index : ℤ) : Api Bool := do
  let s ← get
  match s.at index with
  | .table ref => luaH_next (s.heap ref) (s.cleared ref)
  | _ => throw .luaError

/-- The variables `lua_getlocal` finds at a level. Those of level 0 are on the stack itself. -/
def Machine.localsAt (s : Machine) (L : LuaState) (nLevel : ℤ) : List (Text × LuaValue) :=
  if nLevel = 0 then
    s.stack.reverse.mapIdx (fun i slot =>
      ((L.hooked.active[i]?.map Prod.fst).getD temporaryName, slot.value))
  else ((L.getstack nLevel).map L.getlocals).getD []

/-- `lua_getlocal` pushes the variable it finds, and returns its name. -/
def lua_getlocal (L : LuaState) (nLevel : ℤ) (n : ℕ) : Api (Option Text) := do
  match ((← get).localsAt L nLevel)[n - 1]? with
  | some (name, value) =>
    modify (·.push value)
    return some name
  | none => return none

/-- `while (lua_next(L, -2))`. A loop with more passes than the table has entries never ends. -/
def whileNext {σ : Type} (body : σ → Api σ) : ℕ → σ → Api σ
  | 0, _ => throw .endless
  | fuel+1, s => do
    if ← lua_next (-2) then
      let s ← body s
      whileNext body fuel s
    else return s

/-- `while ((name = lua_getlocal(L, &ar, i++)) != NULL)`. The body sees `i` behind the
increment. -/
def whileLocal {σ : Type} (L : LuaState) (nLevel : ℤ) (body : σ → ℕ → Text → Api (ForInStep σ)) :
    ℕ → ℕ → σ → Api σ
  | 0, _, _ => throw .endless
  | fuel+1, i, s => do
    match ← lua_getlocal L nLevel i with
    | none => return s
    | some name =>
      match ← body s (i+1) name with
      | .done s => return s
      | .yield s => whileLocal L nLevel body fuel (i+1) s

namespace Machine

variable (s : Machine)

/-- A table in front of its traversal, with the key of the traversal on it, and with an entry. -/
def atKey (ref : ℕ) (key : Slot) : Machine :=
  { s with stack := key :: ⟨.table ref, none⟩ :: s.stack }

def atEntry (ref : ℕ) (key : Slot) (v : LuaValue) : Machine :=
  { s with stack := ⟨v, none⟩ :: key :: ⟨.table ref, none⟩ :: s.stack }

@[simp] theorem at_atKey (ref : ℕ) (key : Slot) : (s.atKey ref key).at (-2) = .table ref := rfl

@[simp] theorem at_value (ref : ℕ) (key : Slot) (v : LuaValue) :
    (s.atEntry ref key v).at (-1) = v := rfl

@[simp] theorem at_key (ref : ℕ) (key : Slot) (v : LuaValue) :
    (s.atEntry ref key v).at (-2) = key.value := rfl

@[simp] theorem at_top (v : LuaValue) : (s.push v).at (-1) = v := rfl

@[simp] theorem pop_push (v : LuaValue) : (s.push v).pop 1 = s := rfl

@[simp] theorem pop_atEntry (ref : ℕ) (key : Slot) (v : LuaValue) :
    (s.atEntry ref key v).pop 1 = s.atKey ref key := rfl

@[simp] theorem push_nil (ref : ℕ) : (s.push (.table ref)).push .nil = s.atKey ref ⟨.nil, none⟩ :=
  rfl

@[simp] theorem heap_push (v : LuaValue) : (s.push v).heap = s.heap := rfl

end Machine

theorem lua_index_ends (index : ℤ) (s : Machine) : Ends (lua_index index) s (.ok (s.at index)) s :=
  Ends.step (Ends.reads s) (Ends.returns _ s)

/-- Taking the top off behind a result. -/
theorem lua_pop_ends {α : Type} (n : ℕ) (a : α) (s : Machine) :
    Ends (do lua_pop n; return a : Api α) s (.ok a) (s.pop n) :=
  Ends.step (Ends.modifies _ s) (Ends.returns a _)

/-- The key a loop body leaves behind that has `read` it with `lua_tostring` or not. -/
def leftKey (read : Bool) (key : LuaValue) (i : ℕ) : Slot :=
  match read, key with
  | true, .number n => ⟨.string n.text, none⟩
  | _, _ => ⟨key, some i⟩

theorem findindex_leftKey (tbl : Table) (cleared : Cleared tbl) (read : Bool) (key : LuaValue)
    (i : ℕ) :
    findindex tbl cleared (leftKey read key i) = nextPosition tbl cleared read key i := by
  cases read with
  | false => rfl
  | true => cases key <;> rfl

section Traversal

variable {s : Machine} {ref : ℕ}

/-- One step of a traversal, from the key that lies on the table. -/
theorem lua_next_run (key : Slot) : (lua_next (-2)).run (s.atKey ref key) =
    findindex (s.heap ref) (s.cleared ref) key >>= fun j =>
      match (s.heap ref)[j]? with
      | some (k, v) => .ok (true, s.atEntry ref ⟨k, some j⟩ v)
      | none => .ok (false, s.push (.table ref)) := rfl

variable {σ : Type} {body : σ → Api σ} (touched : LuaValue → Bool)
  (result : σ → LuaValue → LuaValue → Except Fault σ)

/-- A traversal whose body takes the value off and leaves the key comes to its end as the same
loop over the entries does, and then only the table is left. -/
theorem whileNext_run
    (hbody : ∀ (x : σ) (i : ℕ) (k v : LuaValue), (s.heap ref)[i]? = some (k, v) →
      Ends (body x) (s.atEntry ref ⟨k, some i⟩ v) (result x k v)
        (s.atKey ref (leftKey (touched v) k i)))
    (fuel : ℕ) (x : σ) (key : Slot) (y : σ) (u : Machine) :
    (whileNext body fuel x).run (s.atKey ref key) = .ok (y, u) ↔
      (∃ j, findindex (s.heap ref) (s.cleared ref) key = .ok j ∧
        traverse (s.heap ref) (s.cleared ref) touched result fuel j x = .ok y) ∧
        u = s.push (.table ref) := by
  -- induction on the passes; each starts from the key the last one left
  induction fuel generalizing x key with
  | zero =>
    have hrun : (whileNext body 0 x).run (s.atKey ref key) = .error .endless := rfl
    simp [hrun, traverse]
  | succ fuel ih =>
    rw [whileNext, StateT.run_bind, lua_next_run, bind_eq_ok]
    simp only [bind_eq_ok]
    constructor
    · rintro ⟨⟨b, w⟩, ⟨j, hj, hnext⟩, hrest⟩
      cases he : (s.heap ref)[j]? with
      | none =>
        rw [he] at hnext
        obtain ⟨rfl, rfl⟩ := Prod.mk.inj (Except.ok.inj hnext)
        obtain ⟨rfl, rfl⟩ := Prod.mk.inj (Except.ok.inj hrest)
        exact ⟨⟨j, hj, by rw [traverse, he]⟩, rfl⟩
      -- the body succeeds, and the loop goes on with the key behind this entry
      | some e =>
        obtain ⟨k, v⟩ := e
        rw [he] at hnext
        obtain ⟨rfl, rfl⟩ := Prod.mk.inj (Except.ok.inj hnext)
        rw [if_pos rfl, StateT.run_bind, bind_eq_ok] at hrest
        obtain ⟨⟨x', w⟩, hrun, hrest⟩ := hrest
        obtain ⟨hx', rfl⟩ := (hbody x j k v he x' w).mp hrun
        obtain ⟨⟨j', hj', ht⟩, rfl⟩ := (ih x' _).mp hrest
        rw [findindex_leftKey] at hj'
        refine ⟨⟨j, hj, ?_⟩, rfl⟩
        simp only [traverse, he, bind_eq_ok]
        exact ⟨x', hx', j', hj', ht⟩
    · rintro ⟨⟨j, hj, ht⟩, rfl⟩
      cases he : (s.heap ref)[j]? with
      | none =>
        simp only [traverse, he, Except.ok.injEq] at ht
        subst ht
        exact ⟨_, ⟨j, hj, by rw [he]⟩, rfl⟩
      | some e =>
        obtain ⟨k, v⟩ := e
        simp only [traverse, he, bind_eq_ok] at ht
        obtain ⟨x', hx', j', hj', ht⟩ := ht
        refine ⟨_, ⟨j, hj, by rw [he]⟩, ?_⟩
        rw [if_pos rfl, StateT.run_bind, bind_eq_ok]
        refine ⟨(x', _), (hbody x j k v he x' _).mpr ⟨hx', rfl⟩, (ih x' _).mpr ⟨⟨j', ?_, ht⟩, rfl⟩⟩
        rw [findindex_leftKey]
        exact hj'

/-- The same from the first key on. -/
theorem whileNext_ends
    (hbody : ∀ (x : σ) (i : ℕ) (k v : LuaValue), (s.heap ref)[i]? = some (k, v) →
      Ends (body x) (s.atEntry ref ⟨k, some i⟩ v) (result x k v)
        (s.atKey ref (leftKey (touched v) k i)))
    (fuel : ℕ) (x : σ) :
    Ends (whileNext body fuel x) (s.atKey ref ⟨.nil, none⟩)
      (traverse (s.heap ref) (s.cleared ref) touched result fuel 0 x) (s.push (.table ref)) := by
  intro y u
  rw [whileNext_run touched result hbody]
  apply and_congr_left'
  constructor
  · rintro ⟨j, hj, ht⟩
    obtain rfl := Except.ok.inj hj
    exact ht
  · intro ht
    exact ⟨0, rfl, ht⟩

/-- `lua_tostring` on the key of a traversal. -/
theorem lua_tostring_key (k v : LuaValue) (i : ℕ) :
    Ends (lua_tostring (-2)) (s.atEntry ref ⟨k, some i⟩ v) (.ok (tostring k))
      (s.atEntry ref (leftKey true k i) v) := by
  refine Ends.step (lua_index_ends _ _) ?_
  rw [Machine.at_key]
  cases k with
  | number n => exact Ends.step (Ends.modifies _ _) (Ends.returns _ _)
  | _ => exact Ends.returns _ _

end Traversal

/-- A loop over local variables that can be left early. -/
def forLocals {σ : Type} (result : σ → ℕ → Text → LuaValue → Except Fault (ForInStep σ)) :
    ℕ → List (Text × LuaValue) → σ → Except Fault σ
  | _, [], s => .ok s
  | i, (name, v) :: rest, s => do
    match ← result s (i+1) name v with
    | .done s => .ok s
    | .yield s => forLocals result (i+1) rest s

theorem lua_getlocal_ends (s : Machine) (L : LuaState) (nLevel : ℤ) (n : ℕ) :
    match (s.localsAt L nLevel)[n - 1]? with
    | some (name, v) => Ends (lua_getlocal L nLevel n) s (.ok (some name)) (s.push v)
    | none => Ends (lua_getlocal L nLevel n) s (.ok none) s := by
  cases h : (s.localsAt L nLevel)[n - 1]? with
  | none =>
    refine Ends.step (Ends.reads s) ?_
    rw [h]
    exact Ends.returns _ _
  | some e =>
    refine Ends.step (Ends.reads s) ?_
    rw [h]
    exact Ends.step (Ends.modifies _ _) (Ends.returns _ _)

/-- A loop over the local variables whose body takes the value off restores the stack. -/
theorem whileLocal_ends {σ : Type} {s : Machine} {L : LuaState} {nLevel : ℤ}
    {body : σ → ℕ → Text → Api (ForInStep σ)}
    {result : σ → ℕ → Text → LuaValue → Except Fault (ForInStep σ)}
    (hbody : ∀ x i name v, Ends (body x (i+1) name) (s.push v) (result x (i+1) name v) s)
    (fuel i : ℕ) (x : σ) (hi : i ≤ (s.localsAt L nLevel).length)
    (hf : (s.localsAt L nLevel).length < fuel + i) :
    Ends (whileLocal L nLevel body fuel (i+1) x) s
      (forLocals result (i+1) ((s.localsAt L nLevel).drop i) x) s := by
  induction fuel generalizing i x with
  | zero => omega
  | succ fuel ih =>
    have hlocal := lua_getlocal_ends s L nLevel (i+1)
    rw [Nat.add_sub_cancel] at hlocal
    -- `lua_getlocal` returns NULL behind the last local, and pushes nothing then
    cases he : (s.localsAt L nLevel)[i]? with
    | none =>
      rw [he] at hlocal
      have hend : (s.localsAt L nLevel).drop i = [] :=
        List.drop_eq_nil_of_le (List.getElem?_eq_none_iff.mp he)
      rw [hend]
      exact Ends.step hlocal (Ends.returns x s)
    | some e =>
      obtain ⟨name, v⟩ := e
      rw [he] at hlocal
      obtain ⟨hlt, hget⟩ := List.getElem?_eq_some_iff.mp he
      rw [List.drop_eq_getElem_cons hlt, hget]
      refine Ends.step hlocal (Ends.bind (hbody x (i+1) name v) fun r _ => ?_)
      cases r with
      | done y => exact Ends.returns y s
      | yield y => exact ih (i+1) y hlt (by omega)

/-- What `lua_getlocal` finds in the hook. -/
theorem localsAt_hooked {L : LuaState} {nLevel : ℤ} {level : Level}
    (h : L.getstack nLevel = some level) :
    (Machine.hooked L).localsAt L nLevel = L.getlocals level := by
  by_cases hz : nLevel = 0
  · have hlevel : level = .lua L.hooked := by
      rw [hz, LuaState.getstack, if_neg (by omega)] at h
      exact (Option.some.inj h).symm
    rw [Machine.localsAt, if_pos hz, hlevel]
    apply List.ext_getElem
    · simp [Machine.hooked, LuaState.stack, LuaState.getlocals]
    · intro i hi hi'
      simp only [Machine.hooked, List.reverse_reverse, List.getElem_mapIdx, List.getElem_map,
        LuaState.stack]
      simp only [LuaState.getlocals, LuaFrame.locals] at hi' ⊢
      by_cases hlt : i < L.hooked.active.length
      · rw [List.getElem_append_left hlt]
        simp [hlt]
      · have hnone : L.hooked.active[i]? = none := List.getElem?_eq_none_iff.mpr (by omega)
        rw [List.getElem_append_right (by omega), hnone]
        simp
  · rw [Machine.localsAt, if_neg hz, h]
    rfl

/-- A positive index counts from the bottom. -/
theorem Machine.at_fromBottom (s : Machine) (i : ℕ) :
    s.at ((i + 1 : ℕ) : ℤ) = ((s.stack.map Slot.value).reverse[i]?).getD .nil := by
  have hpos : (0 : ℤ) < ((i + 1 : ℕ) : ℤ) := by omega
  rw [Machine.at, Machine.index2adr, if_pos hpos, Int.toNat_natCast]
  split
  · next hle =>
    rw [List.getElem?_reverse (by rw [List.length_map]; omega), List.length_map, List.getElem?_map,
      Option.bind_some, Nat.sub_sub, Nat.add_comm 1 i]
  · next hlt =>
    have hnone : (s.stack.map Slot.value).reverse[i]? = none := by
      rw [List.getElem?_eq_none_iff]
      simp
      omega
    rw [hnone]
    rfl

theorem hooked_values (L : LuaState) :
    ((Machine.hooked L).stack.map Slot.value).reverse = L.stack := by
  simp [Machine.hooked, Function.comp_def]

theorem at_hooked (L : LuaState) (i : ℕ) :
    (Machine.hooked L).at ((i + 1 : ℕ) : ℤ) = L.slot [] (i+1) := by
  rw [Machine.at_fromBottom, hooked_values, LuaState.slot, List.append_nil]

theorem at_pushed (L : LuaState) (v : LuaValue) (i : ℕ) :
    ((Machine.hooked L).push v).at ((i + 1 : ℕ) : ℤ) = L.slot [v] (i+1) := by
  rw [Machine.at_fromBottom, LuaState.slot, ← hooked_values L]
  simp [Machine.push]

/-- The first slot is that of a register, or of the table, whatever the key is. -/
theorem at_first (L : LuaState) (ref : ℕ) (key : Slot) (k v : LuaValue) :
    ((Machine.hooked L).atEntry ref key v).at 1 = L.slot [.table ref, k, v] 1 := by
  have h : ((Machine.hooked L).atEntry ref key v).at 1 = _ := Machine.at_fromBottom _ 0
  have hvalues : (((Machine.hooked L).atEntry ref key v).stack.map Slot.value).reverse =
      L.stack ++ [.table ref, key.value, v] := by
    rw [← hooked_values L]
    simp [Machine.atEntry]
  rw [h, hvalues, LuaState.slot]
  cases L.stack <;> rfl

end LuaIde
