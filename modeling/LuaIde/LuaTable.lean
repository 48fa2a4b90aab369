import LuaIde.ChainedScatter
import Mathlib.Data.Nat.Bitwise
import Mathlib.Data.Nat.Size
import Mathlib.Logic.Function.Basic

/-! Lua tables as `ltable.c` keeps them: a vector for the keys from 1 on and a vector of nodes
for the others. A value is `none` where it is nil. -/
namespace LuaIde.Ltable

open Function ChainedScatter

/-- What can be the key of an entry. `integer` are the numbers without a fraction, of any size,
and `number` the others; a string is the address of its one copy, and `pointer` are the values
of another type `tt` that are known by their address. Two keys are equal for
`luaO_rawequalObj` when they are the same. -/
inductive Key where
  | integer (n : ℤ)
  | number (bits : BitVec 64)
  | string (address : ℕ)
  | boolean (b : Bool)
  | pointer (tt : ℕ) (address : ℕ)
deriving DecidableEq

/-- What a table can be indexed with: also two values no entry has as its key. -/
inductive Index where
  | nil
  | nan
  | key (k : Key)
deriving DecidableEq

structure Node (ν : Type*) where
  key : Option Key
  val : Option ν
  next : Option ℕ

/-- `Table`. Vectors are functions of the index, their sizes are `sizearray` and
`2 ^ lsizenode`; `dummynode` says that `node` is the common one. `lastfree` counts the nodes
before the pointer. -/
structure Table (ν : Type*) where
  sizearray : ℕ
  array : ℕ → Option ν
  lsizenode : ℕ
  node : ℕ → Node ν
  dummynode : Bool
  lastfree : ℕ

/-- A pointer to a value in a table. -/
inductive Place where
  | array (i : ℕ)
  | node (i : ℕ)
deriving DecidableEq

/-- `stuck` is where the fuel is used up, or where a node without a key or without a next node
would be followed. -/
inductive Fault where
  | runerror (msg : String)
  | stuck
deriving DecidableEq

def luaG_runerror {α : Type*} (msg : String) : Except Fault α := .error (.runerror msg)

def MAXBITS : ℕ := 26

def MAXASIZE : ℕ := 2 ^ MAXBITS

def MAX_INT : ℕ := 2147483645

/-- The table `log_2` of `luaO_log2`: `2 ^ (n-1)` entries `n`. -/
def log_2 : List ℕ := 0 :: (List.range 8).flatMap (fun n => List.replicate (2 ^ n) (n+1))

/-- `luaO_log2(x) + 1`, with `l` counting the eights. -/
def log2Loop : ℕ → ℕ → ℕ → ℕ
  | 0, l, x => l + log_2.getD x 0
  | rest+1, l, x => if 256 ≤ x then log2Loop rest (l+8) (x >>> 8) else l + log_2.getD x 0

def ceillog2 (x : ℕ) : ℕ := log2Loop x 0 (x-1)

namespace Table

variable {ν : Type*}

def val (t : Table ν) : Place → Option ν
  | .array i => t.array i
  | .node i => (t.node i).val

/-- An assignment through a pointer. -/
def store (t : Table ν) (p : Place) (v : Option ν) : Table ν :=
  match p with
  | .array i => { t with array := update t.array i v }
  | .node i => { t with node := update t.node i { t.node i with val := v } }

def sizenode (t : Table ν) : ℕ := 2 ^ t.lsizenode

end Table

section

variable {ν : Type*}

-- The number `mainposition` takes the node of a key from: what `hashnum` adds up, the hash of a
-- string, 0 or 1, or an address.
variable (hash : Key → ℕ)

/-- `mainposition`: `lmod` for strings and booleans, else `hashmod`. -/
def mainposition (lsizenode : ℕ) (k : Key) : ℕ :=
  match k with
  | .string _ | .boolean _ => hash k &&& (2 ^ lsizenode - 1)
  | _ => hash k % ((2 ^ lsizenode - 1) ||| 1)

def arrayindex : Key → ℤ
  | .integer n => if -(2 ^ 31) ≤ n ∧ n < 2 ^ 31 then n else -1
  | _ => -1

/-- The loop that checks whether a key is somewhere in the chain. -/
def chain (t : Table ν) (k : Key) : Option ℕ :=
  ChainedScatter.walk (fun i => (t.node i).key = some k) (fun i => (t.node i).next)
    (t.sizenode + 1) (mainposition hash t.lsizenode k)

/-- `luaH_getnum`. `none` points to `luaO_nilobject`. -/
def luaH_getnum (t : Table ν) (key : ℤ) : Option Place :=
  if 0 ≤ key - 1 ∧ key - 1 < t.sizearray then some (.array (key - 1).toNat)
  else (chain hash t (.integer key)).map .node

def luaH_getstr (t : Table ν) (key : ℕ) : Option Place :=
  (chain hash t (.string key)).map .node

/-- `luaH_get`. The number of no int goes through to the search for other keys; it finds nothing
where the index is not equal to itself. -/
def luaH_get (t : Table ν) : Index → Option Place
  | .nil => none
  | .nan => none
  | .key (.string s) => luaH_getstr hash t s
  | .key (.integer n) =>
    if -(2 ^ 31) ≤ n ∧ n < 2 ^ 31 then luaH_getnum hash t n
    else (chain hash t (.integer n)).map .node
  | .key k => (chain hash t k).map .node

/-- `getfreepos`: the node behind which `lastfree` stops. -/
def getfreepos (node : ℕ → Node ν) : ℕ → Option ℕ
  | 0 => none
  | i+1 => if (node i).key = none then some i else getfreepos node i

/-! ### Rehash -/

/-- The loop of `computesizes` from `i` on, with its variables: the sizes of the array part
and the number of its elements. -/
def computesizesLoop (nums : ℕ → ℕ) (narray : ℕ) : ℕ → ℕ → ℕ → ℕ → ℕ → ℕ → ℕ × ℕ
  | 0, _, _, _, na, n => (n, na)
  | rest+1, i, twotoi, a, na, n =>
    if twotoi / 2 < narray then
      let a' := if nums i > 0 then a + nums i else a
      let (na', n') := if nums i > 0 ∧ a' > twotoi / 2 then (a', twotoi) else (na, n)
      if a' = narray then (n', na')
      else computesizesLoop nums narray rest (i+1) (twotoi * 2) a' na' n'
    else (n, na)

/-- `computesizes`. The loop goes no further than the vector `nums`. -/
def computesizes (nums : ℕ → ℕ) (narray : ℕ) : ℕ × ℕ :=
  computesizesLoop nums narray (MAXBITS+1) 0 1 0 0 0

def countint (key : Key) (nums : ℕ → ℕ) : ℕ × (ℕ → ℕ) :=
  let k := arrayindex key
  if 0 < k ∧ k ≤ MAXASIZE then
    (1, update nums (ceillog2 k.toNat) (nums (ceillog2 k.toNat) + 1))
  else (0, nums)

/-- The loop of `numusearray` over the slices from `lg` on. -/
def numusearrayLoop (t : Table ν) : ℕ → ℕ → ℕ → ℕ → ℕ → (ℕ → ℕ) → ℕ × (ℕ → ℕ)
  | 0, _, _, _, ause, nums => (ause, nums)
  | rest+1, lg, ttlg, i, ause, nums =>
    if ttlg > t.sizearray ∧ i > t.sizearray then (ause, nums)
    else
      let lim := min ttlg t.sizearray
      let lc := (List.range' i (lim+1-i)).countP (fun i => (t.array (i-1)).isSome)
      numusearrayLoop t rest (lg+1) (ttlg*2) (max i (lim+1)) (ause+lc)
        (update nums lg (nums lg + lc))

def numusearray (t : Table ν) (nums : ℕ → ℕ) : ℕ × (ℕ → ℕ) :=
  numusearrayLoop t (MAXBITS+1) 0 1 1 0 nums

/-- The loop of `numusehash` with `i` nodes to go: what it counts of the array keys, and of all. -/
def numusehashLoop (t : Table ν) : ℕ → ℕ → ℕ → (ℕ → ℕ) → ℕ × ℕ × (ℕ → ℕ)
  | 0, ause, totaluse, nums => (ause, totaluse, nums)
  | i+1, ause, totaluse, nums =>
    match (t.node i).key, (t.node i).val with
    | some k, some _ =>
      let (c, nums') := countint k nums
      numusehashLoop t i (ause+c) (totaluse+1) nums'
    | _, _ => numusehashLoop t i ause totaluse nums

def numusehash (t : Table ν) (nums : ℕ → ℕ) : ℕ × ℕ × (ℕ → ℕ) :=
  numusehashLoop t t.sizenode 0 0 nums

def setarrayvector (t : Table ν) (size : ℕ) : Table ν :=
  { t with array := fun i => if t.sizearray ≤ i ∧ i < size then none else t.array i
           sizearray := size }

def setnodevector (t : Table ν) (size : ℕ) : Except Fault (Table ν) :=
  if size = 0 then
    .ok { t with node := fun _ => ⟨none, none, none⟩, dummynode := true, lsizenode := 0,
                 lastfree := 0 }
  else if ceillog2 size > MAXBITS then luaG_runerror "table overflow"
  else .ok { t with node := fun _ => ⟨none, none, none⟩, dummynode := false,
                    lsizenode := ceillog2 size, lastfree := 2 ^ ceillog2 size }

/-- `luaH_setnum`, with the function that makes a new key. -/
def luaH_setnum (newkey : Table ν → Key → Except Fault (Table ν × Place)) (t : Table ν)
    (key : ℤ) : Except Fault (Table ν × Place) :=
  match luaH_getnum hash t key with
  | some p => .ok (t, p)
  | none => newkey t (.integer key)

def luaH_setstr (newkey : Table ν → Key → Except Fault (Table ν × Place)) (t : Table ν)
    (key : ℕ) : Except Fault (Table ν × Place) :=
  match luaH_getstr hash t key with
  | some p => .ok (t, p)
  | none => newkey t (.string key)

def luaH_set (newkey : Table ν → Key → Except Fault (Table ν × Place)) (t : Table ν)
    (key : Index) : Except Fault (Table ν × Place) :=
  match luaH_get hash t key with
  | some p => .ok (t, p)
  | none =>
    match key with
    | .nil => luaG_runerror "table index is nil"
    | .nan => luaG_runerror "table index is NaN"
    | .key k => newkey t k

/-- The loop of `resize` over the vanishing slice, here over its indices. -/
def reinsertArray (newkey : Table ν → Key → Except Fault (Table ν × Place)) :
    List ℕ → Table ν → Except Fault (Table ν)
  | [], t => .ok t
  | i :: is, t =>
    match t.array i with
    | none => reinsertArray newkey is t
    | some v => do
      let (t', p) ← luaH_setnum hash newkey t (i+1)
      reinsertArray newkey is (t'.store p (some v))

/-- The loop of `resize` over the old nodes from the last one down. -/
def reinsertNodes (newkey : Table ν → Key → Except Fault (Table ν × Place)) (nold : ℕ → Node ν) :
    ℕ → Table ν → Except Fault (Table ν)
  | 0, t => .ok t
  | i+1, t =>
    match (nold i).key, (nold i).val with
    | some k, some v => do
      let (t', p) ← luaH_set hash newkey t (.key k)
      reinsertNodes newkey nold i (t'.store p (some v))
    | _, _ => reinsertNodes newkey nold i t

def resize (newkey : Table ν → Key → Except Fault (Table ν × Place)) (t : Table ν)
    (nasize nhsize : ℕ) : Except Fault (Table ν) := do
  let oldasize := t.sizearray
  let grown := if nasize > oldasize then setarrayvector t nasize else t
  let emptied ← setnodevector grown nhsize
  let shrunk ←
    if nasize < oldasize then
      reinsertArray hash newkey (List.range' nasize (oldasize - nasize))
        { emptied with sizearray := nasize }
    else .ok emptied
  reinsertNodes hash newkey t.node (2 ^ t.lsizenode) shrunk

def rehash (newkey : Table ν → Key → Except Fault (Table ν × Place)) (t : Table ν) (ek : Key) :
    Except Fault (Table ν) :=
  let (arrayuse, nums) := numusearray t (fun _ => 0)
  let (ause, hashuse, nums) := numusehash t nums
  let (c, nums) := countint ek nums
  let (nasize, na) := computesizes nums (arrayuse + ause + c)
  resize hash newkey t nasize (arrayuse + hashuse + 1 - na)

/-- `newkey`. A rehash makes new keys on its own; `fuel` bounds how often. -/
def newkey : ℕ → Table ν → Key → Except Fault (Table ν × Place)
  | 0, _, _ => .error .stuck
  | fuel+1, t, key =>
    let mp := mainposition hash t.lsizenode key
    if (t.node mp).val.isSome ∨ t.dummynode then
      match getfreepos t.node t.lastfree with
      | none => do
        let t' ← rehash hash (newkey fuel) { t with lastfree := 0 } key
        luaH_set hash (newkey fuel) t' (.key key)
      | some n =>
        let t := { t with lastfree := n }
        match (t.node mp).key with
        | none => .error .stuck
        | some other =>
          let othern := mainposition hash t.lsizenode other
          if othern ≠ mp then
            -- move the colliding node into the free position
            match ChainedScatter.walk (fun i => (t.node i).next = some mp)
                (fun i => (t.node i).next) (t.sizenode + 1) othern with
            | none => .error .stuck
            | some previous =>
              let node := update t.node previous { t.node previous with next := some n }
              let node := update node n (node mp)
              .ok ({ t with node := update node mp ⟨some key, none, none⟩ }, .node mp)
          else
            -- the new node goes into the free position
            let node := update t.node n { t.node n with next := (t.node mp).next }
            let node := update node mp { node mp with next := some n }
            .ok ({ t with node := update node n { node n with key := some key } }, .node n)
    else
      .ok ({ t with node := update t.node mp { t.node mp with key := some key } }, .node mp)

def luaH_new (narray nhash : ℕ) : Except Fault (Table ν) :=
  let t : Table ν := ⟨0, fun _ => none, 0, fun _ => ⟨none, none, none⟩, true, 0⟩
  setnodevector (setarrayvector t narray) nhash

/-- `findindex`: -1 at the beginning of a traversal. -/
def findindex (t : Table ν) : Index → Except Fault ℤ
  | .nil => .ok (-1)
  | .nan => luaG_runerror "invalid key to 'next'"
  | .key k =>
    if 0 < arrayindex k ∧ arrayindex k ≤ t.sizearray then .ok (arrayindex k - 1)
    else
      match chain hash t k with
      | some n => .ok (n + t.sizearray)
      | none => luaG_runerror "invalid key to 'next'"

/-- `luaH_next`: the entry behind that of `key`, first in the array part, then in the hash
part. -/
def luaH_next (t : Table ν) (key : Index) : Except Fault (Option (Key × ν)) :=
  match findindex hash t key with
  | .error e => .error e
  | .ok i =>
    let i := (i + 1).toNat
    match (List.range' i (t.sizearray - i)).findSome?
        (fun i => (t.array i).map fun v => (Key.integer (i+1), v)) with
    | some e => .ok (some e)
    | none =>
      let i := i - t.sizearray
      .ok ((List.range' i (t.sizenode - i)).findSome? fun i =>
        (t.node i).key.bind fun k => (t.node i).val.map fun v => (k, v))

/-- `!ttisnil(luaH_getnum(t, j))`. -/
def present (t : Table ν) (j : ℕ) : Bool := ((luaH_getnum hash t j).bind t.val).isSome

/-- A binary search in `j - i` steps at most, for `p` that is true of `i` and not of `j`. -/
def binarySearch (p : ℕ → Bool) : ℕ → ℕ → ℕ → ℕ
  | 0, i, _ => i
  | fuel+1, i, j =>
    if j - i > 1 then
      let m := (i + j) / 2
      if p m then binarySearch p fuel m j else binarySearch p fuel i m
    else i

/-- The search of `unbound_search` for `i` and `j` such that `i` is present and `j` is not.
`none` is the overflow. -/
def findAbsent (t : Table ν) : ℕ → ℕ → ℕ → Option (ℕ × ℕ)
  | 0, _, _ => none
  | fuel+1, i, j =>
    if present hash t j then
      if j * 2 > MAX_INT then none else findAbsent t fuel j (j * 2)
    else some (i, j)

/-- The linear search. -/
def firstAbsent (t : Table ν) : ℕ → ℕ → Option ℕ
  | 0, _ => none
  | fuel+1, i => if present hash t i then firstAbsent t fuel (i+1) else some (i-1)

/-- `unbound_search`. Doubling ends after 31 steps, the linear search behind the last entry. -/
def unbound_search (t : Table ν) (j : ℕ) : Option ℕ :=
  match findAbsent hash t 31 j (j+1) with
  | some (i, j) => some (binarySearch (present hash t) (j - i) i j)
  | none => firstAbsent hash t (t.sizearray + t.sizenode + 1) 1

/-- `luaH_getn`. -/
def luaH_getn (t : Table ν) : Option ℕ :=
  let j := t.sizearray
  if j > 0 ∧ (t.array (j-1)).isNone then
    some (binarySearch (fun m => (t.array (m-1)).isSome) j 0 j)
  else if t.dummynode then some j
  else unbound_search hash t j

def luaH_resizearray (fuel : ℕ) (t : Table ν) (nasize : ℕ) : Except Fault (Table ν) :=
  resize hash (newkey hash fuel) t nasize (if t.dummynode then 0 else t.sizenode)

end

end LuaIde.Ltable
