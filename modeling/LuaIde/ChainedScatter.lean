import LuaIde.Runs
import Mathlib.Logic.Function.Basic

/-! Chained scatter tables in an array: every key has a main position, and the entries of an
array are linked to chains. A key is found by following the chain from its main position.
An entry that is not in its main position gives way to one that is. -/
namespace ChainedScatter

open Relation

variable {κ : Type*}

/-- The next entry of a chain. -/
def Link (next : ℕ → Option ℕ) (i j : ℕ) : Prop := next i = some j

/-- The chain from `i` comes by `j`. -/
def Reach (next : ℕ → Option ℕ) : ℕ → ℕ → Prop := ReflTransGen (Link next)

/-- The keys of `size` entries and their chains. -/
structure Linked (main : κ → ℕ) (size : ℕ) (key : ℕ → Option κ) (next : ℕ → Option ℕ) : Prop where
  reached : ∀ {j k}, key j = some k → Reach next (main k) j
  heads : ∀ {j k}, key j = some k → ∃ k', key (main k) = some k' ∧ main k' = main k
  free : ∀ {j}, key j = none → next j = none ∧ ∀ i, next i ≠ some j
  inj : ∀ {i i' j}, next i = some j → next i' = some j → i = i'
  ends : ∀ i, Acc (fun j i => Link next i j) i
  bounded : ∀ {i j}, next i = some j → i < size
  unique : ∀ {i j k}, key i = some k → key j = some k → i = j

/-- The first entry of a chain that `p` accepts. -/
def walk (p : ℕ → Bool) (next : ℕ → Option ℕ) : ℕ → ℕ → Option ℕ
  | 0, _ => none
  | fuel+1, i => if p i then some i else (next i).bind (walk p next fuel)

theorem walk_some {p : ℕ → Bool} {next : ℕ → Option ℕ} {fuel i j : ℕ}
    (h : walk p next fuel i = some j) : p j = true ∧ Reach next i j := by
  induction fuel generalizing i with
  | zero => cases h
  | succ fuel ih =>
    rw [walk] at h
    split_ifs at h with hp
    · obtain rfl := Option.some.inj h
      exact ⟨hp, ReflTransGen.refl⟩
    · obtain ⟨m, hm, hj⟩ := Option.bind_eq_some_iff.mp h
      obtain ⟨hpj, hreach⟩ := ih hj
      exact ⟨hpj, ReflTransGen.head hm hreach⟩

/-- A chain that ends does so after some steps. -/
theorem exists_end {next : ℕ → Option ℕ} {i : ℕ} (h : Acc (fun j i => Link next i j) i) :
    ∃ m e, Runs.steps next m i = some e ∧ next e = none := by
  induction h with
  | intro i _ ih =>
    cases hn : next i with
    | none => exact ⟨0, i, rfl, hn⟩
    | some j =>
      obtain ⟨m, e, hm, he⟩ := ih j hn
      refine ⟨m+1, e, ?_, he⟩
      rw [Runs.steps, hn]
      exact hm

theorem walk_isSome {p : ℕ → Bool} {next : ℕ → Option ℕ} {m e i j : ℕ}
    (hm : Runs.steps next m i = some e) (he : next e = none) (hreach : Reach next i j)
    (hp : p j = true) : (walk p next (m+1) i).isSome := by
  induction m generalizing i with
  | zero =>
    obtain rfl : i = e := Option.some.inj hm
    rcases hreach.cases_head with rfl | ⟨k, hk, -⟩
    · rw [walk, if_pos hp]
      rfl
    · have hk' : next i = some k := hk
      rw [he] at hk'
      cases hk'
  | succ m ih =>
    rw [walk]
    split_ifs with hpi
    · rfl
    · rcases hreach.cases_head with rfl | ⟨k, hk, hrest⟩
      · exact absurd hp hpi
      · have hk' : next i = some k := hk
        rw [Runs.steps, hk'] at hm
        rw [hk']
        exact ih hm hrest

namespace Linked

variable {main : κ → ℕ} {size : ℕ} {key : ℕ → Option κ} {next : ℕ → Option ℕ}

/-- A walk finds an entry of the chain that is accepted. -/
theorem walk_of_reach (h : Linked main size key next) {p : ℕ → Bool} {i j fuel : ℕ}
    (hfuel : size < fuel) (hreach : Reach next i j) (hp : p j = true)
    (huniq : ∀ j', p j' = true → j' = j) : walk p next fuel i = some j := by
  obtain ⟨m, e, hm, he⟩ := exists_end (h.ends i)
  have hmsize : m ≤ size := Runs.steps_le (fun _ _ hn => h.bounded hn) hm he
  -- more fuel makes no difference to a walk that finds something
  have hmono (a b i : ℕ) (hab : a ≤ b) (hs : (walk p next a i).isSome) :
      walk p next b i = walk p next a i := by
    induction a generalizing b i with
    | zero => cases hs
    | succ a ih =>
      obtain ⟨b, rfl⟩ : ∃ c, b = c+1 := ⟨b-1, by omega⟩
      rw [walk, walk] at *
      split_ifs with hpi
      · rfl
      · rw [if_neg hpi] at hs
        cases hn : next i with
        | none => rfl
        | some k =>
          rw [hn] at hs
          exact ih b k (by omega) hs
  have hsome := walk_isSome hm he hreach hp
  obtain ⟨j', hj'⟩ := Option.isSome_iff_exists.mp hsome
  rw [hmono (m+1) fuel i (by omega) hsome, hj', huniq j' (walk_some hj').1]

/-- The entry of a key is the one the walk from its main position finds. -/
theorem walk_eq_some_iff [DecidableEq κ] (h : Linked main size key next) {k : κ} {j fuel : ℕ}
    (hfuel : size < fuel) :
    walk (fun i => key i = some k) next fuel (main k) = some j ↔ key j = some k := by
  constructor
  · intro hw
    simpa using (walk_some hw).1
  · intro hk
    apply h.walk_of_reach hfuel (h.reached hk) (by simpa using hk)
    intro j' hj'
    exact h.unique (by simpa using hj') hk

theorem walk_eq_none_iff [DecidableEq κ] (h : Linked main size key next) {k : κ} {fuel : ℕ}
    (hfuel : size < fuel) :
    walk (fun i => key i = some k) next fuel (main k) = none ↔ ∀ j, key j ≠ some k := by
  constructor
  · intro hw j hk
    rw [(h.walk_eq_some_iff hfuel).mpr hk] at hw
    cases hw
  · intro hno
    cases hw : walk (fun i => key i = some k) next fuel (main k) with
    | none => rfl
    | some j => exact absurd ((h.walk_eq_some_iff hfuel).mp hw) (hno j)

end Linked

/-- No entries. -/
theorem linked_empty (main : κ → ℕ) (size : ℕ) :
    Linked main size (fun _ => none) (fun _ => none) where
  reached := fun h => by cases h
  heads := fun h => by cases h
  free := fun _ => ⟨rfl, fun _ h => by cases h⟩
  inj := fun h => by cases h
  ends := fun i => ⟨i, fun _ h => by cases h⟩
  bounded := fun h => by cases h
  unique := fun h => by cases h

namespace Linked

variable {main : κ → ℕ} {size : ℕ} {key : ℕ → Option κ} {next : ℕ → Option ℕ}

open Function

/-- A key that is nowhere else is in one entry. -/
theorem unique_update {k : κ} {n : ℕ} (hunique : ∀ {i j k}, key i = some k → key j = some k → i = j)
    (hk : ∀ j, key j ≠ some k) {i j : ℕ} {q : κ} (hi : update key n (some k) i = some q)
    (hj : update key n (some k) j = some q) : i = j := by
  by_cases hin : i = n <;> by_cases hjn : j = n
  · rw [hin, hjn]
  · rw [hin, update_self] at hi
    rw [update_of_ne hjn] at hj
    exact absurd (hj.trans hi.symm) (hk j)
  · rw [hjn, update_self] at hj
    rw [update_of_ne hin] at hi
    exact absurd (hi.trans hj.symm) (hk i)
  · rw [update_of_ne hin] at hi
    rw [update_of_ne hjn] at hj
    exact hunique hi hj

/-- A new key in its main position, in place of what is there. -/
theorem place (h : Linked main size key next) {k : κ} (hk : ∀ j, key j ≠ some k) :
    Linked main size (update key (main k) (some k)) next where
  reached := by
    intro j k' hj
    by_cases hjm : j = main k
    · subst hjm
      rw [update_self] at hj
      obtain rfl := Option.some.inj hj
      exact ReflTransGen.refl
    · rw [update_of_ne hjm] at hj
      exact h.reached hj
  heads := by
    intro j k' hj
    by_cases hmain : main k' = main k
    · exact ⟨k, by rw [hmain, update_self], hmain.symm⟩
    · have hjm : j ≠ main k := by
        rintro rfl
        rw [update_self] at hj
        exact hmain (congrArg main (Option.some.inj hj)).symm
      rw [update_of_ne hjm] at hj
      obtain ⟨k'', hk'', hm⟩ := h.heads hj
      exact ⟨k'', by rw [update_of_ne hmain]; exact hk'', hm⟩
  free := by
    intro j hj
    have hjm : j ≠ main k := by
      rintro rfl
      rw [update_self] at hj
      cases hj
    rw [update_of_ne hjm] at hj
    exact h.free hj
  inj := h.inj
  ends := h.ends
  bounded := h.bounded
  unique := unique_update h.unique hk

/-- A new key in a free entry, linked behind its main position. -/
theorem attach (h : Linked main size key next) {k k' : κ} {n : ℕ} (hk : ∀ j, key j ≠ some k)
    (hmp : key (main k) = some k') (hmain : main k' = main k) (hn : key n = none)
    (hsize : main k < size) (hnsize : n < size) :
    Linked main size (update key n (some k))
      (update (update next n (next (main k))) (main k) (some n)) := by
  have hne : n ≠ main k := by
    intro he
    rw [he, hmp] at hn
    cases hn
  obtain ⟨hnone, hno⟩ := h.free hn
  have hnext (i j : ℕ) (hi : update (update next n (next (main k))) (main k) (some n) i = some j) :
      (i = main k ∧ j = n) ∨ (i = n ∧ next (main k) = some j) ∨
        (i ≠ main k ∧ i ≠ n ∧ next i = some j) := by
    by_cases him : i = main k
    · rw [him, update_self] at hi
      exact Or.inl ⟨him, (Option.some.inj hi).symm⟩
    · rw [update_of_ne him] at hi
      by_cases hin : i = n
      · rw [hin, update_self] at hi
        exact Or.inr (Or.inl ⟨hin, hi⟩)
      · rw [update_of_ne hin] at hi
        exact Or.inr (Or.inr ⟨him, hin, hi⟩)
  have hfirst : Link (update (update next n (next (main k))) (main k) (some n)) (main k) n :=
    update_self ..
  -- the chains are the old ones with the new entry spliced in
  have hlift {i j : ℕ} (hij : Reach next i j) :
      Reach (update (update next n (next (main k))) (main k) (some n)) i j := by
    apply hij.lift' id
    intro i j (hl : next i = some j)
    by_cases him : i = main k
    · apply ReflTransGen.head (b := n)
      · rw [id, him]
        exact hfirst
      · apply ReflTransGen.single
        rw [id, Link, update_of_ne hne, update_self, ← him]
        exact hl
    · apply ReflTransGen.single
      have hin : i ≠ n := by
        intro he
        rw [he, hnone] at hl
        cases hl
      rw [id, id, Link, update_of_ne him, update_of_ne hin]
      exact hl
  constructor
  case reached =>
    intro j q hj
    by_cases hjn : j = n
    · rw [hjn, update_self] at hj
      rw [← Option.some.inj hj, hjn]
      exact ReflTransGen.single hfirst
    · rw [update_of_ne hjn] at hj
      exact hlift (h.reached hj)
  case heads =>
    intro j q hj
    by_cases hjn : j = n
    · rw [hjn, update_self] at hj
      rw [← Option.some.inj hj, update_of_ne hne.symm]
      exact ⟨k', hmp, hmain⟩
    · rw [update_of_ne hjn] at hj
      obtain ⟨q', hq', hm⟩ := h.heads hj
      refine ⟨q', ?_, hm⟩
      rw [update_of_ne]
      · exact hq'
      · intro he
        rw [he, hn] at hq'
        cases hq'
  case free =>
    intro j hj
    have hjn : j ≠ n := by
      intro he
      rw [he, update_self] at hj
      cases hj
    rw [update_of_ne hjn] at hj
    have hjm : j ≠ main k := by
      intro he
      rw [he, hmp] at hj
      cases hj
    rw [update_of_ne hjm, update_of_ne hjn]
    refine ⟨(h.free hj).1, ?_⟩
    intro i hi
    rcases hnext i j hi with ⟨-, he⟩ | ⟨-, hl⟩ | ⟨-, -, hl⟩
    · exact hjn he
    · exact (h.free hj).2 _ hl
    · exact (h.free hj).2 _ hl
  case inj =>
    intro i i' j hi hi'
    rcases hnext i j hi with ⟨him, hj⟩ | ⟨hin, hl⟩ | ⟨him, hin, hl⟩ <;>
      rcases hnext i' j hi' with ⟨him', hj'⟩ | ⟨hin', hl'⟩ | ⟨him', hin', hl'⟩
    · rw [him, him']
    · exact absurd (hj ▸ hl') (hno _)
    · exact absurd (hj ▸ hl') (hno _)
    · exact absurd (hj' ▸ hl) (hno _)
    · rw [hin, hin']
    · exact absurd (h.inj hl' hl) him'
    · exact absurd (hj' ▸ hl) (hno _)
    · exact absurd (h.inj hl hl') him
    · exact h.inj hl hl'
  case ends =>
    have hold (i : ℕ) (hin : i ≠ n) :
        Acc (fun j i => Link (update (update next n (next (main k))) (main k) (some n)) i j) i := by
      induction h.ends i with
      | intro i _ ih =>
        constructor
        intro j hj
        rcases hnext i j hj with ⟨him, hjn⟩ | ⟨hin', -⟩ | ⟨-, -, hl⟩
        · constructor
          intro j' hj'
          rw [hjn] at hj'
          rcases hnext n j' hj' with ⟨he, -⟩ | ⟨-, hl⟩ | ⟨-, he, -⟩
          · exact absurd he hne
          · apply ih j'
            · rw [him]
              exact hl
            · intro he
              rw [he] at hl
              exact hno _ hl
          · exact absurd rfl he
        · exact absurd hin' hin
        · apply ih j hl
          intro he
          rw [he] at hl
          exact hno _ hl
    intro i
    by_cases hin : i = n
    · constructor
      intro j hj
      apply hold
      intro hjn
      rw [hjn] at hj
      rcases hnext i n hj with ⟨he, -⟩ | ⟨-, hl⟩ | ⟨-, -, hl⟩
      · exact hne (hin.symm.trans he)
      · exact hno _ hl
      · exact hno _ hl
    · exact hold i hin
  case bounded =>
    intro i j hi
    rcases hnext i j hi with ⟨he, -⟩ | ⟨he, -⟩ | ⟨-, -, hl⟩
    · rw [he]
      exact hsize
    · rw [he]
      exact hnsize
    · exact h.bounded hl
  case unique => exact unique_update h.unique hk

/-- The entry before one that is not in its main position. -/
theorem exists_previous (h : Linked main size key next) {k' : κ} {m : ℕ}
    (hm : key m = some k') (hmain : main k' ≠ m) :
    ∃ p, Reach next (main k') p ∧ next p = some m := by
  rcases (h.reached hm).cases_tail with he | ⟨p, hp, hl⟩
  · exact absurd he.symm hmain
  · exact ⟨p, hp, hl⟩

/-- An entry that is not in its main position is in no key's. -/
theorem main_ne (h : Linked main size key next) {k' : κ} {m : ℕ} (hm : key m = some k')
    (hmain : main k' ≠ m) {j : ℕ} {q : κ} (hj : key j = some q) : main q ≠ m := by
  intro he
  obtain ⟨q', hq', hq⟩ := h.heads hj
  rw [he, hm] at hq'
  rw [← Option.some.inj hq', he] at hq
  exact hmain hq

theorem next_ne_self (h : Linked main size key next) (i : ℕ) : next i ≠ some i := by
  induction h.ends i with
  | intro i _ ih =>
    intro hi
    exact ih i hi hi

/-- An entry that is not in its main position moves to a free one. -/
theorem relocate (h : Linked main size key next) {k' : κ} {m n p : ℕ} (hm : key m = some k')
    (hmain : main k' ≠ m) (hp : next p = some m) (hn : key n = none) (hnsize : n < size) :
    Linked main size (update (update key m none) n (some k'))
      (update (update (update next p (some n)) n (next m)) m none) := by
  have hne : n ≠ m := by
    intro he
    rw [he, hm] at hn
    cases hn
  obtain ⟨hnone, hno⟩ := h.free hn
  have hpn : p ≠ n := by
    intro he
    rw [he, hnone] at hp
    cases hp
  have hnext (i j : ℕ)
      (hi : update (update (update next p (some n)) n (next m)) m none i = some j) :
      (i = p ∧ j = n) ∨ (i = n ∧ next m = some j) ∨
        (i ≠ m ∧ i ≠ n ∧ i ≠ p ∧ next i = some j) := by
    by_cases him : i = m
    · rw [him, update_self] at hi
      cases hi
    · rw [update_of_ne him] at hi
      by_cases hin : i = n
      · rw [hin, update_self] at hi
        exact Or.inr (Or.inl ⟨hin, hi⟩)
      · rw [update_of_ne hin] at hi
        by_cases hip : i = p
        · rw [hip, update_self] at hi
          exact Or.inl ⟨hip, (Option.some.inj hi).symm⟩
        · rw [update_of_ne hip] at hi
          exact Or.inr (Or.inr ⟨him, hin, hip, hi⟩)
  -- the chains are the old ones with `n` in place of `m`
  have hlift {i j : ℕ} (hij : Reach next i j) :
      Reach (update (update (update next p (some n)) n (next m)) m none)
        (if i = m then n else i) (if j = m then n else j) := by
    apply hij.lift' fun i => if i = m then n else i
    intro i j (hl : next i = some j)
    apply ReflTransGen.single
    show update (update (update next p (some n)) n (next m)) m none
      (if i = m then n else i) = some (if j = m then n else j)
    by_cases him : i = m
    · have hjm : j ≠ m := by
        intro he
        rw [him, he] at hl
        exact h.next_ne_self m hl
      rw [if_pos him, if_neg hjm, update_of_ne hne, update_self, ← him]
      exact hl
    · have hin : i ≠ n := by
        intro he
        rw [he, hnone] at hl
        cases hl
      rw [if_neg him, update_of_ne him, update_of_ne hin]
      by_cases hip : i = p
      · rw [hip, hp] at hl
        rw [hip, update_self, if_pos (Option.some.inj hl).symm]
      · have hjm : j ≠ m := by
          intro he
          rw [he] at hl
          exact hip (h.inj hl hp)
        rw [update_of_ne hip, if_neg hjm]
        exact hl
  have hkey (j : ℕ) (q : κ) (hj : update (update key m none) n (some k') j = some q) :
      (j = n ∧ q = k') ∨ (j ≠ m ∧ key j = some q) := by
    by_cases hjn : j = n
    · rw [hjn, update_self] at hj
      exact Or.inl ⟨hjn, (Option.some.inj hj).symm⟩
    · rw [update_of_ne hjn] at hj
      by_cases hjm : j = m
      · rw [hjm, update_self] at hj
        cases hj
      · rw [update_of_ne hjm] at hj
        exact Or.inr ⟨hjm, hj⟩
  constructor
  case reached =>
    intro j q hj
    rcases hkey j q hj with ⟨hjn, hq⟩ | ⟨hjm, hj⟩
    · have hreach := hlift (h.reached hm)
      rw [if_neg hmain, if_pos rfl] at hreach
      rw [hjn, hq]
      exact hreach
    · have hreach := hlift (h.reached hj)
      rw [if_neg (h.main_ne hm hmain hj), if_neg hjm] at hreach
      exact hreach
  case heads =>
    intro j q hj
    obtain ⟨i, hi⟩ : ∃ i, key i = some q := by
      rcases hkey j q hj with ⟨-, hq⟩ | ⟨-, hj⟩
      · rw [hq]
        exact ⟨m, hm⟩
      · exact ⟨j, hj⟩
    obtain ⟨q', hq', hmq⟩ := h.heads hi
    refine ⟨q', ?_, hmq⟩
    rw [update_of_ne, update_of_ne (h.main_ne hm hmain hi)]
    · exact hq'
    · intro he
      rw [he, hn] at hq'
      cases hq'
  case free =>
    intro j hj
    have hjn : j ≠ n := by
      intro he
      rw [he, update_self] at hj
      cases hj
    rw [update_of_ne hjn] at hj
    by_cases hjm : j = m
    · rw [hjm, update_self]
      refine ⟨rfl, ?_⟩
      intro i hi
      rcases hnext i m hi with ⟨-, he⟩ | ⟨-, hl⟩ | ⟨-, -, hip, hl⟩
      · exact hne he.symm
      · exact h.next_ne_self m hl
      · exact hip (h.inj hl hp)
    · rw [update_of_ne hjm] at hj
      have hjp : j ≠ p := by
        intro he
        rw [← he, (h.free hj).1] at hp
        cases hp
      rw [update_of_ne hjm, update_of_ne hjn, update_of_ne hjp]
      refine ⟨(h.free hj).1, ?_⟩
      intro i hi
      rcases hnext i j hi with ⟨-, he⟩ | ⟨-, hl⟩ | ⟨-, -, -, hl⟩
      · exact hjn he
      · exact (h.free hj).2 _ hl
      · exact (h.free hj).2 _ hl
  case inj =>
    intro i i' j hi hi'
    rcases hnext i j hi with ⟨hip, hj⟩ | ⟨hin, hl⟩ | ⟨him, hin, hip, hl⟩ <;>
      rcases hnext i' j hi' with ⟨hip', hj'⟩ | ⟨hin', hl'⟩ | ⟨him', hin', hip', hl'⟩
    · rw [hip, hip']
    · exact absurd (hj ▸ hl') (hno _)
    · exact absurd (hj ▸ hl') (hno _)
    · exact absurd (hj' ▸ hl) (hno _)
    · rw [hin, hin']
    · exact absurd (h.inj hl' hl) him'
    · exact absurd (hj' ▸ hl) (hno _)
    · exact absurd (h.inj hl hl') him
    · exact h.inj hl hl'
  case ends =>
    have hold (i : ℕ) : i ≠ n → Acc (fun j i => Link (update (update
        (update next p (some n)) n (next m)) m none) i j) (if i = m then n else i) := by
      induction h.ends i with
      | intro i _ ih =>
        intro hin
        constructor
        intro j hj
        obtain ⟨j', hl, hjj⟩ : ∃ j', next i = some j' ∧ j = if j' = m then n else j' := by
          by_cases him : i = m
          · rw [if_pos him, Link, update_of_ne hne, update_self] at hj
            rw [him]
            refine ⟨j, hj, ?_⟩
            rw [if_neg]
            intro hjm
            rw [hjm] at hj
            exact h.next_ne_self m hj
          · rw [if_neg him] at hj
            rcases hnext i j hj with ⟨hip, hjn⟩ | ⟨he, -⟩ | ⟨-, -, hip, hl⟩
            · exact ⟨m, by rw [hip, hp], by rw [if_pos rfl, hjn]⟩
            · exact absurd he hin
            · refine ⟨j, hl, ?_⟩
              rw [if_neg]
              intro hjm
              rw [hjm] at hl
              exact hip (h.inj hl hp)
        rw [hjj]
        apply ih j' hl
        intro hjn
        rw [hjn] at hl
        exact hno _ hl
    intro i
    by_cases him : i = m
    · constructor
      intro j hj
      rw [him, Link, update_self] at hj
      cases hj
    · by_cases hin : i = n
      · have hacc := hold m hne.symm
        rw [if_pos rfl] at hacc
        rw [hin]
        exact hacc
      · have hacc := hold i hin
        rw [if_neg him] at hacc
        exact hacc
  case bounded =>
    intro i j hi
    rcases hnext i j hi with ⟨he, -⟩ | ⟨he, -⟩ | ⟨-, -, -, hl⟩
    · rw [he]
      exact h.bounded hp
    · rw [he]
      exact hnsize
    · exact h.bounded hl
  case unique =>
    intro i j q hi hj
    rcases hkey i q hi with ⟨hin, hq⟩ | ⟨him, hi⟩ <;> rcases hkey j q hj with ⟨hjn, hq'⟩ | ⟨hjm, hj⟩
    · rw [hin, hjn]
    · rw [hq] at hj
      exact absurd (h.unique hj hm) hjm
    · rw [hq'] at hi
      exact absurd (h.unique hi hm) him
    · exact h.unique hi hj

/-- A new key in its main position, whose entry moves to a free one. -/
theorem displace (h : Linked main size key next) {k k' : κ} {n p : ℕ} (hk : ∀ j, key j ≠ some k)
    (hmp : key (main k) = some k') (hmain : main k' ≠ main k) (hp : next p = some (main k))
    (hn : key n = none) (hnsize : n < size) :
    Linked main size (update (update key n (some k')) (main k) (some k))
      (update (update (update next p (some n)) n (next (main k))) (main k) none) := by
  have hne : main k ≠ n := by
    intro he
    rw [← he, hmp] at hn
    cases hn
  have hmoved : update (update key n (some k')) (main k) (some k) =
      update (update (update key (main k) none) n (some k')) (main k) (some k) := by
    rw [update_comm hne, update_idem]
  rw [hmoved]
  apply (h.relocate hmp hmain hp hn hnsize).place
  intro j hj
  by_cases hjn : j = n
  · rw [hjn, update_self] at hj
    exact hk _ (hmp.trans hj)
  · rw [update_of_ne hjn] at hj
    by_cases hjm : j = main k
    · rw [hjm, update_self] at hj
      cases hj
    · rw [update_of_ne hjm] at hj
      exact hk j hj

end Linked

end ChainedScatter
