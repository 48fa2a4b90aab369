import Mathlib.Data.Finset.Card
import Mathlib.Data.Finset.Range
import Mathlib.Logic.Relation

/-! Systems that take one action after the other. `ok` restricts the actions that may be
taken in a state; invariants are carried through the runs that keep to it. -/
namespace Runs

variable {σ α : Type*}

/-- The state behind a list of actions, if every one of them can be taken. -/
def run (step : σ → α → Option σ) : σ → List α → Option σ
  | s, [] => some s
  | s, a :: as => (step s a).bind (fun t => run step t as)

theorem run_append {step : σ → α → Option σ} {s : σ} {as bs : List α} :
    run step s (as ++ bs) = (run step s as).bind (fun t => run step t bs) := by
  induction as generalizing s with
  | nil => rfl
  | cons a as ih =>
    rw [List.cons_append, run, run, Option.bind_assoc]
    cases step s a with
    | none => rfl
    | some t => exact ih

/-- The state `t` is reached from `s` by actions that `ok` allows. -/
def Reaches (step : σ → α → Option σ) (ok : σ → α → Prop) : σ → σ → Prop :=
  Relation.ReflTransGen (fun s t => ∃ a, ok s a ∧ step s a = some t)

theorem Reaches.invariant {step : σ → α → Option σ} {ok : σ → α → Prop} {I : σ → Prop}
    (hstep : ∀ s a t, I s → ok s a → step s a = some t → I t) {s t : σ}
    (h : Reaches step ok s t) (hs : I s) : I t := by
  induction h with
  | refl => exact hs
  | tail _ hst ih =>
    obtain ⟨a, hok, ht⟩ := hst
    exact hstep _ a _ ih hok ht

theorem reaches_of_run {step : σ → α → Option σ} {ok : σ → α → Prop} {as : List α} {s t : σ}
    (hok : ∀ a ∈ as, ∀ u, ok u a) (h : run step s as = some t) : Reaches step ok s t := by
  induction as generalizing s with
  | nil =>
    obtain rfl := Option.some.inj h
    exact Relation.ReflTransGen.refl
  | cons a as ih =>
    obtain ⟨u, hu, ht⟩ := Option.bind_eq_some_iff.mp h
    have hrest : Reaches step ok u t := ih (fun b hb => hok b (List.mem_cons_of_mem a hb)) ht
    exact Relation.ReflTransGen.head ⟨a, hok a List.mem_cons_self s, hu⟩ hrest

/-- What every step of an allowed action preserves, a run of them preserves. -/
theorem run_invariant {step : σ → α → Option σ} {ok : α → Prop} {I : σ → Prop}
    (hstep : ∀ s a t, I s → ok a → step s a = some t → I t) {as : List α} {s t : σ}
    (hok : ∀ a ∈ as, ok a) (h : run step s as = some t) (hs : I s) : I t := by
  have hreaches : Reaches step (fun _ a => ok a) s t := reaches_of_run (fun a ha _ => hok a ha) h
  exact hreaches.invariant hstep hs

/-- The steps that a check lets through. -/
def guarded (step : σ → α → Option σ) (guard : σ → α → Bool) (s : σ) (a : α) : Option σ :=
  if guard s a then step s a else none

theorem reaches_of_guarded {step : σ → α → Option σ} {ok : σ → α → Prop} {guard : σ → α → Bool}
    (hguard : ∀ s a, guard s a = true → ok s a) {as : List α} {s t : σ}
    (h : run (guarded step guard) s as = some t) : Reaches step ok s t := by
  induction as generalizing s with
  | nil =>
    obtain rfl := Option.some.inj h
    exact Relation.ReflTransGen.refl
  | cons a as ih =>
    obtain ⟨u, hu, ht⟩ := Option.bind_eq_some_iff.mp h
    unfold guarded at hu
    split_ifs at hu with hg
    exact Relation.ReflTransGen.head ⟨a, hguard s a hg, hu⟩ (ih ht)

/-- Every action of a run is taken in a state in which `P` holds of it. -/
def Along (step : σ → α → Option σ) (P : σ → α → Prop) : σ → List α → Prop
  | _, [] => True
  | s, a :: as => P s a ∧ ∀ t, step s a = some t → Along step P t as

theorem along_append {step : σ → α → Option σ} {P : σ → α → Prop} {s : σ} {as bs : List α} :
    Along step P s (as ++ bs) ↔
      Along step P s as ∧ ∀ t, run step s as = some t → Along step P t bs := by
  induction as generalizing s with
  | nil => simp [Along, run]
  | cons a as ih =>
    simp only [List.cons_append, Along, ih, run, Option.bind_eq_some_iff]
    constructor
    · rintro ⟨ha, h⟩
      exact ⟨⟨ha, fun t ht => (h t ht).1⟩, fun u ⟨t, ht, hu⟩ => (h t ht).2 u hu⟩
    · rintro ⟨⟨ha, h⟩, hrest⟩
      exact ⟨ha, fun t ht => ⟨h t ht, fun u hu => hrest u ⟨t, ht, hu⟩⟩⟩

/-- Two conditions on actions that agree wherever an invariant holds agree along a run. -/
theorem along_congr {step : σ → α → Option σ} {P Q : σ → α → Prop} {I : σ → Prop}
    (hstep : ∀ s a t, I s → step s a = some t → I t) (h : ∀ s a, I s → (P s a ↔ Q s a)) {s : σ}
    (hs : I s) (as : List α) : Along step P s as ↔ Along step Q s as := by
  induction as generalizing s with
  | nil => rfl
  | cons a as ih =>
    rw [Along, Along, h s a hs]
    apply and_congr_right
    intro _
    exact forall_congr' fun t => forall_congr' fun ht => ih (hstep s a t hs ht)

/-- A condition that decides at every step whether `Q` survives it decides along a run whether
`Q` holds of all states that are reached. -/
theorem forall_reached_iff_along {step : σ → α → Option σ} {P : σ → α → Prop} {I Q : σ → Prop}
    (hI : ∀ s a t, I s → step s a = some t → I t)
    (hQ : ∀ s a t, I s → Q s → step s a = some t → (Q t ↔ P s a))
    (hnone : ∀ s a, step s a = none → P s a) {s : σ} (hs : I s) (hq : Q s) (as : List α) :
    (∀ bs t, bs <+: as → run step s bs = some t → Q t) ↔ Along step P s as := by
  induction as generalizing s with
  | nil =>
    refine iff_of_true (fun bs t hbs ht => ?_) trivial
    rw [List.prefix_nil.mp hbs] at ht
    exact Option.some.inj ht ▸ hq
  | cons a as ih =>
    constructor
    · intro h
      have hafter (t : σ) (ht : step s a = some t) : Q t :=
        h [a] t (by simp) (by rw [run, ht]; rfl)
      refine ⟨?_, fun t ht => (ih (hI s a t hs ht) (hafter t ht)).mp ?_⟩
      · cases ht : step s a with
        | none => exact hnone s a ht
        | some t => exact (hQ s a t hs hq ht).mp (hafter t ht)
      · intro bs u hbs hu
        exact h (a :: bs) u (List.cons_prefix_cons.mpr ⟨rfl, hbs⟩) (by rw [run, ht]; exact hu)
    · intro h bs u hbs hu
      cases bs with
      | nil => exact Option.some.inj hu ▸ hq
      | cons b bs =>
        obtain ⟨hba, hbs⟩ := List.cons_prefix_cons.mp hbs
        rw [hba] at hu
        obtain ⟨t, ht, hu⟩ := Option.bind_eq_some_iff.mp hu
        have hqt := (hQ s a t hs hq ht).mpr h.1
        exact (ih (hI s a t hs ht) hqt).mpr (h.2 t ht) bs u hbs hu

section Steps

variable {next : σ → Option σ}

/-- The state some steps of a partial function lead to. -/
def steps (next : σ → Option σ) : ℕ → σ → Option σ
  | 0, s => some s
  | n+1, s => (next s).bind (steps next n)

theorem steps_add (m n : ℕ) (s : σ) :
    steps next (m+n) s = (steps next m s).bind (steps next n) := by
  induction m generalizing s with
  | zero => rw [Nat.zero_add, steps, Option.bind_some]
  | succ m ih =>
    rw [Nat.add_right_comm, steps, steps, Option.bind_assoc]
    cases next s with
    | none => rfl
    | some t => exact ih t

/-- Steps that come to an end visit no state twice. -/
theorem steps_injOn {m : ℕ} {s e : σ} (h : steps next m s = some e) (he : next e = none)
    {a b : ℕ} (hab : a < b) (hb : b ≤ m) : steps next a s ≠ steps next b s := by
  intro heq
  obtain ⟨t, rfl⟩ := Nat.exists_eq_add_of_le hb
  obtain ⟨r, hr⟩ := Nat.exists_eq_add_of_le (by omega : a + t + 1 ≤ b + t)
  -- the end is reached from the first visit too, and then there is no further step
  have hend : steps next (a+t) s = some e := by rw [steps_add, heq, ← steps_add, h]
  have hnone : steps next (a+t+1) s = none := by
    rw [steps_add, hend, Option.bind_some, steps, he, Option.bind_none]
  rw [hr, steps_add, hnone] at h
  cases h

/-- So there are no more of them than there are states to leave. -/
theorem steps_le {next : ℕ → Option ℕ} {size m i e : ℕ}
    (hin : ∀ i j, next i = some j → i < size) (h : steps next m i = some e)
    (he : next e = none) : m ≤ size := by
  -- every position on the way leads on, so it is inside
  have hsome (a : ℕ) (ha : a < m) : ∃ p, steps next a i = some p ∧ p < size := by
    obtain ⟨r, hr⟩ := Nat.exists_eq_add_of_le ha
    have hm : m = a + (r+1) := by omega
    rw [hm, steps_add] at h
    obtain ⟨p, hp, hrest⟩ := Option.bind_eq_some_iff.mp h
    rw [steps] at hrest
    obtain ⟨j, hj, -⟩ := Option.bind_eq_some_iff.mp hrest
    exact ⟨p, hp, hin p j hj⟩
  -- no position comes twice on a way that ends
  calc
    m = (Finset.range m).card := (Finset.card_range m).symm
    _ ≤ (Finset.range size).card := by
      apply Finset.card_le_card_of_injOn (fun a => (steps next a i).getD 0)
      · intro a ha
        obtain ⟨p, hp, hlt⟩ := hsome a (Finset.mem_range.mp ha)
        simpa [hp] using hlt
      · intro a ha b hb hab
        have ha' := Finset.mem_range.mp ha
        have hb' := Finset.mem_range.mp hb
        obtain ⟨p, hp, -⟩ := hsome a ha'
        obtain ⟨q, hq, -⟩ := hsome b hb'
        have hpq : steps next a i = steps next b i := by
          simp only [hp, hq, Option.getD_some] at hab
          rw [hp, hq, hab]
        rcases Nat.lt_trichotomy a b with hlt | rfl | hlt
        · exact absurd hpq (steps_injOn h he hlt hb'.le)
        · rfl
        · exact absurd hpq.symm (steps_injOn h he hlt ha'.le)
    _ = size := Finset.card_range size

end Steps

end Runs
