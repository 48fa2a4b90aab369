import Mathlib.Data.List.Forall2

/-! Loops and sequences whose steps can fail: when they succeed, and with what
result. `Appends` is the case of steps that only write behind what a buffer holds. -/
namespace CheckedFold

universe u v w

variable {ε : Type v} {α : Type w} {β σ : Type u}

theorem bind_eq_ok {x : Except ε σ} {f : σ → Except ε β} {b : β} :
    (x >>= f) = .ok b ↔ ∃ a, x = .ok a ∧ f a = .ok b := by
  cases x with
  | error e => simp [bind, Except.bind]
  | ok a => simp [bind, Except.bind]

theorem bind_eq_error {x : Except ε σ} {f : σ → Except ε β} {e : ε} :
    (x >>= f) = .error e ↔ x = .error e ∨ ∃ a, x = .ok a ∧ f a = .error e := by
  cases x with
  | error e' => simp [bind, Except.bind]
  | ok a => simp [bind, Except.bind]

/-- A step that cannot fail adds no failure. -/
theorem bind_ok_eq_error {x : Except ε σ} {f : σ → β} {e : ε} :
    (x >>= fun a => (.ok (f a) : Except ε β)) = .error e ↔ x = .error e := by
  simp [bind_eq_error]

theorem foldlM_cons_eq_ok {body : σ → α → Except ε σ} {a : α} {l : List α} {s t : σ} :
    (a :: l).foldlM body s = .ok t ↔ ∃ u, body s a = .ok u ∧ l.foldlM body u = .ok t := by
  rw [List.foldlM_cons, bind_eq_ok]

theorem foldlM_nil_eq_ok {body : σ → α → Except ε σ} {s t : σ} :
    ([] : List α).foldlM body s = .ok t ↔ t = s := by
  simp [List.foldlM_nil, pure, Except.pure, eq_comm]

/-- A loop that only checks its elements succeeds when every check does. -/
theorem foldlM_checks_eq_ok {body : Unit → α → Except ε Unit} {l : List α} :
    l.foldlM body () = .ok () ↔ ∀ a ∈ l, body () a = .ok () := by
  induction l with
  | nil =>
    rw [foldlM_nil_eq_ok]
    simp
  | cons a l ih =>
    rw [foldlM_cons_eq_ok, List.forall_mem_cons, ← ih]
    constructor
    · rintro ⟨⟨⟩, ha, hl⟩
      exact ⟨ha, hl⟩
    · rintro ⟨ha, hl⟩
      exact ⟨(), ha, hl⟩

/-- A checked map succeeds when every element does. -/
theorem mapM_eq_ok {f : α → Except ε β} {l : List α} {bs : List β} :
    l.mapM f = .ok bs ↔ List.Forall₂ (fun a b => f a = .ok b) l bs := by
  induction l generalizing bs with
  | nil => simp [pure, Except.pure, eq_comm]
  | cons a l ih =>
    rw [List.mapM_cons, bind_eq_ok]
    constructor
    · rintro ⟨b, hb, h⟩
      obtain ⟨cs, hcs, h⟩ := bind_eq_ok.mp h
      obtain rfl : b :: cs = bs := Except.ok.inj h
      exact .cons hb (ih.mp hcs)
    · intro h
      cases h with
      | cons hb hcs => exact ⟨_, hb, bind_eq_ok.mpr ⟨_, ih.mpr hcs, rfl⟩⟩

theorem exists_of_mem_right {R : α → β → Prop} {l : List α} {bs : List β}
    (h : List.Forall₂ R l bs) {b : β} (hb : b ∈ bs) : ∃ a ∈ l, R a b := by
  induction h with
  | nil => simp at hb
  | cons hr _ ih =>
    rcases List.mem_cons.mp hb with rfl | hb
    · exact ⟨_, List.mem_cons_self, hr⟩
    · obtain ⟨a, ha, hab⟩ := ih hb
      exact ⟨a, List.mem_cons_of_mem _ ha, hab⟩

/-- While the invariant `I` holds each step checks `P` and computes `step`. The loop then
checks `P` in front of every element, at the value the elements before it give. -/
theorem foldlM_eq_ok (body : σ → α → Except ε σ) (step : σ → α → σ) (I : σ → Prop)
    (P : σ → α → Prop) (h : ∀ s a t, I s → (body s a = .ok t ↔ P s a ∧ t = step s a))
    (hI : ∀ s a, I s → P s a → I (step s a)) (l : List α) (s t : σ) (hs : I s) :
    l.foldlM body s = .ok t ↔
      (∀ pre a post, l = pre ++ a :: post → P (pre.foldl step s) a) ∧ t = l.foldl step s := by
  -- the prefixes of a longer list start with its head, and go on from the next state
  induction l generalizing s with
  | nil =>
    rw [foldlM_nil_eq_ok]
    simp
  | cons a l ih =>
    rw [foldlM_cons_eq_ok]
    constructor
    · rintro ⟨u, hu, hl⟩
      obtain ⟨hP, rfl⟩ := (h s a u hs).mp hu
      obtain ⟨hall, rfl⟩ := (ih (step s a) (hI s a hs hP)).mp hl
      refine ⟨fun pre b post he => ?_, rfl⟩
      cases pre with
      | nil =>
        obtain ⟨rfl, rfl⟩ := List.cons.inj he
        exact hP
      | cons c pre =>
        obtain ⟨rfl, he'⟩ := List.cons.inj he
        exact hall pre b post he'
    · rintro ⟨hall, rfl⟩
      have hP : P s a := hall [] a l rfl
      refine ⟨step s a, (h s a _ hs).mpr ⟨hP, rfl⟩, (ih (step s a) (hI s a hs hP)).mpr ⟨?_, rfl⟩⟩
      intro pre b post he
      exact hall (a :: pre) b post (by rw [he, List.cons_append])

/-- From a buffer with room for what it holds, `f` succeeds when `P` holds and `text`
has room too, and then it has written `text`. -/
def Appends (room : ℕ → Prop) (P : Prop) (text : List β)
    (f : List β → Except ε (List β)) : Prop :=
  ∀ s, room s.length → ∀ t,
    f s = .ok t ↔ (P ∧ room (s.length + text.length)) ∧ t = s ++ text

namespace Appends

variable {room : ℕ → Prop} {P Q : Prop} {text more : List β}
  {f g : List β → Except ε (List β)}

theorem congr (h : Appends room P text f) (hP : P ↔ Q) : Appends room Q text f := by
  intro s hs t
  rw [h s hs t, hP]

theorem nothing : Appends room True [] (fun s : List β => (.ok s : Except ε (List β))) := by
  intro s hs t
  simp [hs, eq_comm]

/-- One write behind another. Text only grows, so the room of the whole is enough. -/
theorem bind (hroom : ∀ m n, m ≤ n → room n → room m) (hf : Appends room P text f)
    (hg : Appends room Q more g) :
    Appends room (P ∧ Q) (text ++ more) (fun s => f s >>= g) := by
  intro s hs t
  have hlen : s.length + (text ++ more).length = (s ++ text).length + more.length := by
    simp only [List.length_append]
    omega
  rw [bind_eq_ok, hlen]
  constructor
  · rintro ⟨u, hu, hg'⟩
    obtain ⟨⟨hP, hr⟩, rfl⟩ := (hf s hs u).mp hu
    obtain ⟨⟨hQ, hr'⟩, rfl⟩ := (hg _ (by rw [List.length_append]; exact hr) t).mp hg'
    exact ⟨⟨⟨hP, hQ⟩, hr'⟩, by rw [List.append_assoc]⟩
  · rintro ⟨⟨⟨hP, hQ⟩, hr⟩, rfl⟩
    have hr' : room (s ++ text).length := hroom _ _ (Nat.le_add_right _ _) hr
    refine ⟨s ++ text, (hf s hs _).mpr ⟨⟨hP, ?_⟩, rfl⟩, (hg _ hr' _).mpr ⟨⟨hQ, hr⟩, ?_⟩⟩
    · rw [← List.length_append]
      exact hr'
    · rw [List.append_assoc]

/-- A value computed without touching the buffer, in front of a write. -/
theorem after {x : Except ε σ} {a : σ} {k : σ → List β → Except ε (List β)}
    (hx : ∀ b, x = .ok b ↔ P ∧ b = a) (hf : Appends room Q text (k a)) :
    Appends room (P ∧ Q) text (fun s => x >>= fun b => k b s) := by
  intro s hs t
  rw [bind_eq_ok]
  constructor
  · rintro ⟨b, hb, hk⟩
    obtain ⟨hP, rfl⟩ := (hx b).mp hb
    obtain ⟨⟨hQ, hr⟩, rfl⟩ := (hf s hs t).mp hk
    exact ⟨⟨⟨hP, hQ⟩, hr⟩, rfl⟩
  · rintro ⟨⟨⟨hP, hQ⟩, hr⟩, rfl⟩
    exact ⟨a, (hx a).mpr ⟨hP, rfl⟩, (hf s hs _).mpr ⟨⟨hQ, hr⟩, rfl⟩⟩

theorem foldlM {body : List β → α → Except ε (List β)} {text : α → List β} {Q : α → Prop}
    (hroom : ∀ m n, m ≤ n → room n → room m)
    (h : ∀ a, Appends room (Q a) (text a) (fun s => body s a)) (l : List α) :
    Appends room (∀ a ∈ l, Q a) (l.flatMap text) (fun s => l.foldlM body s) := by
  induction l with
  | nil =>
    intro s hs t
    rw [foldlM_nil_eq_ok]
    simp [hs]
  | cons a l ih =>
    have hb := (h a).bind hroom ih
    intro s hs t
    simp only [List.foldlM_cons, List.flatMap_cons, List.forall_mem_cons]
    exact hb s hs t

end Appends

/-- A loop whose steps do not fail in a way does not either. -/
theorem foldlM_ne_error {body : σ → α → Except ε σ} {e : ε} (h : ∀ s a, body s a ≠ .error e)
    (l : List α) (s : σ) : l.foldlM body s ≠ .error e := by
  induction l generalizing s with
  | nil => exact fun h => nomatch h
  | cons a l ih =>
    rw [List.foldlM_cons, ne_eq, bind_eq_error]
    rintro (ha | ⟨t, -, ht⟩)
    · exact h s a ha
    · exact ih t ht

theorem bind_ne_error {x : Except ε σ} {f : σ → Except ε β} {e : ε} (hx : x ≠ .error e)
    (hf : ∀ a, f a ≠ .error e) : (x >>= f) ≠ .error e := by
  rw [ne_eq, bind_eq_error]
  rintro (h | ⟨a, -, h⟩)
  · exact hx h
  · exact hf a h

/-- A computation that can fail in one way only. -/
def FailsOnly (why : ε) (x : Except ε σ) : Prop := ∀ e, x = .error e → e = why

namespace FailsOnly

variable {why : ε}

theorem ok (a : σ) : FailsOnly why (.ok a : Except ε σ) := by
  intro e h
  cases h

theorem error : FailsOnly why (.error why : Except ε σ) := by
  intro e h
  exact (Except.error.inj h).symm

theorem bind {x : Except ε σ} {f : σ → Except ε β} (hx : FailsOnly why x)
    (hf : ∀ a, FailsOnly why (f a)) : FailsOnly why (x >>= f) := by
  intro e h
  cases x with
  | error e' =>
    obtain rfl : e' = e := Except.error.inj h
    exact hx e' rfl
  | ok a => exact hf a e h

theorem foldlM {body : σ → α → Except ε σ} (h : ∀ s a, FailsOnly why (body s a)) (l : List α)
    (s : σ) : FailsOnly why (l.foldlM body s) := by
  induction l generalizing s with
  | nil => exact ok s
  | cons a l ih =>
    rw [List.foldlM_cons]
    exact bind (h s a) fun t => ih t

theorem ne_error {x : Except ε σ} {e : ε} (h : FailsOnly why x) (he : e ≠ why) :
    x ≠ .error e := fun hx => he (h e hx)

/-- Then not to fail that way is to succeed. -/
theorem ne_error_iff {x : Except ε σ} (h : FailsOnly why x) :
    x ≠ .error why ↔ ∃ a, x = .ok a := by
  cases x with
  | error e => simp [h e rfl]
  | ok a => simp

end FailsOnly

end CheckedFold
