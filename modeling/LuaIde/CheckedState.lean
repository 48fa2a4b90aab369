import LuaIde.CheckedFold

/-! Programs that change a state and can fail, against results computed without a state:
where such a program comes to its end it has restored a state known beforehand. -/
namespace CheckedState

open CheckedFold

universe u v

variable {ε : Type v} {σ α β : Type u}

/-- From `s` the program comes to its end when `x` does, with its result, and in the state `t`. -/
def Ends (m : StateT σ (Except ε) α) (s : σ) (x : Except ε α) (t : σ) : Prop :=
  ∀ a u, m.run s = .ok (a, u) ↔ x = .ok a ∧ u = t

namespace Ends

variable {m : StateT σ (Except ε) α} {f : α → StateT σ (Except ε) β} {x : Except ε α}
  {y : α → Except ε β} {s t w : σ}

theorem returns (a : α) (s : σ) : Ends (pure a : StateT σ (Except ε) α) s (.ok a) s := by
  intro b u
  have hrun : (pure a : StateT σ (Except ε) α).run s = .ok (a, s) := rfl
  rw [hrun, Except.ok.injEq, Prod.mk.injEq, Except.ok.injEq, @eq_comm _ s]

theorem lift (x : Except ε α) (s : σ) :
    Ends (liftM x : StateT σ (Except ε) α) s x s := by
  intro a u
  have hrun : (liftM x : StateT σ (Except ε) α).run s = x >>= fun a => .ok (a, s) := rfl
  rw [hrun, bind_eq_ok]
  constructor
  · rintro ⟨b, hb, h⟩
    obtain ⟨rfl, rfl⟩ := Prod.mk.inj (Except.ok.inj h)
    exact ⟨hb, rfl⟩
  · rintro ⟨hx, rfl⟩
    exact ⟨a, hx, rfl⟩

theorem bind (hm : Ends m s x t) (hf : ∀ a, x = .ok a → Ends (f a) t (y a) w) :
    Ends (m >>= f) s (x >>= y) w := by
  intro b u
  rw [StateT.run_bind, bind_eq_ok, bind_eq_ok]
  constructor
  · rintro ⟨⟨a, t'⟩, ha, hb⟩
    obtain ⟨hx, rfl⟩ := (hm a t').mp ha
    obtain ⟨hy, rfl⟩ := (hf a hx b u).mp hb
    exact ⟨⟨a, hx, hy⟩, rfl⟩
  · rintro ⟨⟨a, hx, hy⟩, rfl⟩
    exact ⟨(a, t), (hm a t).mpr ⟨hx, rfl⟩, (hf a hx b u).mpr ⟨hy, rfl⟩⟩

/-- A first step that cannot fail. -/
theorem step {a : α} {z : Except ε β} (hm : Ends m s (.ok a) t) (hf : Ends (f a) t z w) :
    Ends (m >>= f) s z w := by
  have h : Ends (m >>= f) s ((.ok a : Except ε α) >>= fun _ => z) w := by
    refine bind hm fun b hb => ?_
    obtain rfl := Except.ok.inj hb
    exact hf
  exact h

/-- Last steps that cannot fail and keep the result. -/
theorem leaves {f : α → StateT σ (Except ε) α} (hm : Ends m s x t)
    (hf : ∀ a, Ends (f a) t (.ok a) w) : Ends (m >>= f) s x w := by
  have h : Ends (m >>= f) s (x >>= fun a => .ok a) w := bind hm fun a _ => hf a
  intro a u
  rw [h a u, bind_eq_ok]
  simp

theorem congr {x' : Except ε α} (h : Ends m s x t) (hx : ∀ a, x = .ok a ↔ x' = .ok a) :
    Ends m s x' t := by
  intro a u
  rw [h a u, hx a]

theorem modifies (g : σ → σ) (s : σ) :
    Ends (modify g : StateT σ (Except ε) PUnit) s (.ok ⟨⟩) (g s) := by
  intro a u
  have hrun : (modify g : StateT σ (Except ε) PUnit).run s = .ok (⟨⟩, g s) := rfl
  rw [hrun, Except.ok.injEq, Prod.mk.injEq, Except.ok.injEq, @eq_comm _ (g s)]

theorem reads (s : σ) : Ends (get : StateT σ (Except ε) σ) s (.ok s) s := by
  intro a u
  have hrun : (get : StateT σ (Except ε) σ).run s = .ok (s, s) := rfl
  rw [hrun, Except.ok.injEq, Prod.mk.injEq, Except.ok.injEq, @eq_comm _ s u]

theorem fails (e : ε) (s t : σ) : Ends (throw e : StateT σ (Except ε) α) s (.error e) t := by
  intro a u
  have hrun : (throw e : StateT σ (Except ε) α).run s = .error e := rfl
  simp [hrun]

/-- A loop whose every pass restores the state. -/
theorem foldlM {γ : Type u} {p : α → γ → StateT σ (Except ε) α} {z : α → γ → Except ε α}
    (h : ∀ a c, Ends (p a c) s (z a c) s) (cs : List γ) (a : α) :
    Ends (cs.foldlM p a) s (cs.foldlM z a) s := by
  induction cs generalizing a with
  | nil => exact returns a s
  | cons c cs ih => exact bind (h a c) fun b _ => ih b

end Ends

end CheckedState
