import Mathlib.Data.List.Basic

/-! Decoders that read their input from a source, and what it takes for one to decode certain
bytes: it reads them and nothing behind them, and it fails where the source ends in them. -/
namespace Decoding

variable {σ β ε α γ : Type} {content : σ → List β} {eof : ε}

/-- From every source the bytes are decoded to `a`. -/
structure Decodes (content : σ → List β) (eof : ε) (m : StateT σ (Except ε) α) (bytes : List β)
    (a : α) : Prop where
  reads : ∀ s rest, content s = bytes ++ rest → ∃ t, m.run s = .ok (a, t) ∧ content t = rest
  needs : ∀ s more, content s ++ more = bytes → more ≠ [] → m.run s = .error eof

theorem run_bind_ok {m : StateT σ (Except ε) α} {f : α → StateT σ (Except ε) γ} {s t : σ} {a : α}
    (h : m.run s = .ok (a, t)) : (m >>= f).run s = (f a).run t := by
  rw [StateT.run_bind, h]
  rfl

theorem run_bind_error {m : StateT σ (Except ε) α} {f : α → StateT σ (Except ε) γ} {s : σ} {e : ε}
    (h : m.run s = .error e) : (m >>= f).run s = .error e := by
  rw [StateT.run_bind, h]
  rfl

namespace Decodes

theorem pure (a : α) : Decodes content eof (Pure.pure a) [] a where
  reads := fun s _ h => ⟨s, rfl, h⟩
  needs := fun _ _ h hmore => absurd (List.append_eq_nil_iff.mp h).2 hmore

theorem bind {m : StateT σ (Except ε) α} {f : α → StateT σ (Except ε) γ} {bytes bytes' : List β}
    {a : α} {c : γ} (hm : Decodes content eof m bytes a)
    (hf : Decodes content eof (f a) bytes' c) :
    Decodes content eof (m >>= f) (bytes ++ bytes') c where
  reads := by
    intro s rest h
    rw [List.append_assoc] at h
    obtain ⟨t, ht, hrest⟩ := hm.reads s _ h
    rw [run_bind_ok ht]
    exact hf.reads t rest hrest
  needs := by
    intro s more h hmore
    -- the source ends in the bytes of the first decoder, or of the second one
    rcases List.append_eq_append_iff.mp h with ⟨xs, hx, hmore'⟩ | ⟨xs, hx, hmore'⟩
    · cases xs with
      | nil =>
        rw [List.append_nil] at hx
        obtain ⟨t, ht, hrest⟩ := hm.reads s [] (by rw [List.append_nil, hx])
        rw [run_bind_ok ht]
        exact hf.needs t more (by rw [hrest, List.nil_append, hmore', List.nil_append]) hmore
      | cons x xs => exact run_bind_error (hm.needs s _ hx.symm (List.cons_ne_nil x xs))
    · obtain ⟨t, ht, hrest⟩ := hm.reads s xs hx
      rw [run_bind_ok ht]
      exact hf.needs t more (by rw [hrest, hmore']) hmore

/-- A last step that only computes. -/
theorem map {m : StateT σ (Except ε) α} {f : α → γ} {bytes : List β} {a : α}
    (hm : Decodes content eof m bytes a) :
    Decodes content eof (m >>= fun x => Pure.pure (f x)) bytes (f a) := by
  have h : Decodes content eof (m >>= fun x => Pure.pure (f x)) (bytes ++ []) (f a) :=
    hm.bind (pure (f a))
  rwa [List.append_nil] at h

end Decodes

/-- A decoder run several times. -/
def times (m : StateT σ (Except ε) α) : ℕ → StateT σ (Except ε) (List α)
  | 0 => pure []
  | n+1 => do
    let a ← m
    let as ← times m n
    pure (a :: as)

theorem Decodes.times {m : StateT σ (Except ε) α} {enc : γ → List β} (dec : γ → α)
    {xs : List γ} (h : ∀ x ∈ xs, Decodes content eof m (enc x) (dec x)) :
    Decodes content eof (times m xs.length) (xs.flatMap enc) (xs.map dec) := by
  induction xs with
  | nil => exact Decodes.pure []
  | cons x xs ih =>
    rw [List.flatMap_cons]
    apply (h x List.mem_cons_self).bind
    exact (ih (fun y hy => h y (List.mem_cons_of_mem x hy))).map

end Decoding
