import LuaIde.LineText

/-! The input stream of `lzio.c`: the pieces a reader gives, one after the other. -/
namespace LuaIde

open LineText

/-- `Zio`: the unread part of the buffer, and what the reader is still to give. A null pointer
is an empty piece. -/
structure Zio where
  p : Text
  reader : List Text

namespace Zio

/-- `luaZ_lookahead`: it fills an empty buffer. `none` is `EOZ`. -/
def lookahead (z : Zio) : Option Char × Zio :=
  match z.p, z.reader with
  | c :: _, _ => (some c, z)
  | [], [] => (none, z)
  | [], [] :: reader => (none, { z with reader := reader })
  | [], (c :: cs) :: reader => (some c, { p := c :: cs, reader := reader })

/-- The loop of `luaZ_read`, which copies a byte at least each time: what it has copied, and
the number of missing bytes. -/
def readLoop : ℕ → Zio → ℕ → Text × ℕ × Zio
  | _, z, 0 => ([], 0, z)
  | 0, z, n+1 => ([], n+1, z)
  | fuel+1, z, n+1 =>
    match z.lookahead with
    | (none, z) => ([], n+1, z)
    | (some _, z) =>
      let m := min (n+1) z.p.length
      let (b, missing, z') := readLoop fuel { z with p := z.p.drop m } (n+1-m)
      (z.p.take m ++ b, missing, z')

/-- `luaZ_read`. -/
def luaZ_read (z : Zio) (n : ℕ) : Text × ℕ × Zio := readLoop n z n

/-- What can be read: an empty piece ends the stream. -/
def content (z : Zio) : Text := z.p ++ (z.reader.takeWhile (fun piece => !piece.isEmpty)).flatten

theorem lookahead_none {z z' : Zio} (h : z.lookahead = (none, z')) : z.content = [] := by
  unfold lookahead at h
  split at h
  · simp at h
  · next hp hr => simp [content, hp, hr]
  · next hp hr => simp [content, hp, hr]
  · simp at h

theorem lookahead_some {z z' : Zio} {c : Char} (h : z.lookahead = (some c, z')) :
    z'.content = z.content ∧ z'.p ≠ [] := by
  unfold lookahead at h
  split at h
  · next hp =>
    obtain ⟨-, rfl⟩ := Prod.mk.inj h
    simp [hp]
  · simp at h
  · simp at h
  · next hp hr =>
    obtain ⟨-, rfl⟩ := Prod.mk.inj h
    simp [content, hp, hr]

/-- The pieces make no difference: what is read is the beginning of the content. -/
theorem readLoop_eq (fuel n : ℕ) (z : Zio) (hfuel : n ≤ fuel) :
    (readLoop fuel z n).1 = z.content.take n ∧
      (readLoop fuel z n).2.1 = n-z.content.length ∧
        (n ≤ z.content.length → (readLoop fuel z n).2.2.content = z.content.drop n) := by
  induction fuel generalizing n z with
  | zero =>
    obtain rfl : n = 0 := Nat.le_zero.mp hfuel
    simp [readLoop]
  | succ fuel ih =>
    cases n with
    | zero => simp [readLoop]
    | succ n =>
      rw [readLoop]
      rcases hl : z.lookahead with ⟨_ | c, z'⟩
      · have hnil := lookahead_none hl
        simp [hnil]
      · obtain ⟨hcontent, hp⟩ := lookahead_some hl
        have hpos : 0 < z'.p.length := List.length_pos_of_ne_nil hp
        obtain ⟨m, hm⟩ : ∃ m, m = min (n+1) z'.p.length := ⟨_, rfl⟩
        -- the bytes copied in this turn are the first ones
        have hrest : ({ z' with p := z'.p.drop m } : Zio).content = z.content.drop m := by
          rw [← hcontent, content, content, List.drop_append_of_le_length (by omega)]
        have htake : z'.p.take m = z.content.take m := by
          rw [← hcontent, content, List.take_append_of_le_length (by omega)]
        obtain ⟨h1, h2, h3⟩ := ih (n+1-m) { z' with p := z'.p.drop m } (by omega)
        rw [hrest] at h1 h2 h3
        have hlen : m ≤ z.content.length := by
          rw [← hcontent, content, List.length_append]
          omega
        simp only [← hm]
        refine ⟨?_, ?_, ?_⟩
        · rw [h1, htake, ← List.take_add]
          congr 1
          omega
        · rw [h2, List.length_drop]
          omega
        · intro hle
          rw [h3 (by rw [List.length_drop]; omega), List.drop_drop]
          congr 1
          omega

end Zio

end LuaIde
