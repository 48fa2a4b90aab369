import LuaIde.LineText
import Mathlib.Tactic.Common

/-! Decimal texts of 32-bit integers: what `%i` writes, what `atoi` and `parseInt` read. -/
namespace DecimalText

/-- A 32-bit signed integer. -/
structure CInt where
  val : ℤ
  lower : -2147483648 ≤ val
  upper : val ≤ 2147483647

theorem CInt.ext' {i j : CInt} (h : i.val = j.val) : i = j := by
  cases i
  cases j
  simp only at h
  subst h
  rfl

instance : DecidableEq CInt := fun i j =>
  if h : i.val = j.val then isTrue (CInt.ext' h) else isFalse (fun he => h (congrArg CInt.val he))

/-- The nearest 32-bit integer. -/
def saturate (i : ℤ) : CInt where
  val := max (-2147483648) (min i 2147483647)
  lower := by omega
  upper := by omega

instance (n : ℕ) : OfNat CInt n := ⟨saturate n⟩

theorem saturate_val (i : CInt) : saturate i.val = i := by
  apply CInt.ext'
  have h1 := i.lower
  have h2 := i.upper
  simp only [saturate]
  omega

def ofInt : ℤ → Text
  | .ofNat n => Nat.toDigits 10 n
  | .negSucc n => '-' :: Nat.toDigits 10 (n+1)

/-- The characters `isspace` accepts. -/
def isSpace (c : Char) : Bool :=
  c == ' ' || c == '\t' || c == '\n' || c == '\x0b' || c == '\x0c' || c == '\r'

/-- The value of the leading digits, 0 without any. -/
def leadingNat (s : Text) : ℕ := Nat.ofDigitChars 10 (s.takeWhile Char.isDigit) 0

/-- `atoi` on a platform with a 32-bit `long`: leading blanks, a sign, digits, and the
rest ignored; saturated as `strtol` does it. -/
def atoi (s : Text) : CInt :=
  match s.dropWhile isSpace with
  | '-' :: t => saturate (-(leadingNat t : ℤ))
  | '+' :: t => saturate (leadingNat t)
  | t => saturate (leadingNat t)

def parseNat (s : Text) : Option ℕ :=
  if s ≠ [] ∧ s.all Char.isDigit then some (Nat.ofDigitChars 10 s 0) else none

/-- `Integer.parseInt`: the whole text has to be a number in range. -/
def parseInt (s : Text) : Option CInt :=
  let value : Option ℤ := match s with
    | '-' :: t => (parseNat t).map (fun n => -(n : ℤ))
    | t => (parseNat t).map (fun n => (n : ℤ))
  value.bind (fun i => if h : -2147483648 ≤ i ∧ i ≤ 2147483647 then some ⟨i, h.1, h.2⟩ else none)

theorem isDigit_of_mem_digits {n : ℕ} {c : Char} (h : c ∈ Nat.toDigits 10 n) :
    c.isDigit = true :=
  Nat.isDigit_of_mem_toDigits (by decide) (by decide) h

theorem mem_ofInt {i : ℤ} {c : Char} (h : c ∈ ofInt i) : c = '-' ∨ c.isDigit = true := by
  cases i with
  | ofNat n => exact Or.inr (isDigit_of_mem_digits h)
  | negSucc n =>
    rcases List.mem_cons.mp h with h | h
    · exact Or.inl h
    · exact Or.inr (isDigit_of_mem_digits h)

theorem not_mem_ofInt {i : ℤ} {c : Char} (hc : c ≠ '-') (hd : c.isDigit = false) :
    c ∉ ofInt i := by
  intro h
  rcases mem_ofInt h with h | h
  · exact hc h
  · simp [hd] at h

theorem ofInt_ne_nil (i : ℤ) : ofInt i ≠ [] := by
  cases i with
  | ofNat n => exact Nat.toDigits_ne_nil
  | negSucc n => exact List.cons_ne_nil _ _

theorem oneLine_ofInt (i : ℤ) : LineText.OneLine (ofInt i) :=
  ⟨not_mem_ofInt (by decide) (by decide), not_mem_ofInt (by decide) (by decide)⟩

theorem ofInt_length_le (i : CInt) : (ofInt i.val).length ≤ 11 := by
  have hl := i.lower
  have hu := i.upper
  have hdigits (n : ℕ) (hn : n < 10 ^ 10) : (Nat.toDigits 10 n).length ≤ 10 :=
    (Nat.length_toDigits_le_iff (by omega) (by omega)).mpr hn
  cases hi : i.val with
  | ofNat n =>
    have hn : i.val = (n : ℤ) := hi
    have h := hdigits n (by omega)
    simp only [ofInt]
    omega
  | negSucc n =>
    have hn : i.val = -((n : ℤ) + 1) := by rw [hi, Int.negSucc_eq]
    have h := hdigits (n+1) (by omega)
    simp only [ofInt, List.length_cons]
    omega

theorem digits_head (n : ℕ) : ∃ c t, Nat.toDigits 10 n = c :: t ∧ c.isDigit = true := by
  obtain ⟨c, t, h⟩ := List.exists_cons_of_ne_nil (Nat.toDigits_ne_nil (n := n) (b := 10))
  exact ⟨c, t, h, isDigit_of_mem_digits (n := n) (h ▸ List.mem_cons_self)⟩

theorem parseNat_digits (n : ℕ) : parseNat (Nat.toDigits 10 n) = some n := by
  have hall : (Nat.toDigits 10 n).all Char.isDigit = true :=
    List.all_eq_true.mpr fun c hc => isDigit_of_mem_digits hc
  rw [parseNat, if_pos ⟨Nat.toDigits_ne_nil, hall⟩, Nat.ofDigitChars_ten_toDigits]

/-- What `%i` prints, `Integer.parseInt` reads. -/
theorem parseInt_ofInt (i : CInt) : parseInt (ofInt i.val) = some i := by
  have hr : -2147483648 ≤ i.val ∧ i.val ≤ 2147483647 := ⟨i.lower, i.upper⟩
  have hv : parseInt (ofInt i.val) = (some i.val).bind
      (fun i => if h : -2147483648 ≤ i ∧ i ≤ 2147483647 then some ⟨i, h.1, h.2⟩ else none) := by
    unfold parseInt
    cases hi : i.val with
    | ofNat n =>
      obtain ⟨c, t, hs, hc⟩ := digits_head n
      -- the first character is a digit, so the sign is not looked at
      have hne : c ≠ '-' := by
        rintro rfl
        exact absurd hc (by decide)
      have hp := parseNat_digits n
      simp only [ofInt]
      rw [hs] at hp ⊢
      split
      · rename_i t' he
        exact absurd (List.cons.inj he).1 hne
      · rw [hp]
        rfl
    | negSucc n =>
      simp only [ofInt, parseNat_digits]
      rfl
  rw [hv, Option.bind_some, dif_pos hr]

/-- `Integer.parseInt` accepts digits and a minus sign. -/
theorem mem_parseInt {s : Text} {i : CInt} {c : Char} (h : parseInt s = some i) (hc : c ∈ s) :
    c = '-' ∨ c.isDigit = true := by
  have hnat {t : Text} {n : ℕ} (ht : parseNat t = some n) (hct : c ∈ t) : c.isDigit = true := by
    unfold parseNat at ht
    split_ifs at ht with hd
    exact List.all_eq_true.mp hd.2 c hct
  unfold parseInt at h
  obtain ⟨v, hv, -⟩ := Option.bind_eq_some_iff.mp h
  split at hv
  · next t =>
    rcases hn : parseNat t with _ | n
    · simp [hn] at hv
    · exact (List.mem_cons.mp hc).imp id (hnat hn)
  · rcases hn : parseNat s with _ | n
    · simp [hn] at hv
    · exact .inr (hnat hn hc)

theorem not_mem_parseInt {s : Text} {i : CInt} {c : Char} (h : parseInt s = some i)
    (hc : c ≠ '-') (hd : c.isDigit = false) : c ∉ s := by
  intro hm
  rcases mem_parseInt h hm with hm | hm
  · exact hc hm
  · simp [hd] at hm

theorem leadingNat_digits (n : ℕ) : leadingNat (Nat.toDigits 10 n) = n := by
  have h : (Nat.toDigits 10 n).takeWhile Char.isDigit = Nat.toDigits 10 n :=
    List.takeWhile_eq_self_iff.mpr fun c hc => isDigit_of_mem_digits hc
  rw [leadingNat, h, Nat.ofDigitChars_ten_toDigits]

theorem isSpace_of_isDigit {c : Char} (h : c.isDigit = true) : isSpace c = false := by
  have hb : ∀ d : Char, d.isDigit = false → c ≠ d := by
    rintro d hd rfl
    simp [h] at hd
  simp [isSpace, hb ' ' (by decide), hb '\t' (by decide), hb '\n' (by decide),
    hb '\x0b' (by decide), hb '\x0c' (by decide), hb '\r' (by decide)]

/-- `atoi` reads what `%i` prints. -/
theorem atoi_ofInt (i : CInt) : atoi (ofInt i.val) = i := by
  cases hi : i.val with
  | ofNat n =>
    obtain ⟨c, t, hs, hc⟩ := digits_head n
    have hd : (Nat.toDigits 10 n).dropWhile isSpace = Nat.toDigits 10 n := by
      rw [hs, List.dropWhile_cons, isSpace_of_isDigit hc]
      simp
    have hl := leadingNat_digits n
    have hv : saturate (n : ℤ) = i := by
      rw [← saturate_val i, hi]
      rfl
    simp only [ofInt, atoi, hd]
    rw [hs] at hl ⊢
    split
    · rename_i t' he
      rw [(List.cons.inj he).1] at hc
      exact absurd hc (by decide)
    · rename_i t' he
      rw [(List.cons.inj he).1] at hc
      exact absurd hc (by decide)
    · rw [hl, hv]
  | negSucc n =>
    have hd : ('-' :: Nat.toDigits 10 (n+1)).dropWhile isSpace = '-' :: Nat.toDigits 10 (n+1) := by
      simp [isSpace]
    simp only [ofInt, atoi, hd, leadingNat_digits]
    rw [← saturate_val i, hi]
    rfl

end DecimalText
