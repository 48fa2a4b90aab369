import LuaIde.LineIndices
import LuaIde.Pieces

/-! How `llex` reads a chunk: the lexemes of Lua 5.1, with the comments, line ends and blanks
between the tokens. -/
namespace LuaIde.LuaLexer

open LineText DecimalText Pieces

/-- What is read in one turn of the loop of `llex`. A rejected text raises an error. -/
inductive Lexeme
  | other
  | shortComment
  | longComment (sep : ℕ)
  | shortString
  | longString (sep : ℕ)
  | rejected
deriving DecidableEq

/-- How many characters `inclinenumber` skips behind the line end `old`. -/
def inclinenumber (old : Char) : Text → ℕ
  | [] => 0
  | current :: _ => if currIsNewline current ∧ current ≠ old then 1 else 0

/-- How many characters `check_next` saves. For a NUL `strchr` finds the end of the set. -/
def checkNext (set : Text) : Text → ℕ
  | [] => 0
  | current :: _ => if current ∈ set ∨ current = '\x00' then 1 else 0

def isalnum_ (c : Char) : Bool := c.isAlphanum || c == '_'

/-- How many characters `read_numeral` saves behind the first digit. -/
def readNumeral (s : Text) : ℕ :=
  let digits := (s.takeWhile fun c => c.isDigit || c == '.').length
  let e := checkNext ['E', 'e'] (s.drop digits)
  let sign := if e = 1 then checkNext ['+', '-'] (s.drop (digits + e)) else 0
  digits + e + sign + ((s.drop (digits + e + sign)).takeWhile isalnum_).length

/-- The number of `=` in front of a text. -/
def equalSigns (s : Text) : ℕ := (s.takeWhile (· == '=')).length

/-- `skip_sep` behind the bracket `s`; it skips the equal signs. -/
def skipSep (s : Char) (t : Text) : ℤ :=
  if (t.drop (equalSigns t)).head? = some s then equalSigns t else -(equalSigns t : ℤ) - 1

/-- A turn of `read_long_string`. It also skips a line end right behind the opening bracket: that
one is not saved, but passed over as the others are. -/
def longStringTurn (sep : ℤ) (current : Char) (s : Text) : Turn :=
  if current = '[' then
    if skipSep '[' s = sep then
      -- nesting of level 0 is an error with LUA_COMPAT_LSTR = 1
      if sep = 0 then .fail else .more (equalSigns s + 1)
    else .more (equalSigns s)
  else if current = ']' then
    if skipSep ']' s = sep then .done (equalSigns s + 1) else .more (equalSigns s)
  else if currIsNewline current then .more (inclinenumber current s)
  else .more 0

/-- A turn of `read_string`. -/
def stringTurn (del current : Char) (s : Text) : Turn :=
  if current = del then .done 0
  else if currIsNewline current then .fail
  else if current = '\\' then
    match s with
    -- the end of the text raises its error in the next turn
    | [] => .more 0
    | c :: t =>
      if currIsNewline c then .more (1 + inclinenumber c t)
      else if c.isDigit then
        -- up to three digits, of a value up to UCHAR_MAX
        if leadingNat ((c :: t).take 3) ≤ 255 then
          .more (((c :: t).take 3).takeWhile Char.isDigit).length
        else .fail
      else .more 1
  else .more 0

/-- An error ends the reading: nothing of the text that is left is read. -/
def reject (s : Text) : Lexeme × ℕ := (.rejected, s.length)

/-- `read_long_string` behind the first bracket of the opening one, in front of `s`. -/
def readLongString (lexeme : ℕ → Lexeme) (s : Text) : Lexeme × ℕ :=
  match scan (longStringTurn (equalSigns s)) (s.drop (equalSigns s + 1)) with
  | some (body, _) => (lexeme (equalSigns s), equalSigns s + 1 + body.length)
  | none => reject s

/-- `read_string` behind the delimiter. -/
def readString (del : Char) (s : Text) : Lexeme × ℕ :=
  match scan (stringTurn del) s with
  | some (body, _) => (.shortString, body.length)
  | none => reject s

/-- A comment behind its two dashes. -/
def readComment (s : Text) : Lexeme × ℕ :=
  let short := (Lexeme.shortComment, (s.takeWhile fun c => ¬ currIsNewline c).length)
  match s with
  | [] => short
  | current :: t =>
    if current = '[' ∧ 0 ≤ skipSep '[' t then
      ((readLongString .longComment t).1, (readLongString .longComment t).2 + 1)
    else short

/-- A numeral of `n` characters behind its first one. -/
def numeral (str2d : Text → Bool) (current : Char) (s : Text) (n : ℕ) : Lexeme × ℕ :=
  if str2d (current :: s.take n) then (.other, n) else reject s

/-- `llex` at the character `current` in front of `s`, in the C locale. `str2d` says which buffers
`luaO_str2d` converts. -/
def llex (str2d : Text → Bool) (current : Char) (s : Text) : Lexeme × ℕ :=
  if currIsNewline current then (.other, inclinenumber current s)
  else if current = '-' then
    if s.head? = some '-' then
      ((readComment s.tail).1, (readComment s.tail).2 + 1)
    else (.other, 0)
  else if current = '[' then
    if 0 ≤ skipSep '[' s then readLongString .longString s
    else if skipSep '[' s = -1 then (.other, 0)
    else reject s
  else if current = '=' ∨ current = '<' ∨ current = '>' ∨ current = '~' then
    if s.head? = some '=' then (.other, 1) else (.other, 0)
  else if current = '"' ∨ current = '\'' then readString current s
  else if current = '.' then
    if checkNext ['.'] s = 1 then (.other, 1 + checkNext ['.'] s.tail)
    else if s.head?.any Char.isDigit then numeral str2d current s (1 + readNumeral s.tail)
    else (.other, 0)
  else if isSpace current then (.other, 0)
  else if current.isDigit then numeral str2d current s (readNumeral s)
  else if current.isAlpha ∨ current = '_' then (.other, (s.takeWhile isalnum_).length)
  else (.other, 0)

/-- The lexemes of a chunk, with their texts. -/
def lexemes (str2d : Text → Bool) (chunk : Text) : List (Lexeme × Text) :=
  cutUp (llex str2d) chunk

/-- The lexer comes to the end of the chunk without an error. -/
def Accepts (str2d : Text → Bool) (chunk : Text) : Prop :=
  ∀ l ∈ lexemes str2d chunk, l.1 ≠ .rejected

instance (str2d : Text → Bool) (chunk : Text) : Decidable (Accepts str2d chunk) :=
  inferInstanceAs (Decidable (∀ l ∈ lexemes str2d chunk, l.1 ≠ .rejected))

section Reads

/-- The characters with which neither a comment nor a string starts. -/
def Plain (c : Char) : Prop := c ≠ '-' ∧ c ≠ '[' ∧ c ≠ '"' ∧ c ≠ '\''

instance (c : Char) : Decidable (Plain c) := inferInstanceAs (Decidable (_ ∧ _))

/-- A text of plain characters, but for one dash: a numeral may have one in its exponent. -/
def DashOnce (p : Text) : Prop :=
  (∀ c ∈ p, Plain c) ∨ ∃ a b, (∀ c ∈ a, Plain c) ∧ (∀ c ∈ b, Plain c) ∧ p = a ++ '-' :: b

/-- What a turn of `llex` can do: it reads a lexeme and its text, in front of the rest. -/
inductive Reads : Lexeme → Text → Text → Prop
  | token (p r : Text) (hp : DashOnce p) : Reads .other p r
  | bracket (r : Text) (hr : r.head? ≠ some '[') : Reads .other ['['] r
  | shortComment (p r : Text) (hp : ∀ c ∈ p, ¬ currIsNewline c)
      (hr : ∀ c ∈ r.head?, currIsNewline c) (hlong : ¬ ['[', '['] <+: p ++ r) :
      Reads .shortComment ('-' :: '-' :: p) r
  | longComment (sep : ℕ) (body r : Text)
      (h : scan (longStringTurn sep) (body ++ r) = some (body, r)) :
      Reads (.longComment sep) ('-' :: '-' :: '[' :: (List.replicate sep '=' ++ '[' :: body)) r
  | shortString (del : Char) (body r : Text) (hdel : del = '"' ∨ del = '\'')
      (h : scan (stringTurn del) (body ++ r) = some (body, r)) : Reads .shortString (del :: body) r
  | longString (sep : ℕ) (body r : Text)
      (h : scan (longStringTurn sep) (body ++ r) = some (body, r)) :
      Reads (.longString sep) ('[' :: (List.replicate sep '=' ++ '[' :: body)) r

def ReadsAt (c : Char) (s : Text) (out : Lexeme × ℕ) : Prop :=
  out.1 ≠ .rejected → Reads out.1 (c :: s.take out.2) (s.drop out.2)

theorem readsAt_reject (c : Char) (s t : Text) : ReadsAt c s (reject t) := fun h => absurd rfl h

theorem plain_of {p : Char → Bool} {c : Char} (h : p c = true)
    (hp : p '-' = false ∧ p '[' = false ∧ p '"' = false ∧ p '\'' = false) : Plain c := by
  obtain ⟨h1, h2, h3, h4⟩ := hp
  refine ⟨?_, ?_, ?_, ?_⟩
  all_goals
    intro hc
    rw [hc] at h
    simp_all

theorem plain_of_newline {c : Char} (h : currIsNewline c) : Plain c :=
  plain_of (p := fun c => decide (currIsNewline c)) (decide_eq_true h) (by decide)

theorem DashOnce.cons {c : Char} {p : Text} (hc : Plain c) (h : DashOnce p) :
    DashOnce (c :: p) := by
  rcases h with h | ⟨a, b, ha, hb, heq⟩
  · exact .inl (List.forall_mem_cons.mpr ⟨hc, h⟩)
  · refine .inr ⟨c :: a, b, List.forall_mem_cons.mpr ⟨hc, ha⟩, hb, ?_⟩
    rw [heq, List.cons_append]

theorem take_length_takeWhile (q : Char → Bool) (s : Text) :
    s.take (s.takeWhile q).length = s.takeWhile q :=
  (List.prefix_iff_eq_take.mp (List.takeWhile_prefix q)).symm

theorem drop_length_takeWhile (q : Char → Bool) (s : Text) :
    s.drop (s.takeWhile q).length = s.dropWhile q := by
  have h := List.takeWhile_append_dropWhile (p := q) (l := s)
  calc
    s.drop (s.takeWhile q).length =
        (s.takeWhile q ++ s.dropWhile q).drop (s.takeWhile q).length := by rw [h]
    _ = s.dropWhile q := List.drop_left

theorem take_checkNext (set s : Text) :
    s.take (checkNext set s) = [] ∨
      ∃ c, (c ∈ set ∨ c = '\x00') ∧ s.take (checkNext set s) = [c] := by
  cases s with
  | nil => exact .inl rfl
  | cons c s =>
    by_cases hc : c ∈ set ∨ c = '\x00'
    · refine .inr ⟨c, hc, ?_⟩
      simp only [checkNext, if_pos hc, List.take_succ_cons, List.take_zero]
    · refine .inl ?_
      simp only [checkNext, if_neg hc, List.take_zero]

theorem plain_of_mem_checkNext {set s : Text} {c : Char}
    (hset : ∀ d ∈ set, Plain d) (h : c ∈ s.take (checkNext set s)) : Plain c := by
  rcases take_checkNext set s with hnone | ⟨d, hd, hone⟩
  · rw [hnone] at h
    cases h
  · rw [hone, List.mem_singleton] at h
    rw [h]
    rcases hd with hd | rfl
    · exact hset d hd
    · decide

theorem plain_of_mem_take {q : Char → Bool} {s : Text}
    (hq : q '-' = false ∧ q '[' = false ∧ q '"' = false ∧ q '\'' = false) :
    ∀ c ∈ s.take (s.takeWhile q).length, Plain c := by
  intro c hc
  rw [take_length_takeWhile] at hc
  exact plain_of (List.mem_takeWhile_imp hc) hq

theorem DashOnce.of_sign {a sign b : Text} (ha : ∀ c ∈ a, Plain c) (hb : ∀ c ∈ b, Plain c)
    (hsign : sign = [] ∨ ∃ c, sign = [c] ∧ (Plain c ∨ c = '-')) : DashOnce (a ++ sign ++ b) := by
  rcases hsign with rfl | ⟨c, rfl, hc | rfl⟩
  · rw [List.append_nil]
    exact .inl (List.forall_mem_append.mpr ⟨ha, hb⟩)
  · refine .inl (List.forall_mem_append.mpr ⟨List.forall_mem_append.mpr ⟨ha, ?_⟩, hb⟩)
    exact List.forall_mem_singleton.mpr hc
  · exact .inr ⟨a, b, ha, hb, by rw [List.append_assoc, List.singleton_append]⟩

theorem dashOnce_readNumeral (s : Text) : DashOnce (s.take (readNumeral s)) := by
  unfold readNumeral
  dsimp only
  generalize hdigits : (s.takeWhile fun c => c.isDigit || c == '.').length = digits
  generalize he : checkNext ['E', 'e'] (s.drop digits) = e
  rw [List.take_add, List.take_add]
  apply DashOnce.of_sign
  · intro c hc
    rw [List.take_add, List.mem_append] at hc
    rcases hc with hc | hc
    · rw [← hdigits] at hc
      exact plain_of_mem_take (by decide) c hc
    · rw [← he] at hc
      exact plain_of_mem_checkNext (by simp [Plain]) hc
  · exact plain_of_mem_take (by decide)
  · split_ifs
    · rcases take_checkNext ['+', '-'] (s.drop (digits + e)) with hnone | ⟨d, hd, hone⟩
      · exact .inl hnone
      · refine .inr ⟨d, hone, ?_⟩
        simp only [List.mem_cons, List.not_mem_nil, or_false] at hd
        rcases hd with (rfl | rfl) | rfl
        · exact .inl (by decide)
        · exact .inr rfl
        · exact .inl (by decide)
    · exact .inl List.take_zero

theorem newline_of_mem_inclinenumber {old c : Char} {s : Text}
    (h : c ∈ s.take (inclinenumber old s)) : currIsNewline c := by
  cases s with
  | nil => cases h
  | cons current s =>
    by_cases hpair : currIsNewline current ∧ current ≠ old
    · simp only [inclinenumber, if_pos hpair, List.take_succ_cons, List.take_zero,
        List.mem_singleton] at h
      rw [h]
      exact hpair.1
    · simp only [inclinenumber, if_neg hpair, List.take_zero, List.not_mem_nil] at h

theorem readsAt_plain {c : Char} {s : Text} {n : ℕ} (hc : Plain c)
    (hs : ∀ d ∈ s.take n, Plain d) : ReadsAt c s (.other, n) :=
  fun _ => .token _ _ (.inl (List.forall_mem_cons.mpr ⟨hc, hs⟩))

theorem readsAt_numeral (str2d : Text → Bool) {c : Char} {s : Text} {n : ℕ} (hc : Plain c)
    (hs : DashOnce (s.take n)) : ReadsAt c s (numeral str2d c s n) := by
  unfold numeral
  split_ifs
  · exact fun _ => .token _ _ (hs.cons hc)
  · exact readsAt_reject c s s

theorem take_equalSigns (s : Text) : s.take (equalSigns s) = List.replicate (equalSigns s) '=' := by
  rw [equalSigns, take_length_takeWhile]
  refine List.eq_replicate_of_mem fun c hc => ?_
  simpa using List.mem_takeWhile_imp hc

theorem skipSep_nonneg {b : Char} {s : Text} (h : 0 ≤ skipSep b s) :
    (s.drop (equalSigns s)).head? = some b ∧ skipSep b s = equalSigns s := by
  by_cases hhead : (s.drop (equalSigns s)).head? = some b
  · exact ⟨hhead, if_pos hhead⟩
  · rw [skipSep, if_neg hhead] at h
    omega

/-- A bracket is found behind the equal signs. -/
theorem eq_of_skipSep {b : Char} {s : Text} (h : 0 ≤ skipSep b s) :
    s = List.replicate (equalSigns s) '=' ++ b :: s.drop (equalSigns s + 1) := by
  have hhead := (skipSep_nonneg h).1
  cases hdrop : s.drop (equalSigns s) with
  | nil =>
    rw [hdrop] at hhead
    cases hhead
  | cons d t =>
    rw [hdrop, List.head?_cons, Option.some.injEq] at hhead
    have htail : s.drop (equalSigns s + 1) = t := by
      rw [← List.drop_drop, hdrop, List.drop_one, List.tail_cons]
    calc
      s = s.take (equalSigns s) ++ s.drop (equalSigns s) := (List.take_append_drop _ _).symm
      _ = List.replicate (equalSigns s) '=' ++ b :: s.drop (equalSigns s + 1) := by
        rw [take_equalSigns, hdrop, htail, hhead]

/-- A long bracket is read to its end, or the text is rejected. -/
theorem readLongString_cases (lexeme : ℕ → Lexeme) {s : Text} (h : 0 ≤ skipSep '[' s) :
    readLongString lexeme s = reject s ∨ ∃ sep body r,
      s = (List.replicate sep '=' ++ '[' :: body) ++ r ∧
      scan (longStringTurn sep) (body ++ r) = some (body, r) ∧
      readLongString lexeme s = (lexeme sep, (List.replicate sep '=' ++ '[' :: body).length) := by
  cases hscan : scan (longStringTurn (equalSigns s)) (s.drop (equalSigns s + 1)) with
  | none => exact .inl (by simp only [readLongString, hscan])
  | some out =>
    obtain ⟨body, r⟩ := out
    have happ := append_of_scan hscan
    refine .inr ⟨equalSigns s, body, r, ?_, ?_, ?_⟩
    · rw [List.append_assoc, List.cons_append, ← happ]
      exact eq_of_skipSep h
    · rw [← happ, hscan]
    · have hlength : equalSigns s + 1 + body.length =
          (List.replicate (equalSigns s) '=' ++ '[' :: body).length := by
        rw [List.length_append, List.length_replicate, List.length_cons]
        omega
      simp only [readLongString, hscan, hlength]

theorem not_newline_of_head?_dropWhile (t : Text) :
    ∀ c ∈ (t.dropWhile fun c => ¬ currIsNewline c).head?, currIsNewline c := by
  intro c hc
  have hhead := List.head?_dropWhile_not (fun c => decide (¬ currIsNewline c)) t
  rw [Option.mem_def.mp hc] at hhead
  simpa using hhead

theorem readsAt_shortComment {t : Text} (hlong : ¬ ['[', '['] <+: t) :
    ReadsAt '-' ('-' :: t)
      (.shortComment, (t.takeWhile fun c => ¬ currIsNewline c).length + 1) := by
  intro _
  rw [List.take_succ_cons, List.drop_succ_cons, take_length_takeWhile, drop_length_takeWhile]
  apply Reads.shortComment
  · intro c hc
    simpa using List.mem_takeWhile_imp hc
  · exact not_newline_of_head?_dropWhile t
  · rwa [List.takeWhile_append_dropWhile]

theorem readsAt_readComment (t : Text) :
    ReadsAt '-' ('-' :: t) ((readComment t).1, (readComment t).2 + 1) := by
  cases t with
  | nil => exact readsAt_shortComment (by decide)
  | cons current t =>
    unfold readComment
    dsimp only
    split_ifs with hlong
    · rcases readLongString_cases .longComment hlong.2 with hr | ⟨sep, body, r, ht, hscan, hread⟩
      · rw [hr]
        exact fun h => absurd rfl h
      · intro _
        rw [hread, hlong.1, ht]
        simp only [List.take_succ_cons, List.drop_succ_cons, List.take_left, List.drop_left]
        exact .longComment sep body r hscan
    · -- behind two brackets the comment would be a long one
      apply readsAt_shortComment
      rintro ⟨u, hu⟩
      apply hlong
      rw [List.cons_append, List.cons_append, List.nil_append, List.cons.injEq] at hu
      rw [← hu.1, ← hu.2]
      exact ⟨rfl, by simp [skipSep, equalSigns]⟩

/-- The turn of `read_string` that is done has come to the delimiter. -/
theorem stringTurn_eq_done {del c : Char} {s : Text} {n : ℕ} (h : stringTurn del c s = .done n) :
    c = del ∧ n = 0 := by
  unfold stringTurn at h
  split_ifs at h with hdel hnewline hescape
  · cases h
    exact ⟨hdel, rfl⟩
  · cases s with
    | nil => cases h
    | cons d t =>
      dsimp only at h
      split_ifs at h

/-- A turn that goes on has passed over a character, or over an escape: a line end, up to three
digits or one other character. -/
theorem stringTurn_eq_more {del c : Char} {s : Text} {n : ℕ} (hs : s ≠ [])
    (h : stringTurn del c s = .more n) :
    (c ≠ del ∧ ¬ currIsNewline c ∧ c ≠ '\\' ∧ n = 0) ∨
      ∃ d t, c = '\\' ∧ s = d :: t ∧
        (currIsNewline d ∧ n = inclinenumber d t + 1 ∨
          ¬ currIsNewline d ∧ ∃ k, n = k + 1 ∧ ∀ x ∈ t.take k, x.isDigit) := by
  unfold stringTurn at h
  split_ifs at h with hdel hnewline hescape
  · refine .inr ?_
    cases s with
    | nil => exact absurd rfl hs
    | cons d t =>
      refine ⟨d, t, hescape, rfl, ?_⟩
      dsimp only at h
      split_ifs at h with hline hdigit hlarge
      · cases h
        exact .inl ⟨hline, Nat.add_comm _ _⟩
      · cases h
        refine .inr ⟨hline, ((t.take 2).takeWhile Char.isDigit).length, ?_, ?_⟩
        · rw [List.take_succ_cons, List.takeWhile_cons_of_pos hdigit, List.length_cons]
        · intro x hx
          have htake : t.take ((t.take 2).takeWhile Char.isDigit).length =
              (t.take 2).takeWhile Char.isDigit := by
            refine (List.prefix_iff_eq_take.mp ?_).symm
            exact (List.takeWhile_prefix _).trans (List.take_prefix _ _)
          rw [htake] at hx
          exact List.mem_takeWhile_imp hx
      · cases h
        exact .inr ⟨hline, 0, rfl, by simp⟩
  · cases h
    exact .inl ⟨hdel, hnewline, hescape, rfl⟩

theorem readsAt_readString {del : Char} (hdel : del = '"' ∨ del = '\'') (s : Text) :
    ReadsAt del s (readString del s) := by
  unfold readString
  cases hscan : scan (stringTurn del) s with
  | none => exact readsAt_reject _ _ s
  | some out =>
    obtain ⟨body, r⟩ := out
    have happ := append_of_scan hscan
    subst happ
    intro _
    rw [List.take_left, List.drop_left]
    exact .shortString del body r hdel hscan

/-- An opening bracket starts a string or stands alone; anything else is rejected. -/
theorem readsAt_bracket (s : Text) :
    ReadsAt '[' s (if 0 ≤ skipSep '[' s then readLongString .longString s
      else if skipSep '[' s = -1 then (.other, 0) else reject s) := by
  split_ifs with hlong hsep
  · rcases readLongString_cases .longString hlong with hr | ⟨sep, body, r, hs, hscan, hread⟩
    · rw [hr]
      exact readsAt_reject _ _ s
    · intro _
      rw [hread, hs]
      simp only [List.take_left, List.drop_left]
      exact .longString sep body r hscan
  · intro _
    refine .bracket s fun hhead => ?_
    -- without equal signs the second bracket would have opened a string
    apply hlong
    obtain ⟨t, rfl⟩ := List.head?_eq_some_iff.mp hhead
    simp [skipSep, equalSigns]
  · exact readsAt_reject _ _ s

theorem readsAt_operator {c : Char} (hc : c = '=' ∨ c = '<' ∨ c = '>' ∨ c = '~') (s : Text) :
    ReadsAt c s (if s.head? = some '=' then (.other, 1) else (.other, 0)) := by
  have hplain : Plain c := by rcases hc with rfl | rfl | rfl | rfl <;> decide
  split_ifs with heq
  · obtain ⟨t, rfl⟩ := List.head?_eq_some_iff.mp heq
    apply readsAt_plain hplain
    intro d hd
    rw [List.take_succ_cons, List.take_zero, List.mem_singleton] at hd
    rw [hd]
    decide
  · exact readsAt_plain hplain (by simp)

theorem readsAt_dot (str2d : Text → Bool) (s : Text) :
    ReadsAt '.' s (if checkNext ['.'] s = 1 then (.other, 1 + checkNext ['.'] s.tail)
      else if s.head?.any Char.isDigit then numeral str2d '.' s (1 + readNumeral s.tail)
      else (.other, 0)) := by
  split_ifs with hdots hdigit
  · apply readsAt_plain (by decide)
    intro d hd
    rw [List.take_add, List.drop_one, ← hdots, List.mem_append] at hd
    rcases hd with hd | hd
    · exact plain_of_mem_checkNext (by simp [Plain]) hd
    · exact plain_of_mem_checkNext (by simp [Plain]) hd
  · cases s with
    | nil => cases hdigit
    | cons d s =>
      have hd : Plain d := plain_of (p := Char.isDigit) hdigit (by decide)
      apply readsAt_numeral str2d (by decide)
      rw [Nat.add_comm, List.take_succ_cons, List.tail_cons]
      exact (dashOnce_readNumeral s).cons hd
  · exact readsAt_plain (by decide) (by simp)

theorem readsAt_llex (str2d : Text → Bool) (c : Char) (s : Text) :
    ReadsAt c s (llex str2d c s) := by
  unfold llex
  by_cases hnewline : currIsNewline c
  · rw [if_pos hnewline]
    exact readsAt_plain (plain_of_newline hnewline) fun d hd =>
      plain_of_newline (newline_of_mem_inclinenumber hd)
  rw [if_neg hnewline]
  by_cases hdash : c = '-'
  · rw [if_pos hdash, hdash]
    split_ifs with hcomment
    · obtain ⟨t, rfl⟩ := List.head?_eq_some_iff.mp hcomment
      exact readsAt_readComment t
    · exact fun _ => .token _ _ (.inr ⟨[], [], by simp, by simp, rfl⟩)
  rw [if_neg hdash]
  by_cases hbracket : c = '['
  · rw [if_pos hbracket, hbracket]
    exact readsAt_bracket s
  rw [if_neg hbracket]
  by_cases hop : c = '=' ∨ c = '<' ∨ c = '>' ∨ c = '~'
  · rw [if_pos hop]
    exact readsAt_operator hop s
  rw [if_neg hop]
  by_cases hquote : c = '"' ∨ c = '\''
  · rw [if_pos hquote]
    exact readsAt_readString hquote s
  rw [if_neg hquote]
  by_cases hdot : c = '.'
  · rw [if_pos hdot, hdot]
    exact readsAt_dot str2d s
  rw [if_neg hdot]
  -- the characters that are left start neither a comment nor a string
  have hquotes := not_or.mp hquote
  have hplain : Plain c := ⟨hdash, hbracket, hquotes.1, hquotes.2⟩
  split_ifs
  · exact readsAt_plain hplain (by simp)
  · exact readsAt_numeral str2d hplain (dashOnce_readNumeral s)
  · exact readsAt_plain hplain (plain_of_mem_take (by decide))
  · exact readsAt_plain hplain (by simp)

/-- An accepted chunk starts with a lexeme, in front of an accepted rest. -/
theorem exists_reads {str2d : Text → Bool} {chunk : Text} (hne : chunk ≠ [])
    (h : Accepts str2d chunk) :
    ∃ l p r, Reads l p r ∧ p ≠ [] ∧ chunk = p ++ r ∧
      lexemes str2d chunk = (l, p) :: lexemes str2d r ∧ Accepts str2d r := by
  cases chunk with
  | nil => exact absurd rfl hne
  | cons c s =>
    have hcons := cutUp_cons (llex str2d) c s
    have hfirst : (llex str2d c s).1 ≠ .rejected := by
      refine h (_, c :: s.take (llex str2d c s).2) ?_
      rw [lexemes, hcons]
      exact List.mem_cons_self
    refine ⟨_, _, _, readsAt_llex str2d c s hfirst, List.cons_ne_nil _ _, ?_, hcons, ?_⟩
    · rw [List.cons_append, List.take_append_drop]
    · intro l hl
      apply h l
      rw [lexemes, hcons]
      exact List.mem_cons_of_mem _ hl

end Reads

end LuaIde.LuaLexer
