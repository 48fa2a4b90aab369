import LuaIde.LuaLexer

/-! `LuaPartitionScanner`: the partitions of the Lua editor, against the lexemes of Lua. -/
namespace LuaIde.PartitionScanner

open LineText Pieces LuaLexer

inductive ContentType
  | singlelineComment
  | multilineComment
  | string
  | multilineString
  | default

/-- The rules of a partition scanner. -/
inductive Rule
  | multiLine (start stop : Text)
  | endOfLine (start : Text)
  | singleLine (start stop : Text) (escape : Char)

/-- How many characters there are to the end of the first `stop`, or of the file. -/
def toStop (stop : Text) : Text → ℕ
  | [] => 0
  | c :: s => if stop.isPrefixOf (c :: s) then stop.length else toStop stop s + 1

/-- How many characters there are to the end of the first `stop` of the line, or to the end of the
line; an escape character takes the next character with it. None at the end of the file. -/
def toStopInLine (stop : Text) (escape : Char) : Text → Option ℕ
  | [] => none
  | c :: s =>
    if c = escape then
      match s with
      | [] => none
      | _ :: t => (toStopInLine stop escape t).map (· + 2)
    else if stop.isPrefixOf (c :: s) then some stop.length
    else if currIsNewline c then some 0
    else (toStopInLine stop escape s).map (· + 1)

/-- How many characters a rule takes, if it matches. -/
def Rule.evaluate (s : Text) : Rule → Option ℕ
  | .multiLine start stop =>
    if start.isPrefixOf s then some (start.length + toStop stop (s.drop start.length)) else none
  | .endOfLine start =>
    if start.isPrefixOf s then
      some (start.length + ((s.drop start.length).takeWhile fun c => ¬ currIsNewline c).length)
    else none
  | .singleLine start stop escape =>
    if start.isPrefixOf s then
      (toStopInLine stop escape (s.drop start.length)).map (start.length + ·)
    else none

def rules : List (Rule × ContentType) :=
  [(.multiLine ['-', '-', '[', '['] [']', ']'], .multilineComment),
    (.endOfLine ['-', '-'], .singlelineComment),
    (.singleLine ['"'] ['"'] '\\', .string),
    (.singleLine ['\''] ['\''] '\\', .string),
    (.multiLine ['[', '['] [']', ']'], .multilineString)]

/-- The partition that starts with `c` in front of `s`: the first rule that matches takes it, and
without one the character is default text. -/
def nextToken (c : Char) (s : Text) : ContentType × ℕ :=
  match rules.findSome? fun rule => (rule.1.evaluate (c :: s)).map fun n => (rule.2, n - 1) with
  | some token => token
  | none => (.default, 0)

/-- What a character is a part of. -/
inductive Part
  | code
  | comment
  | string
deriving DecidableEq

def ContentType.part : ContentType → Part
  | .singlelineComment | .multilineComment => .comment
  | .string | .multilineString => .string
  | .default => .code

def lexemePart : Lexeme → Part
  | .shortComment | .longComment _ => .comment
  | .shortString | .longString _ => .string
  | .other | .rejected => .code

/-- What the editor takes each character of a text for. -/
def partitioned (text : Text) : List Part := spread ContentType.part (cutUp nextToken text)

/-- What Lua reads each character of a text as. -/
def lexed (str2d : Text → Bool) (text : Text) : List Part :=
  spread lexemePart (lexemes str2d text)

/-- The comments of the editor are at the positions of those of Lua, and the strings too. -/
structure SamePartitions (str2d : Text → Bool) (text : Text) : Prop where
  comments : ∀ i : ℕ, (partitioned text)[i]? = some .comment ↔
    (lexed str2d text)[i]? = some .comment
  strings : ∀ i : ℕ, (partitioned text)[i]? = some .string ↔
    (lexed str2d text)[i]? = some .string

/-- CR LF or LF CR, which Lua counts as one line end. -/
def HasLineEndPair (s : Text) : Prop := ['\r', '\n'] <:+: s ∨ ['\n', '\r'] <:+: s

def OnOneLine (s : Text) : Prop := ∀ c ∈ s, ¬ currIsNewline c

instance (s : Text) : Decidable (HasLineEndPair s) := inferInstanceAs (Decidable (_ ∨ _))

instance (s : Text) : Decidable (OnOneLine s) :=
  inferInstanceAs (Decidable (∀ c ∈ s, ¬ currIsNewline c))

/-- The lexemes up to the end of the line, or of the chunk, are comments. -/
def FillsLine : List (Lexeme × Text) → Prop
  | [] => True
  | (lexeme, s) :: ls =>
    (∃ c ∈ s.head?, currIsNewline c) ∨
      (lexemePart lexeme = .comment ∧ OnOneLine s ∧ FillsLine ls)

/-- The editor takes a lexeme in front of others for what it is. -/
def LexemeAgrees (s : Text) (ls : List (Lexeme × Text)) : Lexeme → Prop
  -- a dash and another one do not start a comment
  | .other => s.getLast? = some '-' → ∀ l ∈ ls.head?, l.2.head? ≠ some '-'
  | .shortComment => True
  | .longComment sep => sep = 0 ∨ (OnOneLine s ∧ FillsLine ls)
  | .shortString => ¬ HasLineEndPair s
  | .longString sep => sep = 0
  | .rejected => True

def Agreeable : List (Lexeme × Text) → Prop
  | [] => True
  | (lexeme, s) :: ls => LexemeAgrees s ls lexeme ∧ Agreeable ls

instance decidableFillsLine : (ls : List (Lexeme × Text)) → Decidable (FillsLine ls)
  | [] => inferInstanceAs (Decidable True)
  | (lexeme, s) :: ls =>
    have := decidableFillsLine ls
    inferInstanceAs (Decidable ((∃ c ∈ s.head?, currIsNewline c) ∨
      (lexemePart lexeme = .comment ∧ OnOneLine s ∧ FillsLine ls)))

instance (s : Text) (ls : List (Lexeme × Text)) : (l : Lexeme) → Decidable (LexemeAgrees s ls l)
  | .other => inferInstanceAs (Decidable (_ → ∀ l ∈ ls.head?, l.2.head? ≠ some '-'))
  | .shortComment | .rejected => inferInstanceAs (Decidable True)
  | .longComment _ => inferInstanceAs (Decidable (_ ∨ (OnOneLine s ∧ FillsLine ls)))
  | .shortString => inferInstanceAs (Decidable (¬ HasLineEndPair s))
  | .longString sep => inferInstanceAs (Decidable (sep = 0))

instance decidableAgreeable : (ls : List (Lexeme × Text)) → Decidable (Agreeable ls)
  | [] => inferInstanceAs (Decidable True)
  | (lexeme, s) :: ls =>
    have := decidableAgreeable ls
    inferInstanceAs (Decidable (LexemeAgrees s ls lexeme ∧ Agreeable ls))

section Partitions

theorem nextToken_plain {c : Char} (h : Plain c) (s : Text) : nextToken c s = (.default, 0) := by
  obtain ⟨h1, h2, h3, h4⟩ := h
  simp [nextToken, rules, Rule.evaluate, Ne.symm h1, Ne.symm h2, Ne.symm h3, Ne.symm h4]

theorem nextToken_dash {s : Text} (h : s.head? ≠ some '-') : nextToken '-' s = (.default, 0) := by
  cases s with
  | nil => rfl
  | cons d s =>
    rw [List.head?_cons, ne_eq, Option.some.injEq] at h
    simp [nextToken, rules, Rule.evaluate, Ne.symm h]

theorem nextToken_bracket {s : Text} (h : s.head? ≠ some '[') :
    nextToken '[' s = (.default, 0) := by
  cases s with
  | nil => rfl
  | cons d s =>
    rw [List.head?_cons, ne_eq, Option.some.injEq] at h
    simp [nextToken, rules, Rule.evaluate, Ne.symm h]

theorem nextToken_shortComment {s : Text} (h : ¬ ['[', '['] <+: s) :
    nextToken '-' ('-' :: s) =
      (.singlelineComment, (s.takeWhile fun c => ¬ currIsNewline c).length + 1) := by
  simp [nextToken, rules, Rule.evaluate, h]
  omega

theorem nextToken_longComment (s : Text) :
    nextToken '-' ('-' :: '[' :: '[' :: s) = (.multilineComment, toStop [']', ']'] s + 3) := by
  simp [nextToken, rules, Rule.evaluate]
  omega

theorem nextToken_longString (s : Text) :
    nextToken '[' ('[' :: s) = (.multilineString, toStop [']', ']'] s + 1) := by
  simp [nextToken, rules, Rule.evaluate]
  omega

theorem nextToken_quote {del : Char} (hdel : del = '"' ∨ del = '\'') {s : Text} {n : ℕ}
    (h : toStopInLine [del] '\\' s = some n) : nextToken del s = (.string, n) := by
  rcases hdel with rfl | rfl <;> simp [nextToken, rules, Rule.evaluate, h]

theorem partitioned_cons (c : Char) (s : Text) :
    partitioned (c :: s) =
      List.replicate ((s.take (nextToken c s).2).length + 1) (nextToken c s).1.part ++
        partitioned (s.drop (nextToken c s).2) := by
  rw [partitioned, cutUp_cons, spread, List.length_cons]
  rfl

/-- The partition that a rule makes of a whole text in front of others. -/
theorem partitioned_append {c : Char} {p r : Text} {t : ContentType}
    (h : nextToken c (p ++ r) = (t, p.length)) :
    partitioned (c :: (p ++ r)) =
      List.replicate (p.length + 1) t.part ++ partitioned r := by
  calc
    partitioned (c :: (p ++ r)) =
        List.replicate (((p ++ r).take p.length).length + 1) t.part ++
          partitioned ((p ++ r).drop p.length) := by rw [partitioned_cons, h]
    _ = List.replicate (p.length + 1) t.part ++ partitioned r := by
      rw [List.take_left, List.drop_left]

theorem partitioned_default {c : Char} {s : Text} (h : nextToken c s = (.default, 0)) :
    partitioned (c :: s) = .code :: partitioned s := by
  rw [partitioned_cons, h]
  rfl

theorem partitioned_plain {p : Text} (hp : ∀ c ∈ p, Plain c) (s : Text) :
    partitioned (p ++ s) = List.replicate p.length .code ++ partitioned s := by
  induction p with
  | nil => rfl
  | cons c p ih =>
    obtain ⟨hc, hp⟩ := List.forall_mem_cons.mp hp
    rw [List.cons_append, partitioned_default (nextToken_plain hc _), ih hp, List.length_cons,
      List.replicate_succ, List.cons_append]

theorem partitioned_newline {c : Char} (hc : currIsNewline c) (s : Text) :
    partitioned (c :: s) = .code :: partitioned s :=
  partitioned_default (nextToken_plain (plain_of_newline hc) s)

end Partitions

section LongBrackets

theorem toStop_of_not_bracket {p : Text} (hp : ∀ c ∈ p, c ≠ ']') (s : Text) :
    toStop [']', ']'] (p ++ s) = toStop [']', ']'] s + p.length := by
  induction p with
  | nil => rfl
  | cons c p ih =>
    obtain ⟨hc, hp⟩ := List.forall_mem_cons.mp hp
    rw [List.cons_append, toStop, if_neg (by simp [Ne.symm hc]), ih hp, List.length_cons]
    rfl

/-- A turn in a bracket of level 0 that goes on has not passed over two brackets. -/
theorem toStop_of_more {c : Char} {s : Text} {n : ℕ} (h : longStringTurn 0 c s = .more n) :
    toStop [']', ']'] (c :: s) = toStop [']', ']'] (s.drop n) + (s.take n).length + 1 := by
  have hskip (hs : ∀ d ∈ s.take n, d ≠ ']') :
      toStop [']', ']'] s = toStop [']', ']'] (s.drop n) + (s.take n).length := by
    rw [← toStop_of_not_bracket hs, List.take_append_drop]
  have hequal (hn : n = equalSigns s) : ∀ d ∈ s.take n, d ≠ ']' := by
    intro d hd
    rw [hn, take_equalSigns] at hd
    rw [List.eq_of_mem_replicate hd]
    decide
  unfold longStringTurn at h
  split_ifs at h with hopen hsecond hzero hclose hsep hnewline
  · exact absurd rfl hzero
  · -- an opening bracket, and not a second one behind it
    cases h
    rw [hopen, toStop, if_neg (by simp), hskip (hequal rfl)]
  · -- a closing bracket, and not a second one behind it
    cases h
    have hhead : ¬ [']', ']'].isPrefixOf (c :: s) := by
      rw [List.isPrefixOf_iff_prefix]
      rintro ⟨t, ht⟩
      apply hsep
      rw [List.cons_append, List.cons_append, List.nil_append, List.cons.injEq] at ht
      rw [← ht.2]
      simp [skipSep, equalSigns]
    rw [toStop, if_neg hhead, hskip (hequal rfl)]
  · cases h
    have hline : ∀ d ∈ s.take (inclinenumber c s), d ≠ ']' := by
      intro d hd heq
      have hnewline := newline_of_mem_inclinenumber hd
      rw [heq] at hnewline
      exact absurd hnewline (by decide)
    rw [toStop, if_neg (by simp [Ne.symm hclose]), hskip hline]
  · cases h
    rw [toStop, if_neg (by simp [Ne.symm hclose])]
    rfl

/-- Lua and the editor find the same end of a long bracket of level 0. -/
theorem toStop_of_scan {s body r : Text} (h : scan (longStringTurn 0) s = some (body, r)) :
    toStop [']', ']'] (body ++ r) = body.length := by
  refine (scan_induction (P := fun body r => toStop [']', ']'] (body ++ r) = body.length)
    ?done ?more h).1
  case done =>
    intro c s n hturn
    unfold longStringTurn at hturn
    split_ifs at hturn with hopen hsecond hzero hclose hsep
    cases hturn
    have hsigns : equalSigns s = 0 := by
      have heq := (skipSep_nonneg (le_of_eq hsep.symm)).2
      omega
    have hs := eq_of_skipSep (le_of_eq hsep.symm)
    rw [hsigns] at hs ⊢
    rw [List.cons_append, List.take_append_drop, hs, hclose]
    simp [toStop]
  case more =>
    intro c s n body r hturn _ hdrop ih
    have happ : c :: (s.take n ++ body) ++ r = c :: s := by
      rw [List.cons_append, List.append_assoc, ← hdrop, List.take_append_drop]
    rw [happ, toStop_of_more hturn, hdrop, ih, List.length_cons, List.length_append,
      Nat.add_comm body.length]

end LongBrackets

section Quotes

theorem hasLineEndPair_cons {c : Char} (hc : ¬ currIsNewline c) (s : Text) :
    HasLineEndPair (c :: s) ↔ HasLineEndPair s := by
  obtain ⟨hn, hr⟩ := not_or.mp hc
  simp [HasLineEndPair, List.infix_cons_iff, Ne.symm hn, Ne.symm hr]

/-- The editor finds the quote at the end of what Lua has read, or a line end in it: which one,
depends on whether it has a line end of two characters. -/
def StopsInLine (del : Char) (body r : Text) : Prop :=
  ∃ n, toStopInLine [del] '\\' (body ++ r) = some n ∧
    (¬ HasLineEndPair body ∧ n = body.length ∨
      HasLineEndPair body ∧ ∃ c, body[n]? = some c ∧ currIsNewline c)

theorem StopsInLine.cons {del c : Char} {body r : Text} (h : StopsInLine del body r)
    (hdel : c ≠ del) (hescape : c ≠ '\\') (hc : ¬ currIsNewline c) :
    StopsInLine del (c :: body) r := by
  obtain ⟨n, hn, hcases⟩ := h
  refine ⟨n + 1, ?_, ?_⟩
  · have hquote : ¬ [del].isPrefixOf (c :: (body ++ r)) := by simp [Ne.symm hdel]
    rw [List.cons_append, toStopInLine.eq_def]
    dsimp only
    rw [if_neg hescape, if_neg hquote, if_neg hc, hn, Option.map_some]
  · rwa [hasLineEndPair_cons hc, List.getElem?_cons_succ, List.length_cons,
      Nat.add_right_cancel_iff]

theorem StopsInLine.escape {del c : Char} {body r : Text} (h : StopsInLine del body r)
    (hc : HasLineEndPair (c :: body) ↔ HasLineEndPair body) :
    StopsInLine del ('\\' :: c :: body) r := by
  obtain ⟨n, hn, hcases⟩ := h
  refine ⟨n + 2, ?_, ?_⟩
  · rw [List.cons_append, List.cons_append, toStopInLine.eq_def]
    dsimp only
    rw [if_pos rfl, hn, Option.map_some]
  · rw [hasLineEndPair_cons (by decide), hc]
    simpa using hcases

theorem stopsInLine_of_pair {del c d : Char} (hdel : del = '"' ∨ del = '\'') (hc : currIsNewline c)
    (hd : currIsNewline d) (hne : d ≠ c) (body r : Text) :
    StopsInLine del ('\\' :: c :: d :: body) r := by
  have hescape : d ≠ '\\' := by rcases hd with rfl | rfl <;> decide
  have hquote : ¬ [del].isPrefixOf (d :: (body ++ r)) := by
    rcases hd with rfl | rfl <;> rcases hdel with rfl | rfl <;> simp
  refine ⟨2, ?_, .inr ⟨?_, d, rfl, hd⟩⟩
  · -- the escape protects the first of the two
    have hstop : toStopInLine [del] '\\' (d :: (body ++ r)) = some 0 := by
      rw [toStopInLine.eq_def]
      dsimp only
      rw [if_neg hescape, if_neg hquote, if_pos hd]
    rw [List.cons_append, List.cons_append, List.cons_append, toStopInLine.eq_def]
    dsimp only
    rw [if_pos rfl, hstop, Option.map_some]
  · rcases hc with rfl | rfl
    · exact .inr ⟨['\\'], body, by rw [hd.resolve_left hne]; rfl⟩
    · exact .inl ⟨['\\'], body, by rw [hd.resolve_right hne]; rfl⟩

theorem StopsInLine.digits {del : Char} {p body r : Text} (h : StopsInLine del body r)
    (hdel : del = '"' ∨ del = '\'') (hp : ∀ c ∈ p, c.isDigit) : StopsInLine del (p ++ body) r := by
  induction p with
  | nil => exact h
  | cons c p ih =>
    obtain ⟨hc, hp⟩ := List.forall_mem_cons.mp hp
    refine (ih hp).cons ?_ ?_ ?_
    · rintro rfl
      rcases hdel with rfl | rfl <;> cases hc
    · rintro rfl
      cases hc
    · rintro (rfl | rfl) <;> cases hc

/-- An escaped line end: the second character of a pair is not protected. -/
theorem StopsInLine.lineEnd {del d : Char} {t body r : Text} (h : StopsInLine del body r)
    (hdel : del = '"' ∨ del = '\'') (hd : currIsNewline d) (hne : body ≠ [])
    (hdrop : t.drop (inclinenumber d t) = body ++ r) :
    StopsInLine del ('\\' :: d :: (t.take (inclinenumber d t) ++ body)) r := by
  obtain ⟨e, b, rfl⟩ := List.exists_cons_of_ne_nil hne
  cases t with
  | nil => cases hdrop
  | cons e' t =>
    by_cases hpair : currIsNewline e' ∧ e' ≠ d
    · have htwo : inclinenumber d (e' :: t) = 1 := if_pos hpair
      rw [htwo]
      exact stopsInLine_of_pair hdel hd hpair.1 hpair.2 _ _
    · have hone : inclinenumber d (e' :: t) = 0 := if_neg hpair
      rw [hone, List.drop_zero, List.cons_append, List.cons.injEq] at hdrop
      rw [hone, List.take_zero, List.nil_append]
      apply h.escape
      -- the line end and the next character are no pair
      rw [← hdrop.1]
      rcases hd with rfl | rfl
      · have hr : e' ≠ '\r' := fun heq => hpair ⟨.inr heq, heq ▸ by decide⟩
        simp [HasLineEndPair, List.infix_cons_iff, Ne.symm hr]
      · have hn : e' ≠ '\n' := fun heq => hpair ⟨.inl heq, heq ▸ by decide⟩
        simp [HasLineEndPair, List.infix_cons_iff, Ne.symm hn]

theorem stopsInLine_of_scan {del : Char} (hdel : del = '"' ∨ del = '\'') {s body r : Text}
    (h : scan (stringTurn del) s = some (body, r)) : StopsInLine del body r := by
  refine (scan_induction (P := StopsInLine del) ?done ?more h).1
  case done =>
    intro c s n hturn
    obtain ⟨rfl, rfl⟩ := stringTurn_eq_done hturn
    refine ⟨1, ?_, .inl ⟨?_, rfl⟩⟩
    · have hescape : c ≠ '\\' := by rcases hdel with rfl | rfl <;> decide
      rw [List.take_zero, List.drop_zero, List.cons_append, List.nil_append, toStopInLine.eq_def]
      dsimp only
      rw [if_neg hescape, if_pos (by simp)]
      rfl
    · have hline : ¬ currIsNewline c := by rcases hdel with rfl | rfl <;> decide
      rw [List.take_zero, hasLineEndPair_cons hline]
      simp [HasLineEndPair]
  case more =>
    intro c s n body r hturn hne hdrop ih
    -- an escape at the end of the text does not come to a quote
    have hs : s ≠ [] := by
      rintro rfl
      rw [List.drop_nil] at hdrop
      exact hne (List.append_eq_nil_iff.mp hdrop.symm).1
    rcases stringTurn_eq_more hs hturn with ⟨hquote, hnewline, hescape, rfl⟩ | ⟨d, t, rfl, rfl, hd⟩
    · exact ih.cons hquote hescape hnewline
    · rcases hd with ⟨hline, rfl⟩ | ⟨hline, k, rfl, hdigits⟩
      · rw [List.take_succ_cons, List.cons_append]
        rw [List.drop_succ_cons] at hdrop
        exact ih.lineEnd hdel hline hne hdrop
      · rw [List.take_succ_cons, List.cons_append]
        exact (ih.digits hdel hdigits).escape (hasLineEndPair_cons hline _)

end Quotes

section Comparison

/-- A text that the editor takes for the rest of a one-line comment, and what follows it. -/
def lineComment (s : Text) : List Part :=
  List.replicate (s.takeWhile fun c => ¬ currIsNewline c).length .comment ++
    partitioned (s.dropWhile fun c => ¬ currIsNewline c)

theorem lineComment_of_newline {s : Text} (h : ∀ c ∈ s.head?, currIsNewline c) :
    lineComment s = partitioned s := by
  cases s with
  | nil => rfl
  | cons c s => simp [lineComment, h c rfl]

theorem lineComment_cons {c : Char} (hc : ¬ currIsNewline c) (s : Text) :
    lineComment (c :: s) = .comment :: lineComment s := by
  simp [lineComment, hc, List.replicate_succ]

/-- A comment that has a line end ends too early in the editor. -/
theorem lineComment_append_iff (p r : Text) (x : List Part) :
    lineComment (p ++ r) = List.replicate p.length .comment ++ x ↔
      OnOneLine p ∧ lineComment r = x := by
  induction p with
  | nil => simp [OnOneLine]
  | cons c p ih =>
    rw [List.length_cons, List.replicate_succ, List.cons_append, List.cons_append]
    by_cases hc : currIsNewline c
    · -- a line end is code in the editor
      rw [lineComment_of_newline (by simpa using hc), partitioned_newline hc]
      simp [OnOneLine, hc]
    · rw [lineComment_cons hc, List.cons.injEq, ih]
      simp [OnOneLine, hc]

theorem partitioned_eq_lineComment {s : Text} (h : ¬ ['[', '['] <+: s) :
    partitioned ('-' :: '-' :: s) = lineComment ('-' :: '-' :: s) := by
  have hdash : ¬ currIsNewline '-' := by decide
  rw [partitioned_cons, nextToken_shortComment h, lineComment_cons hdash, lineComment_cons hdash,
    List.take_succ_cons, List.drop_succ_cons, take_length_takeWhile, drop_length_takeWhile]
  rfl

theorem partitioned_dashes (s : Text) :
    ∃ x, partitioned ('-' :: '-' :: s) = .comment :: x := by
  by_cases h : ['[', '['] <+: s
  · obtain ⟨t, rfl⟩ := h
    exact ⟨_, by
      rw [List.cons_append, List.cons_append, List.nil_append, partitioned_cons,
        nextToken_longComment]
      rfl⟩
  · exact ⟨_, (partitioned_eq_lineComment h).trans (lineComment_cons (by decide) _)⟩

theorem partitioned_token_iff {p : Text} (hp : DashOnce p) (r : Text) (x : List Part) :
    partitioned (p ++ r) = List.replicate p.length .code ++ x ↔
      (p.getLast? = some '-' → r.head? ≠ some '-') ∧ partitioned r = x := by
  have hplain (b : Text) (hb : ∀ c ∈ b, Plain c) : b.getLast? ≠ some '-' :=
    fun h => (hb _ (List.mem_of_getLast? h)).1 rfl
  rcases hp with hp | ⟨a, b, ha, hb, rfl⟩
  · rw [partitioned_plain hp, List.append_cancel_left_eq]
    simp [hplain p hp]
  · rw [List.append_assoc, partitioned_plain ha, List.length_append, List.replicate_add,
      List.append_assoc, List.append_cancel_left_eq, List.cons_append, List.length_cons,
      List.replicate_succ, List.cons_append]
    cases b with
    | nil =>
      by_cases hr : r.head? = some '-'
      · -- the dash that ends the lexeme starts a comment in the editor
        obtain ⟨t, rfl⟩ := List.head?_eq_some_iff.mp hr
        obtain ⟨y, hy⟩ := partitioned_dashes t
        rw [List.nil_append, hy]
        simp
      · rw [List.nil_append, partitioned_default (nextToken_dash hr)]
        simp [hr]
    | cons d b =>
      have hd : d ≠ '-' := (hb d List.mem_cons_self).1
      have hlast : (a ++ '-' :: d :: b).getLast? ≠ some '-' := by
        rw [List.getLast?_append_cons, List.getLast?_cons_cons]
        exact hplain _ hb
      rw [partitioned_default (nextToken_dash (by simpa using hd)), partitioned_plain hb,
        List.cons.injEq, List.append_cancel_left_eq]
      exact ⟨fun h => ⟨fun hdash => absurd hdash hlast, h.2⟩, fun h => ⟨rfl, h.2⟩⟩

theorem partitioned_shortComment {p r : Text} (hp : ∀ c ∈ p, ¬ currIsNewline c)
    (hr : ∀ c ∈ r.head?, currIsNewline c) (hlong : ¬ ['[', '['] <+: p ++ r) (x : List Part) :
    partitioned ('-' :: '-' :: p ++ r) = List.replicate ('-' :: '-' :: p).length .comment ++ x ↔
      partitioned r = x := by
  have hline : OnOneLine ('-' :: '-' :: p) :=
    List.forall_mem_cons.mpr ⟨by decide, List.forall_mem_cons.mpr ⟨by decide, hp⟩⟩
  calc
    partitioned ('-' :: '-' :: p ++ r) = List.replicate ('-' :: '-' :: p).length .comment ++ x ↔
        lineComment ('-' :: '-' :: p ++ r) =
          List.replicate ('-' :: '-' :: p).length .comment ++ x := by
      rw [List.cons_append, List.cons_append, partitioned_eq_lineComment hlong]
    _ ↔ OnOneLine ('-' :: '-' :: p) ∧ lineComment r = x := lineComment_append_iff _ _ _
    _ ↔ partitioned r = x := by rw [and_iff_right hline, lineComment_of_newline hr]

theorem partitioned_longComment {sep : ℕ} {body r : Text}
    (h : scan (longStringTurn sep) (body ++ r) = some (body, r)) {p : Text}
    (hp : p = '-' :: '-' :: '[' :: (List.replicate sep '=' ++ '[' :: body)) (x : List Part) :
    partitioned (p ++ r) = List.replicate p.length .comment ++ x ↔
      sep = 0 ∧ partitioned r = x ∨ sep ≠ 0 ∧ OnOneLine p ∧ lineComment r = x := by
  cases sep with
  | zero =>
    have hnext : nextToken '-' (('-' :: '[' :: '[' :: body) ++ r) =
        (.multilineComment, ('-' :: '[' :: '[' :: body).length) := by
      rw [List.cons_append, List.cons_append, List.cons_append, nextToken_longComment,
        toStop_of_scan h]
      rfl
    rw [hp]
    change partitioned ('-' :: (('-' :: '[' :: '[' :: body) ++ r)) = _ ↔ _
    rw [partitioned_append hnext, List.replicate_zero, List.nil_append, List.length_cons]
    simp [ContentType.part]
  | succ sep =>
    -- the editor does not know the levels
    have hshort : ¬ ['[', '['] <+: '[' :: (List.replicate (sep + 1) '=' ++ '[' :: body) ++ r := by
      simp [List.replicate_succ]
    have hline : partitioned (p ++ r) = lineComment (p ++ r) := by
      rw [hp]
      exact partitioned_eq_lineComment hshort
    rw [hline, lineComment_append_iff]
    simp

theorem partitioned_longString {sep : ℕ} {body r : Text}
    (h : scan (longStringTurn sep) (body ++ r) = some (body, r)) {p : Text}
    (hp : p = '[' :: (List.replicate sep '=' ++ '[' :: body)) (x : List Part) :
    partitioned (p ++ r) = List.replicate p.length .string ++ x ↔
      sep = 0 ∧ partitioned r = x := by
  cases sep with
  | zero =>
    have hnext : nextToken '[' (('[' :: body) ++ r) =
        (.multilineString, ('[' :: body).length) := by
      rw [List.cons_append, nextToken_longString, toStop_of_scan h]
      rfl
    rw [hp]
    change partitioned ('[' :: (('[' :: body) ++ r)) = _ ↔ _
    rw [partitioned_append hnext, List.replicate_zero, List.nil_append, List.length_cons]
    simp [ContentType.part]
  | succ sep =>
    -- the first bracket is code in the editor
    have hhead : (List.replicate (sep + 1) '=' ++ '[' :: body ++ r).head? ≠ some '[' := by
      simp [List.replicate_succ]
    rw [hp, List.cons_append, partitioned_default (nextToken_bracket hhead), List.length_cons]
    refine iff_of_false (fun heq => ?_) (fun h => absurd h.1 (Nat.succ_ne_zero _))
    cases (List.cons.inj heq).1

theorem partitioned_shortString {del : Char} (hdel : del = '"' ∨ del = '\'') {body r : Text}
    (h : scan (stringTurn del) (body ++ r) = some (body, r)) (x : List Part) :
    partitioned (del :: body ++ r) = List.replicate (del :: body).length .string ++ x ↔
      ¬ HasLineEndPair (del :: body) ∧ partitioned r = x := by
  have hline : ¬ currIsNewline del := by rcases hdel with rfl | rfl <;> decide
  rw [hasLineEndPair_cons hline, List.cons_append]
  obtain ⟨n, hstop, ⟨hpair, rfl⟩ | ⟨hpair, c, hc, hnewline⟩⟩ := stopsInLine_of_scan hdel h
  · rw [partitioned_append (nextToken_quote hdel hstop), and_iff_right hpair]
    simp [ContentType.part]
  · -- the partition ends in front of a line end that Lua reads as a part of the string
    obtain ⟨hlt, hget⟩ := List.getElem?_eq_some_iff.mp hc
    obtain ⟨k, hk⟩ := Nat.exists_eq_add_of_lt hlt
    have hdrop : (body ++ r).drop n = c :: (body.drop (n + 1) ++ r) := by
      rw [List.drop_append_of_le_length hlt.le, List.drop_eq_getElem_cons hlt, hget,
        List.cons_append]
    have htake : ((body ++ r).take n).length = n := by
      rw [List.length_take, List.length_append]
      omega
    have hlength : (del :: body).length = n + 1 + (k + 1) := by
      rw [List.length_cons]
      omega
    rw [partitioned_cons, nextToken_quote hdel hstop, htake, hdrop, partitioned_newline hnewline,
      hlength, List.replicate_add (n + 1), List.append_assoc]
    refine iff_of_false (fun heq => ?_) (fun h => h.1 hpair)
    have htail := List.append_cancel_left heq
    rw [List.replicate_succ, List.cons_append] at htail
    cases (List.cons.inj htail).1

theorem head?_lexemes (str2d : Text → Bool) (s : Text) (c : Char) :
    (∀ l ∈ (lexemes str2d s).head?, l.2.head? ≠ some c) ↔ s.head? ≠ some c := by
  cases s with
  | nil => simp [lexemes]
  | cons d s => simp [lexemes, cutUp_cons]

/-- Whether the editor takes the first lexeme and all others for what they are. -/
theorem partitioned_iff_of_reads (str2d : Text → Bool) {lexeme : Lexeme} {p r : Text}
    (h : Reads lexeme p r) (ih : partitioned r = lexed str2d r ↔ Agreeable (lexemes str2d r))
    (ihline : lineComment r = lexed str2d r ↔
      FillsLine (lexemes str2d r) ∧ Agreeable (lexemes str2d r)) :
    partitioned (p ++ r) = List.replicate p.length (lexemePart lexeme) ++ lexed str2d r ↔
      LexemeAgrees p (lexemes str2d r) lexeme ∧ Agreeable (lexemes str2d r) := by
  cases h with
  | token p r hp =>
    rw [← ih, LexemeAgrees, head?_lexemes]
    exact partitioned_token_iff hp r _
  | bracket r hr =>
    rw [← ih, LexemeAgrees, List.singleton_append, partitioned_default (nextToken_bracket hr)]
    simp [lexemePart]
  | shortComment p r hp hr hlong =>
    rw [← ih, LexemeAgrees, true_and]
    exact partitioned_shortComment hp hr hlong _
  | longComment sep body r h =>
    have hiff := partitioned_longComment h rfl (lexed str2d r)
    rw [lexemePart, hiff, ih, ihline, LexemeAgrees]
    by_cases hsep : sep = 0 <;> simp [hsep, and_assoc]
  | shortString del body r hdel h =>
    rw [← ih]
    exact partitioned_shortString hdel h _
  | longString sep body r h =>
    rw [← ih]
    exact partitioned_longString h rfl _

/-- The two readings of a chunk agree, also if the editor is still in a comment of the line in
front of it. -/
theorem partitioned_iff (str2d : Text → Bool) (chunk : Text) (h : Accepts str2d chunk) :
    (partitioned chunk = lexed str2d chunk ↔ Agreeable (lexemes str2d chunk)) ∧
      (lineComment chunk = lexed str2d chunk ↔
        FillsLine (lexemes str2d chunk) ∧ Agreeable (lexemes str2d chunk)) := by
  -- both parts at once: a long comment that the editor ends too late needs the second for its rest
  induction hn : chunk.length using Nat.strong_induction_on generalizing chunk with
  | _ n ih =>
    by_cases hchunk : chunk = []
    · subst hchunk
      exact ⟨iff_of_true rfl trivial, iff_of_true rfl ⟨trivial, trivial⟩⟩
    · obtain ⟨lexeme, p, r, hreads, hp, rfl, hlexemes, hr⟩ := exists_reads hchunk h
      have hlt : r.length < n := by
        have hpos := List.length_pos_of_ne_nil hp
        rw [List.length_append] at hn
        omega
      obtain ⟨ihr, ihline⟩ := ih _ hlt r hr rfl
      have hlexed : lexed str2d (p ++ r) =
          List.replicate p.length (lexemePart lexeme) ++ lexed str2d r := by
        rw [lexed, hlexemes]
        rfl
      have hfirst := partitioned_iff_of_reads str2d hreads ihr ihline
      rw [hlexed, hlexemes]
      refine ⟨hfirst, ?_⟩
      obtain ⟨c, p, rfl⟩ := List.exists_cons_of_ne_nil hp
      by_cases hc : currIsNewline c
      · -- the line ends here, and the comment of the editor with it
        rw [List.cons_append, lineComment_of_newline (by simpa using hc), ← List.cons_append,
          hfirst]
        simp [FillsLine, Agreeable, hc]
      · by_cases hpart : lexemePart lexeme = .comment
        · have hagrees (hline : OnOneLine (c :: p)) (hfills : FillsLine (lexemes str2d r)) :
              LexemeAgrees (c :: p) (lexemes str2d r) lexeme := by
            cases lexeme with
            | shortComment => trivial
            | longComment sep => exact .inr ⟨hline, hfills⟩
            | _ => cases hpart
          have hnewline : ¬ ∃ d ∈ (c :: p).head?, currIsNewline d := by simpa using hc
          rw [hpart, lineComment_append_iff, ihline, FillsLine, or_iff_right hnewline, Agreeable]
          constructor
          · intro ⟨hline, hfills, hrest⟩
            exact ⟨⟨hpart, hline, hfills⟩, hagrees hline hfills, hrest⟩
          · intro ⟨⟨_, hline, hfills⟩, _, hrest⟩
            exact ⟨hline, hfills, hrest⟩
        · -- the first character is a comment for the editor only
          rw [List.cons_append, lineComment_cons hc, List.length_cons, List.replicate_succ,
            List.cons_append, List.cons.injEq]
          simp [FillsLine, hc, hpart, Ne.symm hpart]

end Comparison

section SamePartitions

theorem eq_iff_of_length {l l' : List Part} (h : l.length = l'.length) :
    l = l' ↔ (∀ i : ℕ, l[i]? = some .comment ↔ l'[i]? = some .comment) ∧
      ∀ i : ℕ, l[i]? = some .string ↔ l'[i]? = some .string := by
  constructor
  · intro heq
    rw [heq]
    exact ⟨fun _ => Iff.rfl, fun _ => Iff.rfl⟩
  · intro ⟨hcomments, hstrings⟩
    apply List.ext_getElem h
    intro i hi hi'
    have hcomment := hcomments i
    have hstring := hstrings i
    rw [List.getElem?_eq_getElem hi, List.getElem?_eq_getElem hi', Option.some.injEq,
      Option.some.injEq] at hcomment hstring
    cases ha : l[i] <;> cases hb : l'[i] <;> simp_all

/-- Exactly if Lua reads no long string of a level above 0; every comment of a level above 0 is on
one line and only comments follow it there; no quoted string has a line end of two characters in
it; and no numeral that ends in a dash is followed by one. -/
theorem samePartitions_iff (str2d : Text → Bool) (text : Text) (h : Accepts str2d text) :
    SamePartitions str2d text ↔ Agreeable (lexemes str2d text) := by
  have hlength : (partitioned text).length = (lexed str2d text).length := by
    rw [partitioned, lexed, length_spread_cutUp, lexemes, length_spread_cutUp]
  calc
    SamePartitions str2d text ↔ partitioned text = lexed str2d text := by
      rw [eq_iff_of_length hlength]
      exact ⟨fun h => ⟨h.comments, h.strings⟩, fun h => ⟨h.1, h.2⟩⟩
    _ ↔ Agreeable (lexemes str2d text) := (partitioned_iff str2d text h).1

/-- The converter of decimal integers. -/
def decimal (s : Text) : Bool := s.all Char.isDigit

theorem samePartitions_of_agreeable :
    SamePartitions decimal (txt "--[[a\n]] x = \"--\\\"\" -- [[\ny = [[\n'--]]") :=
  (samePartitions_iff decimal _ (by decide +kernel)).mpr (by decide +kernel)

/-- The editor does not find the string that starts with `[=[`. -/
theorem long_string_missed :
    Accepts decimal (txt "x = [=[ a ]=]") ∧ ¬ SamePartitions decimal (txt "x = [=[ a ]=]") := by
  refine ⟨by decide +kernel, fun h => ?_⟩
  have hlua : (lexed decimal (txt "x = [=[ a ]=]"))[4]? = some .string := by decide +kernel
  have heditor : (partitioned (txt "x = [=[ a ]=]"))[4]? = some .code := by decide +kernel
  have hstring := (h.strings 4).mpr hlua
  rw [heditor] at hstring
  cases hstring

end SamePartitions

end LuaIde.PartitionScanner
