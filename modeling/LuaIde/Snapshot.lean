import LuaIde.StackQueries

/-! Which runs show data of one stop: what every step keeps of the lines on their way, of the
queries under way, and of the table of variables. -/
namespace LuaIde

open LineText DecimalText Delimited Runs

/-- The first word of a request. -/
def Request.word : Request → Text
  | .resume => txt "resume"
  | .suspend => txt "suspend"
  | .step => txt "step"
  | .exit => txt "exit"
  | .setBreak _ => txt "break"
  | .clear _ => txt "clear"
  | .data => txt "data"
  | .getglobals => txt "getglobals"
  | .stackforide => txt "stackforide"
  | .var _ _ => txt "var"
  | .setvar _ _ _ => txt "setvar"
  | .popdata => txt "popdata"
  | .pushdata _ => txt "pushdata"
  | .drop => txt "drop"
  | .watch _ _ => txt "watch"

theorem Request.line_cases (q : Request) :
    q.line = q.word ++ ['\n'] ∨ ∃ s, q.line = q.word ++ txt " " ++ s := by
  cases q with
  | setBreak n => exact .inr ⟨ofInt n.val ++ ['\n'], rfl⟩
  | clear n => exact .inr ⟨ofInt n.val ++ ['\n'], rfl⟩
  | var frame name => exact .inr ⟨ofInt frame.val ++ (txt " " ++ name) ++ ['\n'], rfl⟩
  | setvar frame name value =>
    exact .inr ⟨ofInt frame.val ++ (txt " " ++ (name ++ (txt " " ++ value))) ++ ['\n'], rfl⟩
  | pushdata value => exact .inr ⟨value ++ ['\n'], rfl⟩
  | watch f v => exact .inr ⟨f ++ (txt "::" ++ (v ++ txt " 0")) ++ ['\n'], rfl⟩
  | _ => exact .inl rfl

/-- Whatever names and values a request carries, ldb sees its first word. -/
theorem Request.words (q : Request) : ∃ args, wordsWithin 159 q.line = q.word :: args := by
  have hplain : ∀ c ∈ q.word, plain c := by
    cases q <;> exact plain_of_all rfl
  have hne : q.word ≠ [] := by
    cases q <;> exact List.cons_ne_nil _ _
  have hlen : q.word.length ≤ 100 := by
    cases q <;> exact of_decide_eq_true rfl
  rcases q.line_cases with hline | ⟨s, hline⟩
  · rw [hline, words_one q.word hplain hne (by omega)]
    exact ⟨[], rfl⟩
  · rw [hline]
    exact words_rest q.word s hplain hne hlen

/-- So only step and resume select a mode. -/
theorem selectedMode_request {q : Request}
    (h : ((commandOf (cstr q.line)).bind selectedMode).isSome = true) :
    q = .step ∨ q = .resume := by
  obtain ⟨args, hargs⟩ := q.words
  rw [commandOf, commandWords_cstr, hargs, List.head?_cons, Option.map_some,
    Option.bind_some] at h
  cases q with
  | step => exact .inl rfl
  | resume => exact .inr rfl
  | _ => exact (Bool.false_ne_true h).elim

/-- What the receipt of a request does: nothing is performed, or its command is performed, and
ldb goes on if it selects a mode. -/
theorem receive_request (L : LuaState) (q : Request) (w : World) :
    (receive .ide L none (.data q.line) w).toSession = w.toSession ∨
      ∃ r, handle .ide L w.state (cstr q.line) = .ok r ∧
        (receive .ide L none (.data q.line) w).toSession =
          w.toSession.perform L.source (cstr q.line) r ∧
        ((receive .ide L none (.data q.line) w).status.isWaiting = false ↔
          ((commandOf (cstr q.line)).bind selectedMode).isSome = true) := by
  rcases hi : intake none (cstr q.line) with pending | ⟨data, gaveUp⟩
  · simp only [receive, hi]
    exact .inl trivial
  · obtain ⟨rfl, rfl⟩ : data = cstr q.line ∧ gaveUp = false := by
      unfold intake at hi
      simp only at hi
      split_ifs at hi
      cases hi
      exact ⟨rfl, rfl⟩
    simp only [receive, hi]
    rcases react_cases .ide L w (cstr q.line) false with ⟨why, -, he⟩ | ⟨r, hr, he⟩
    · rw [he]
      exact .inl rfl
    · refine .inr ⟨r, hr, by rw [he], ?_⟩
      rw [he, ← (handle_effects .ide L w.state _ r hr).2.2]
      cases r.leave <;> simp [Status.isWaiting]

section Ends

variable {history : List Happening} {k n : ℕ}

theorem stopEnded_append (x : Happening) : StopEnded (history ++ [x]) k n ↔
    StopEnded history k n ∨ ∃ source data, x = .handled source data ∧
      (commandOf data = some .step ∨ commandOf data = some .resume) ∧
        entries history = k ∧ n = 1 + (history.flatMap eventLines).length := by
  constructor
  · rintro ⟨i, source, data, hi, hc, hk, hn⟩
    rcases Nat.lt_trichotomy i history.length with hlt | rfl | hlt
    · rw [List.getElem?_append_left hlt] at hi
      rw [List.take_append_of_le_length hlt.le] at hk hn
      exact .inl ⟨i, source, data, hi, hc, hk, hn⟩
    · rw [List.getElem?_concat_length] at hi
      rw [List.take_left] at hk hn
      exact .inr ⟨source, data, Option.some.inj hi, hc, hk, hn⟩
    · have hnone : (history ++ [x])[i]? = none := by
        rw [List.getElem?_eq_none_iff, List.length_append, List.length_singleton]
        omega
      rw [hnone] at hi
      cases hi
  · rintro (⟨i, source, data, hi, hc, hk, hn⟩ | ⟨source, data, rfl, hc, hk, hn⟩)
    · have hlt : i < history.length := (List.getElem?_eq_some_iff.mp hi).1
      refine ⟨i, source, data, ?_, hc, ?_, ?_⟩
      · rw [List.getElem?_append_left hlt, hi]
      · rw [List.take_append_of_le_length hlt.le, hk]
      · rw [List.take_append_of_le_length hlt.le, hn]
    · refine ⟨history.length, source, data, List.getElem?_concat_length, hc, ?_, ?_⟩
      · rw [List.take_left, hk]
      · rw [List.take_left, hn]

/-- A happening that is no step and no resume ends no stop. -/
theorem stopEnded_append_other {x : Happening} (hx : ∀ source data, x = .handled source data →
    ((commandOf data).bind selectedMode).isSome = false) :
    StopEnded (history ++ [x]) k n ↔ StopEnded history k n := by
  rw [stopEnded_append]
  apply or_iff_left
  rintro ⟨source, data, hxe, hc, -, -⟩
  have hnone := hx source data hxe
  rcases hc with hc | hc <;> rw [hc] at hnone <;> cases hnone

theorem StopEnded.le_entries (h : StopEnded history k n) : k ≤ entries history := by
  obtain ⟨i, source, data, -, -, rfl, -⟩ := h
  exact List.Sublist.countP_le (List.take_sublist i history)

/-- The line that reports the end of a stop clears the table. -/
theorem StopEnded.line (h : StopEnded history k n) :
    ∃ event, (txt "started" :: history.flatMap eventLines)[n]? = some event ∧
      PDAThread.clears event = true := by
  obtain ⟨i, source, data, hi, hc, -, rfl⟩ := h
  obtain ⟨hlt, hget⟩ := List.getElem?_eq_some_iff.mp hi
  have hlines : ∃ event rest, eventLines (.handled source data) = event :: rest ∧
      PDAThread.clears event = true := by
    rcases hc with hc | hc
    · exact ⟨txt "resumed step", [txt "resumed step", txt "suspended step"],
        by simp [eventLines, hc, commandEventLines], by decide⟩
    · exact ⟨txt "resumed client", [], by simp [eventLines, hc, commandEventLines], by decide⟩
  obtain ⟨event, rest, hevent, hclears⟩ := hlines
  refine ⟨event, ?_, hclears⟩
  have hsplit : history = history.take i ++ .handled source data :: history.drop (i+1) := by
    rw [← hget, ← List.drop_eq_getElem_cons hlt, List.take_append_drop]
  rw [Nat.add_comm, List.getElem?_cons_succ]
  nth_rewrite 1 [hsplit]
  rw [List.flatMap_append, List.flatMap_cons, hevent,
    List.getElem?_append_right (le_refl _), Nat.sub_self]
  rfl

end Ends

/-- All that a query has read is of the stop of its frame list. -/
def Query.OneStop : Query → Prop
  | .builds listed made _ _ => ∀ f ∈ made, f.listed = listed ∧ f.globals = listed
  | .stores listed made frame _ => ∀ f ∈ frame :: made, f.listed = listed ∧ f.globals = listed
  | _ => True

namespace Workbench

/-- ldb has no part of a request. -/
def Whole (s : Workbench) : Prop :=
  ∀ L pending, s.link.world.status = .waiting L pending → pending = none

/-- Where the request of the thread in `sendRequest` is: on its way, behind ldb without a
line, or behind it with one line, which is of this stop unless ldb went on. -/
def Turn (s : Workbench) (q : Request) : Prop :=
  (s.link.channel = [q] ∧ s.link.readLines = s.origins.length ∧ s.Whole) ∨
    (s.link.channel = [] ∧ (s.link.readLines = s.origins.length ∨
      (s.link.readLines + 1 = s.origins.length ∧ s.Whole ∧ (q ≠ .step → q ≠ .resume →
        s.link.world.status.isWaiting = true ∧ s.origins[s.link.readLines]? = some s.stop))))

/-- A thread is in `sendRequest`, and there is no line for it: the error of Lua that its request
has raised goes on with the program. No request is received any more. -/
def Stuck (s : Workbench) : Prop :=
  s.link.lock ≠ none ∧ s.link.channel = [] ∧ s.link.readLines = s.origins.length

/-- A query that was begun in this stop, which ldb is in still. -/
def Current (s : Workbench) (k : ℕ) : Prop :=
  (k = s.stop ∧ s.link.world.status.isWaiting = true) ∨ s.Stuck

end Workbench

/-- What every step keeps, under the condition. -/
structure SnapshotInvariant (s : Workbench) : Prop where
  inputs : s.link.world.inputs = []
  events : EventsInvariant s.link.world.toSession
  handled : s.handledLines ≤ (lines s.link.world.events).length
  lines : ∃ ls : List Text, (∀ l ∈ ls, OneLine l) ∧
    s.link.world.replies = terminated '\n' ls ∧ s.origins.length = ls.length
  free : s.link.lock = none →
    s.link.channel = [] ∧ s.link.readLines = s.origins.length ∧ s.Whole
  taken : ∀ b q, s.link.lock = some (b, q) → s.Turn q ∧ (s.queries b).sends q = true
  reading : ∀ b k, (s.queries b).reading = some k → s.Current k
  oneStop : ∀ b, (s.queries b).OneStop
  unstored : ∀ b k n, (s.queries b).unstored = some k → StopEnded s.link.world.history k n →
    s.handledLines ≤ n
  ended : s.link.world.status.isWaiting = true → ∀ n, ¬ StopEnded s.link.world.history s.stop n
  consistent : s.Consistent

theorem snapshotInvariant_start (lines : ScriptLines) : SnapshotInvariant (.start lines) := by
  have hnone (k n : ℕ) : ¬ StopEnded [] k n := by
    rintro ⟨i, source, data, hi, -⟩
    cases hi
  refine ⟨rfl, ?_, Nat.zero_le _, ⟨[], by simp, rfl, rfl⟩, ?_, ?_, ?_, fun _ => trivial, ?_, ?_, ?_⟩
  · simp [EventsInvariant, Workbench.start, Link.start, World.start, toIde, terminated]
  · intro _
    refine ⟨rfl, rfl, ?_⟩
    intro L pending h
    cases h
  · intro b q h
    cases h
  · intro b k h
    cases h
  · intro b k n h
    cases h
  · intro _ n
    exact hnone _ n
  · refine ⟨by simp [Workbench.start], ?_⟩
    intro k n h
    exact absurd h (hnone k n)

section Steps

variable {s t : Workbench}

/-- A thread that is not in `sendRequest` gets on in its query. -/
theorem snapshotInvariant_setQuery {b : ℕ} {q : Query} (hs : SnapshotInvariant s)
    (hlock : ∀ r, s.link.lock ≠ some (b, r))
    (hreading : ∀ k, q.reading = some k → s.Current k)
    (hone : q.OneStop)
    (hunstored : ∀ k n, q.unstored = some k → StopEnded s.link.world.history k n →
      s.handledLines ≤ n) : SnapshotInvariant (s.setQuery b q) := by
  -- the other queries are as they were
  have hquery (P : ℕ → Query → Prop) (hq : P b q) (h : ∀ c, P c (s.queries c)) (c : ℕ) :
      P c ((s.setQuery b q).queries c) := by
    by_cases hc : c = b
    · rw [hc, s.setQuery_self]
      exact hq
    · rw [s.setQuery_other q hc]
      exact h c
  refine ⟨hs.inputs, hs.events, hs.handled, hs.lines, hs.free, ?_, ?_, ?_, ?_, hs.ended,
    hs.consistent.results, hs.consistent.cleared⟩
  · intro c r hl
    refine ⟨(hs.taken c r hl).1, ?_⟩
    have hc : c ≠ b := by
      rintro rfl
      exact hlock r hl
    rw [s.setQuery_other q hc]
    exact (hs.taken c r hl).2
  · exact hquery (fun _ q => ∀ k, q.reading = some k → s.Current k) hreading hs.reading
  · exact hquery (fun _ q => q.OneStop) hone hs.oneStop
  · exact hquery (fun _ q => ∀ k n, q.unstored = some k →
      StopEnded s.link.world.history k n → s.handledLines ≤ n) hunstored hs.unstored

/-- A result is added. -/
theorem snapshotInvariant_result {made : List Fetched} (hs : SnapshotInvariant s) {k : ℕ}
    (hmade : ∀ f ∈ made, f.listed = k ∧ f.globals = k) :
    SnapshotInvariant { s with results := s.results ++ [made] } := by
  refine ⟨hs.inputs, hs.events, hs.handled, hs.lines, hs.free, hs.taken, hs.reading, hs.oneStop,
    hs.unstored, hs.ended, ?_, hs.consistent.cleared⟩
  intro frames hframes
  rcases List.mem_append.mp hframes with hold | hnew
  · exact hs.consistent.results frames hold
  · rw [List.mem_singleton.mp hnew]
    exact ⟨k, hmade⟩

/-- The next frame is begun in the stop of the frame list, or none is left. -/
theorem snapshotInvariant_next {b listed : ℕ} {made : List Fetched} {todo : List Text}
    (hs : SnapshotInvariant s) (hlock : ∀ r, s.link.lock ≠ some (b, r))
    (htodo : todo ≠ [] → s.Current listed)
    (hmade : ∀ f ∈ made, f.listed = listed ∧ f.globals = listed) :
    SnapshotInvariant (s.next b listed made todo) := by
  have hidle : SnapshotInvariant (s.setQuery b .idle) :=
    snapshotInvariant_setQuery hs hlock (by simp [Query.reading]) trivial (by simp [Query.unstored])
  cases todo with
  | nil => exact snapshotInvariant_result hidle hmade
  | cons data todo =>
    rw [Workbench.next]
    split
    · refine snapshotInvariant_setQuery hs hlock ?_ hmade (by simp [Query.unstored])
      intro k hk
      obtain rfl := Option.some.inj hk
      exact htodo (List.cons_ne_nil _ _)
    · exact hidle

theorem snapshotInvariant_query {ls : Text → Option Text} {b : ℕ} (hs : SnapshotInvariant s)
    (ht : s.step ls (.query b) = some t) : SnapshotInvariant t := by
  simp only [Workbench.step] at ht
  split at ht
  · split_ifs at ht with hin hsusp
    · obtain rfl := Option.some.inj ht
      have hlock (r : Request) : s.link.lock ≠ some (b, r) := by
        intro h
        simp [Workbench.inRequest, h] at hin
      exact snapshotInvariant_setQuery hs hlock (by simp [Query.reading]) trivial
        (by simp [Query.unstored])
    · obtain rfl := Option.some.inj ht
      exact snapshotInvariant_result hs (k := 0) (by simp)
  · cases ht

theorem snapshotInvariant_send {ls : Text → Option Text} {b : ℕ} {q : Request}
    (hs : SnapshotInvariant s) (ht : s.step ls (.send b q) = some t) : SnapshotInvariant t := by
  simp only [Workbench.step] at ht
  split_ifs at ht with hsends
  rcases hl : s.link.lock with _ | held
  · simp only [Link.step, hl, Option.map_some] at ht
    obtain rfl := Option.some.inj ht
    obtain ⟨hch, hread, hwhole⟩ := hs.free hl
    refine ⟨hs.inputs, hs.events, hs.handled, hs.lines, ?_, ?_, ?_, hs.oneStop, hs.unstored,
      hs.ended, hs.consistent.results, hs.consistent.cleared⟩
    · intro h
      cases h
    · rintro _ _ ⟨rfl, rfl⟩
      exact ⟨.inl ⟨by simp [hch], hread, hwhole⟩, hsends⟩
    · intro c k hk
      -- the lock was free, so that nobody was stuck
      exact .inl ((hs.reading c k hk).resolve_right (fun hstuck => hstuck.1 hl))
  · simp [Link.step, hl] at ht

theorem snapshotInvariant_deliver {ls : Text → Option Text} (hs : SnapshotInvariant s)
    (hok : keepsSnapshots s .deliver) (ht : s.step ls .deliver = some t) : SnapshotInvariant t := by
  simp only [Workbench.step] at ht
  split at ht
  · next event hevent =>
    obtain rfl := Option.some.inj ht
    obtain ⟨hlt, -⟩ := List.getElem?_eq_some_iff.mp hevent
    refine ⟨hs.inputs, hs.events, hlt, hs.lines, hs.free, hs.taken, hs.reading, hs.oneStop, ?_,
      hs.ended, hs.consistent.results, ?_⟩
    -- a query holds no variables of a stop that the line of this step ends
    · intro b k n hb hended
      have hle := hs.unstored b k n hb hended
      have hne : n ≠ s.handledLines := by
        rintro rfl
        exact hok b k hb hended
      simp only
      omega
    · intro k n hended hn f hf
      simp only at hn hf
      by_cases hold : n < s.handledLines
      · split_ifs at hf
        · cases hf
        · exact hs.consistent.cleared k n hended hold f hf
      · -- this is the line that reports the end of stop `k`
        obtain rfl : n = s.handledLines := by omega
        obtain ⟨event', hevent', hclears⟩ := hended.line
        rw [← hs.events.lines_eq, hevent] at hevent'
        obtain rfl := Option.some.inj hevent'
        rw [if_pos hclears] at hf
        cases hf
  · cases ht

theorem snapshotInvariant_store {ls : Text → Option Text} {b : ℕ} (hs : SnapshotInvariant s)
    (ht : s.step ls (.store b) = some t) : SnapshotInvariant t := by
  simp only [Workbench.step] at ht
  split at ht
  · next listed made frame todo hb =>
    obtain rfl := Option.some.inj ht
    have hone : ∀ f ∈ frame :: made, f.listed = listed ∧ f.globals = listed := by
      have h := hs.oneStop b
      rw [hb] at h
      exact h
    -- what is stored belongs to a stop whose end is not handled yet
    have hset : SnapshotInvariant (s.setVariables frame) := by
      refine ⟨hs.inputs, hs.events, hs.handled, hs.lines, hs.free, hs.taken, hs.reading, hs.oneStop,
        hs.unstored, hs.ended, hs.consistent.results, ?_⟩
      intro k n hended hn f hf
      rcases List.mem_cons.mp hf with rfl | hf
      · have hle (hk : listed = k) : s.handledLines ≤ n :=
          hs.unstored b k n (by rw [hb, Query.unstored, hk]) hended
        obtain ⟨hlisted, hglobals⟩ := hone f List.mem_cons_self
        have hne : listed ≠ k := fun hk => absurd hn (Nat.not_lt.mpr (hle hk))
        exact ⟨hlisted ▸ hne, hglobals ▸ hne⟩
      · exact hs.consistent.cleared k n hended hn f (List.mem_of_mem_filter hf)
    refine snapshotInvariant_next hset ?_ ?_ hone
    · intro r hr
      have hsends := (hs.taken b r hr).2
      rw [hb] at hsends
      cases hsends
    · intro htodo
      obtain ⟨data, todo, rfl⟩ := List.exists_cons_of_ne_nil htodo
      exact hs.reading b listed (by rw [hb, Query.reading])
  · cases ht

end Steps

section Steps

variable {s t : Workbench} {lastSegment : Text → Option Text}

/-- A thread goes on with the line of its request. -/
theorem snapshotInvariant_replied {b origin : ℕ} {line : Text} (hs : SnapshotInvariant s)
    (hfree : s.link.lock = none)
    (hnow : s.queries b = .asks ∨
        (∃ listed made data todo, s.queries b = .builds listed made data todo) →
      origin = s.stop ∧ s.link.world.status.isWaiting = true) :
    SnapshotInvariant (s.replied lastSegment b line origin) := by
  have hlock (r : Request) : s.link.lock ≠ some (b, r) := by simp [hfree]
  rw [Workbench.replied]
  cases hb : s.queries b with
  | idle => exact hs
  | stores listed made frame todo => exact hs
  | asks => exact snapshotInvariant_next hs hlock (fun _ => .inl (hnow (.inl hb))) (by simp)
  | builds listed made data todo =>
    obtain ⟨horig, hstatus⟩ := hnow (.inr ⟨listed, made, data, todo, hb⟩)
    obtain ⟨hlisted, -⟩ : listed = s.stop ∧ s.link.world.status.isWaiting = true :=
      (hs.reading b listed (by rw [hb, Query.reading])).resolve_right
        (fun hstuck => hstuck.1 hfree)
    simp only
    split
    · have hmade : ∀ f ∈ made, f.listed = listed ∧ f.globals = listed := by
        have h := hs.oneStop b
        rw [hb] at h
        exact h
      refine snapshotInvariant_setQuery hs hlock ?_ ?_ ?_
      · intro k hk
        cases todo with
        | nil => cases hk
        | cons data todo =>
          obtain rfl := Option.some.inj hk
          exact .inl ⟨hlisted, hstatus⟩
      · -- the new frame was listed and filled at the same stop
        intro f hf
        rcases List.mem_cons.mp hf with rfl | hf
        · exact ⟨rfl, horig.trans hlisted.symm⟩
        · exact hmade f hf
      · intro k n hk hended
        obtain rfl := Option.some.inj hk
        rw [hlisted] at hended
        exact absurd hended (hs.ended hstatus n)
    · exact snapshotInvariant_setQuery hs hlock (by simp [Query.reading]) trivial
        (by simp [Query.unstored])

theorem snapshotInvariant_readLine (hs : SnapshotInvariant s)
    (ht : s.step lastSegment .readLine = some t) : SnapshotInvariant t := by
  simp only [Workbench.step] at ht
  split at ht
  · next b q line origin hl hline horigin =>
    simp only [Link.step, hl, hline, Option.map_some] at ht
    obtain rfl := Option.some.inj ht
    obtain ⟨hturn, hsends⟩ := hs.taken b q hl
    obtain ⟨hlt, -⟩ := List.getElem?_eq_some_iff.mp horigin
    rcases hturn with ⟨-, hread, -⟩ | ⟨hch, hread | ⟨hread, hwhole, hfresh⟩⟩
    · omega
    · omega
    · set u : Workbench := { s with link := { s.link with
        lock := none
        readLines := s.link.readLines + 1
        returned := s.link.returned ++ [(q, line)] } } with hu
      have hout : SnapshotInvariant u := by
        refine ⟨hs.inputs, hs.events, hs.handled, hs.lines, fun _ => ⟨hch, hread, hwhole⟩, ?_,
          ?_, hs.oneStop, hs.unstored, hs.ended, hs.consistent.results, hs.consistent.cleared⟩
        · intro c r h
          cases h
        · intro c k hk
          refine .inl ((hs.reading c k hk).resolve_right (fun hstuck => ?_))
          have hnone := hstuck.2.2
          omega
      have hfree : u.link.lock = none := rfl
      apply snapshotInvariant_replied hout hfree
      -- the line of a query is of the stop ldb is in
      intro hquery
      have hq : q = .stackforide ∨ q = .getglobals := by
        rcases hquery with hb | ⟨listed, made, data, todo, hb⟩
        · have hasks : s.queries b = .asks := hb
          rw [hasks] at hsends
          left
          cases q <;> first | rfl | cases hsends
        · have hbuilds : s.queries b = .builds listed made data todo := hb
          rw [hbuilds] at hsends
          right
          cases q <;> first | rfl | cases hsends
      obtain ⟨hstatus, hstop⟩ := hfresh (by rcases hq with rfl | rfl <;> simp)
        (by rcases hq with rfl | rfl <;> simp)
      exact ⟨Option.some.inj (horigin.symm.trans hstop), hstatus⟩
  · cases ht

theorem lines_length {w : World} (hw : EventsInvariant w.toSession) :
    (lines w.events).length = 1 + (w.history.flatMap eventLines).length := by
  rw [hw.lines_eq, List.length_cons, Nat.add_comm]

theorem snapshotInvariant_hook {e : HookEvent} (hs : SnapshotInvariant s)
    (ht : s.step lastSegment (.hook e) = some t) : SnapshotInvariant t := by
  cases hrun : s.link.world.status with
  | running =>
    have hruns : ¬ s.link.world.status.isWaiting = true := by simp [hrun, Status.isWaiting]
    simp only [Workbench.step, Link.step, hrun, Option.map_some,
      hookRoutine_noInput e s.link.world hs.inputs] at ht
    cases hstop : stopReason s.link.world.state e with
    | none =>
      rw [hstop] at ht
      obtain rfl := Option.some.inj ht
      exact hs
    | some x =>
      obtain ⟨L, bp⟩ := x
      rw [hstop] at ht
      simp only at ht
      split_ifs at ht
      -- outside of the list kept for the script ldb comes to its end
      case neg =>
        obtain rfl := Option.some.inj ht
        have hgone (u : Workbench) (hu : u.link.world.status = .over .uninitialised) : u.Whole := by
          intro K pending h
          cases hu.symm.trans h
        refine ⟨hs.inputs, hs.events, hs.handled, hs.lines, ?_, ?_, ?_, hs.oneStop, hs.unstored,
          fun h => (Bool.false_ne_true h).elim, hs.consistent.results, hs.consistent.cleared⟩
        · intro hl
          obtain ⟨hch, hread, -⟩ := hs.free hl
          exact ⟨hch, hread, hgone _ rfl⟩
        · intro b q hl
          obtain ⟨hturn, hsends⟩ := hs.taken b q hl
          refine ⟨?_, hsends⟩
          rcases hturn with ⟨hch, hread, -⟩ | ⟨hch, hread | ⟨hread, -, hfresh⟩⟩
          · exact .inl ⟨hch, hread, hgone _ rfl⟩
          · exact .inr ⟨hch, .inl hread⟩
          · refine .inr ⟨hch, .inr ⟨hread, hgone _ rfl, fun hstep hresume => ?_⟩⟩
            exact absurd (hfresh hstep hresume).1 hruns
        · intro b k hk
          exact .inr ((hs.reading b k hk).resolve_left (fun h => hruns h.2))
      obtain rfl := Option.some.inj ht
      have hevents : EventsInvariant (s.link.world.stopped .ide L bp).toSession :=
        eventsInvariant_stop s.link.world.toSession bp hs.events
      have hhistory : (s.link.world.stopped .ide L bp).history =
        s.link.world.history ++ [.entered bp] := rfl
      -- a stop begins, and none ends
      have hended (k n : ℕ) : StopEnded (s.link.world.stopped .ide L bp).history k n ↔
          StopEnded s.link.world.history k n := by
        rw [hhistory]
        exact stopEnded_append_other (by simp)
      have hwhole : Workbench.Whole
          { s with link := { s.link with world := s.link.world.stopped .ide L bp } } := by
        intro K pending h
        cases h
        rfl
      refine ⟨rfl, hevents, ?_, hs.lines, ?_, ?_, ?_, hs.oneStop, ?_, ?_, hs.consistent.results, ?_⟩
      · have hle := hs.handled
        rw [lines_length hs.events] at hle
        simp only
        rw [lines_length hevents, hhistory, List.flatMap_append, List.length_append]
        omega
      · intro hl
        obtain ⟨hch, hread, -⟩ := hs.free hl
        exact ⟨hch, hread, hwhole⟩
      · intro b q hl
        obtain ⟨hturn, hsends⟩ := hs.taken b q hl
        refine ⟨?_, hsends⟩
        -- ldb did not run while the line of a query was on its way
        rcases hturn with ⟨hch, hread, -⟩ | ⟨hch, hread | ⟨hread, -, hfresh⟩⟩
        · exact .inl ⟨hch, hread, hwhole⟩
        · exact .inr ⟨hch, .inl hread⟩
        · refine .inr ⟨hch, .inr ⟨hread, hwhole, fun hstep hresume => ?_⟩⟩
          exact absurd (hfresh hstep hresume).1 hruns
      · intro b k hk
        exact .inr ((hs.reading b k hk).resolve_left (fun h => hruns h.2))
      · intro b k n hb h
        exact hs.unstored b k n hb ((hended k n).mp h)
      · intro _ n h
        -- no stop of the past has the number of the new one
        have hle := ((hended _ n).mp h).le_entries
        have hnext : entries (s.link.world.stopped .ide L bp).history =
            entries s.link.world.history + 1 := by
          rw [hhistory, entries, entries, List.countP_append]
          rfl
        simp only [Workbench.stop, hnext] at hle
        omega
      · intro k n h
        exact hs.consistent.cleared k n ((hended k n).mp h)
  | _ => simp [Workbench.step, Link.step, hrun] at ht

/-- What a received request does to the events and to the stops that have ended. -/
theorem receive_keeps (L : LuaState) (q : Request) (w : World) (hw : EventsInvariant w.toSession) :
    let w' := receive .ide L none (.data q.line) w
    EventsInvariant w'.toSession ∧ entries w'.history = entries w.history ∧
      (lines w.events).length ≤ (lines w'.events).length ∧
      (w'.status.isWaiting = false → q = .step ∨ q = .resume ∨ w'.replies = w.replies) ∧
      ∀ k n, StopEnded w'.history k n →
        StopEnded w.history k n ∨
          (n = (lines w.events).length ∧ w'.status.isWaiting = false) := by
  intro w'
  rcases receive_request L q w with hsame | ⟨r, hr, hperform, hstatus⟩
  · have hsame' : w'.toSession = w.toSession := hsame
    rw [hsame']
    exact ⟨hw, rfl, le_rfl, fun _ => .inr (.inr rfl), fun k n h => .inl h⟩
  · have hperform' : w'.toSession = w.toSession.perform L.source (cstr q.line) r := hperform
    have hevents : EventsInvariant w'.toSession := by
      rw [hperform']
      exact eventsInvariant_perform w.toSession L (cstr q.line) r hw hr
    have hhistory : w'.history = w.history ++ [.handled L.source (cstr q.line)] := by
      rw [hperform']
      rfl
    refine ⟨hevents, ?_, ?_, fun h => ?_, ?_⟩
    · rw [hhistory, entries, entries, List.countP_append]
      rfl
    · rw [lines_length hw, lines_length hevents, hhistory, List.flatMap_append, List.length_append]
      omega
    · exact (selectedMode_request (hstatus.mp h)).imp_right .inl
    · intro k n h
      rw [hhistory] at h
      rcases (stopEnded_append _).mp h with hold | ⟨source, data, hx, hc, -, hn⟩
      · exact .inl hold
      · obtain ⟨-, rfl⟩ := Happening.handled.inj hx
        refine .inr ⟨by rw [lines_length hw, hn], hstatus.mpr ?_⟩
        rcases hc with hc | hc <;> rw [hc] <;> rfl

end Steps

section Reached

variable {s t : Workbench} {lastSegment : Text → Option Text}

/-- A request that ldb has handled adds one line of this stop, and ldb holds no part of a
request, or it adds no line. -/
theorem handled_line {L : LuaState} {p : Request} {w : World} {ls : List Text}
    (hreplies : w.replies = terminated '\n' ls)
    (h : answered L w.state p ∨ (receive .ide L none (.data p.line) w).replies = w.replies) :
    let w' := receive .ide L none (.data p.line) w
    (∃ l, OneLine l ∧ w'.replies = terminated '\n' (ls ++ [l]) ∧
        ∀ K pending, w'.status = .waiting K pending → pending = none) ∨
      w'.replies = terminated '\n' ls := by
  intro w'
  rcases h with hans | hsilent
  · obtain ⟨l, hl, hwrites, -, hpending⟩ := receive_answered L w p hans
    refine .inl ⟨l, hl, ?_, hpending⟩
    calc w'.replies = w.replies ++ (l ++ ['\n']) := hwrites
      _ = terminated '\n' (ls ++ [l]) := by
        rw [hreplies]
        simp [terminated]
  · exact .inr (hsilent.trans hreplies)

/-- Handling a request keeps the invariant, if it does so for the lines of the link and for
the turn of the thread. -/
theorem snapshotInvariant_handled {L : LuaState} {pending : Option (Text × ℕ)} {b : ℕ}
    {p : Request} (hs : SnapshotInvariant s) (hw : s.link.world.status = .waiting L pending)
    (hl : s.link.lock = some (b, p)) (hchannel : s.link.channel ≠ [])
    (hleave : p = .step ∨ p = .resume → ∀ c, (s.queries c).reading = none)
    (written : List (Request × Text)) (origins : List ℕ) :
    let u : Workbench := { s with
      link := { s.link with
        world := receive .ide L none (.data p.line) s.link.world
        channel := []
        written := written }
      origins := origins }
    (∃ ls : List Text, (∀ l ∈ ls, OneLine l) ∧ u.link.world.replies = terminated '\n' ls ∧
      origins.length = ls.length) → u.Turn p →
      (u.link.world.replies = s.link.world.replies → u.Stuck) → SnapshotInvariant u := by
  intro u hlines' hturn' hstuck
  obtain ⟨hevents, hstop, hlines, hrun, hended⟩ := receive_keeps L p s.link.world hs.events
  obtain ⟨-, hsends⟩ := hs.taken b p hl
  have hsame : u.stop = s.stop := hstop
  have hwaiting : s.link.world.status.isWaiting = true := by rw [hw]; rfl
  refine ⟨(receive_inputs L none _ s.link.world).trans hs.inputs, hevents,
    hs.handled.trans hlines, hlines', ?_, ?_, ?_, hs.oneStop, ?_, ?_, hs.consistent.results, ?_⟩
  · intro h
    exact absurd (hl.symm.trans h) (by simp)
  · intro c q hc
    obtain ⟨rfl, rfl⟩ := Prod.mk.inj (Option.some.inj (hl.symm.trans hc))
    exact ⟨hturn', hsends⟩
  · -- ldb does not go on while a query has globals to read, or nobody gets a line any more
    intro c k hk
    have hnow := (hs.reading c k hk).resolve_right (fun h => hchannel h.2.1)
    by_cases hrunning : u.link.world.status.isWaiting = false
    · rcases hrun hrunning with hstep | hresume | hsilent
      · have hnone := hleave (.inl hstep) c
        rw [show s.queries c = u.queries c from rfl, hk] at hnone
        cases hnone
      · have hnone := hleave (.inr hresume) c
        rw [show s.queries c = u.queries c from rfl, hk] at hnone
        cases hnone
      · exact .inr (hstuck hsilent)
    · exact .inl ⟨hnow.1.trans hsame.symm, by simpa using hrunning⟩
  · -- what has ended now was the stop of this line, which the requests so far have not read
    intro c k n hc h
    rcases hended k n h with hold | ⟨rfl, -⟩
    · exact hs.unstored c k n hc hold
    · exact hs.handled
  · intro hstatus n h
    rcases hended _ n h with hold | ⟨-, hrunning⟩
    · rw [hsame] at hold
      exact hs.ended hwaiting n hold
    · exact Bool.false_ne_true (hrunning.symm.trans hstatus)
  · intro k n h hn
    rcases hended k n h with hold | ⟨rfl, -⟩
    · exact hs.consistent.cleared k n hold hn
    · exact absurd hn (Nat.not_lt.mpr hs.handled)

theorem snapshotInvariant_consume (hs : SnapshotInvariant s) (hok : keepsSnapshots s .consume)
    (ht : s.step lastSegment .consume = some t) : SnapshotInvariant t := by
  obtain ⟨link, hlink, ht⟩ := Option.map_eq_some_iff.mp ht
  simp only [Link.step] at hlink
  split at hlink
  · next L pending q rest hw hch =>
    obtain rfl := Option.some.inj hlink
    -- the request is that of the thread in `sendRequest`, and the only one
    rcases hl : s.link.lock with _ | ⟨b, p⟩
    · rw [(hs.free hl).1] at hch
      cases hch
    obtain ⟨hch', hread, hwhole⟩ :
        s.link.channel = [p] ∧ s.link.readLines = s.origins.length ∧ s.Whole := by
      rcases (hs.taken b p hl).1 with h | ⟨h, -⟩
      · exact h
      · rw [h] at hch
        cases hch
    rw [hch'] at hch
    obtain ⟨rfl, rfl⟩ := List.cons.inj hch
    obtain rfl := hwhole L pending hw
    obtain ⟨hreply, hleave⟩ := hok L none p [] hw hch'
    obtain ⟨-, hstop, -, hrun, -⟩ := receive_keeps L p s.link.world hs.events
    obtain ⟨ls, hone, hreplies, hcount⟩ := hs.lines
    have hbefore : LineText.lines s.link.world.replies = ls := by
      rw [hreplies, lines_terminated ls hone]
    obtain rfl := ht
    simp only [hbefore]
    rcases handled_line hreplies hreply with ⟨l, hl', hreplies', hwhole'⟩ | hreplies'
    · have hls : ∀ x ∈ ls ++ [l], OneLine x :=
        List.forall_mem_append.mpr ⟨hone, List.forall_mem_singleton.mpr hl'⟩
      rw [hreplies', lines_terminated _ hls]
      have hwritten : (ls ++ [l]).length - ls.length = 1 := by
        rw [List.length_append, List.length_singleton]
        omega
      have hmore : (receive .ide L none (.data p.line) s.link.world).replies ≠
          s.link.world.replies := by
        rw [hreplies', hreplies]
        intro h
        have hlen := congrArg List.length h
        simp [terminated] at hlen
      rw [hwritten]
      refine snapshotInvariant_handled hs hw hl (by simp [hch']) hleave _ _
        ⟨ls ++ [l], hls, hreplies', by simp [hcount]⟩ (.inr ⟨rfl, .inr ⟨?_, hwhole', ?_⟩⟩)
        (fun hsilent => absurd hsilent hmore)
      · simp [hread]
      · intro hstep hresume
        refine ⟨?_, ?_⟩
        · by_contra hrunning
          rcases hrun (by simpa using hrunning) with h | h | h
          · exact hstep h
          · exact hresume h
          · exact hmore h
        · have hsame : entries (receive .ide L none (.data p.line) s.link.world).history =
              s.stop := hstop
          simp [hread, Workbench.stop, hsame]
    · rw [hreplies', lines_terminated _ hone, Nat.sub_self]
      exact snapshotInvariant_handled hs hw hl (by simp [hch']) hleave _ _
        ⟨ls, hone, hreplies', by simp [hcount]⟩ (.inr ⟨rfl, .inl (by simp [hread])⟩)
        (fun _ => ⟨by simp [hl], rfl, by simp [hread]⟩)
  · cases hlink

theorem snapshotInvariant_step (s : Workbench) (a : WorkbenchAction) (t : Workbench)
    (hs : SnapshotInvariant s) (hok : keepsSnapshots s a) (ht : s.step lastSegment a = some t) :
    SnapshotInvariant t := by
  cases a with
  | query b => exact snapshotInvariant_query hs ht
  | send b q => exact snapshotInvariant_send hs ht
  | consume => exact snapshotInvariant_consume hs hok ht
  | readLine => exact snapshotInvariant_readLine hs ht
  | hook e => exact snapshotInvariant_hook hs ht
  | store b => exact snapshotInvariant_store hs ht
  | deliver => exact snapshotInvariant_deliver hs hok ht

theorem next_frame (s : Workbench) (b listed : ℕ) (made : List Fetched) (todo : List Text) :
    (s.next b listed made todo).link = s.link ∧
      (s.next b listed made todo).handledLines = s.handledLines ∧
        (s.next b listed made todo).fVariables = s.fVariables := by
  cases todo with
  | nil => exact ⟨rfl, rfl, rfl⟩
  | cons data todo =>
    rw [Workbench.next]
    split <;> exact ⟨rfl, rfl, rfl⟩

/-- Where the event that ends a stop is handled while a query holds variables of that stop, the
next step of that query puts them into the table. -/
theorem late_store {b k : ℕ} (hs : SnapshotInvariant s) (hb : (s.queries b).unstored = some k)
    (hended : StopEnded s.link.world.history k s.handledLines) :
    ∃ t u, s.step lastSegment .deliver = some t ∧ t.step lastSegment (.store b) = some u ∧
      ¬ u.Consistent := by
  obtain ⟨event, hevent, -⟩ := hended.line
  rw [← hs.events.lines_eq] at hevent
  have hone := hs.oneStop b
  cases hquery : s.queries b with
  | stores listed made frame todo =>
    rw [hquery] at hb hone
    obtain rfl := Option.some.inj hb
    set t : Workbench := { s with
      handledLines := s.handledLines + 1
      thread := s.thread.handleEvent event
      fVariables := if PDAThread.clears event then [] else s.fVariables } with ht
    have hstored : t.queries b = .stores listed made frame todo := hquery
    obtain ⟨hlink, hhandled, hvariables⟩ :=
      next_frame (t.setVariables frame) b listed (frame :: made) todo
    refine ⟨t, _, by rw [Workbench.step, hevent], by rw [Workbench.step, hstored], ?_⟩
    intro hconsistent
    have hkept := hconsistent.cleared listed s.handledLines (by rw [hlink]; exact hended)
      (by rw [hhandled]; exact Nat.lt_succ_self _) frame
      (by rw [hvariables]; exact List.mem_cons_self)
    exact hkept.1 (hone frame List.mem_cons_self).1
  | _ => rw [hquery] at hb; cases hb

/-- In every run in which no request gets more than one line, no step and no resume is received
while a query has globals to read, and no end of a stop is handled while a query holds variables
of it, each result is of one stop and the table keeps nothing of a stop whose end was handled. -/
theorem snapshots_consistent (lastSegment : Text → Option Text) (lines : ScriptLines)
    (s : Workbench)
    (h : Reaches (Workbench.step lastSegment) keepsSnapshots (.start lines) s) : s.Consistent :=
  (h.invariant snapshotInvariant_step (snapshotInvariant_start lines)).consistent

end Reached

/-- A script with one global, at a line. -/
def oneGlobal (line : CInt) : LuaState :=
  (LuaState.mainChunk (txt "a.lua") line).withGlobals [(.string (txt "x"), .string (txt "y"))]

/-- The first stop, its event lines, and a thread that reads the frame list. -/
def framesRead : List WorkbenchAction :=
  .hook (.line (oneGlobal 1)) :: List.replicate 4 .deliver ++
    [.query 0, .send 0 .stackforide, .consume, .readLine]

/-- The same thread reads the globals of its one frame and stores its variables. -/
def globalsRead : List WorkbenchAction := [.send 0 .getglobals, .consume, .readLine, .store 0]

/-- Another thread steps, and the script comes to its next line. -/
def stepped : List WorkbenchAction :=
  [.send 1 .step, .consume, .readLine, .hook (.line (oneGlobal 2))]

/-- The stops of the data of the results. -/
def Workbench.stops (s : Workbench) : List (List (ℕ × ℕ)) :=
  s.results.map (fun frames => frames.map (fun f => (f.listed, f.globals)))

/-- A check that is enough for the condition: requests with one line that leave ldb where it is,
and events before the first step. -/
def quiet (s : Workbench) : WorkbenchAction → Bool
  | .consume =>
    match s.link.world.status, s.link.channel with
    | .waiting L _, q :: _ =>
      let replies := (receive .ide L none (.data q.line) s.link.world).replies
      let line := (replies.drop s.link.world.replies.length).dropLast
      decide (OneLine line ∧ replies = s.link.world.replies ++ (line ++ ['\n'])) &&
        (match q with | .step | .resume => false | _ => true)
    | _, _ => true
  | .deliver => s.link.world.history.all (fun
    | .entered _ => true
    | .handled _ data => decide (commandOf data ≠ some .step ∧ commandOf data ≠ some .resume))
  | _ => true

theorem keepsSnapshots_of_quiet (s : Workbench) (a : WorkbenchAction) (h : quiet s a = true) :
    keepsSnapshots s a := by
  cases a with
  | consume =>
    intro L pending q rest hw hch
    simp only [quiet, hw, hch, Bool.and_eq_true, decide_eq_true_eq] at h
    obtain ⟨⟨hone, hreplies⟩, hq⟩ := h
    refine ⟨.inl ((writesOneLine_iff_answered L s.link.world q).mp ⟨_, hone, hreplies⟩), ?_⟩
    rintro (rfl | rfl) <;> cases hq
  | deliver =>
    rintro b k - ⟨i, source, data, hi, hc, -⟩
    have hx := List.all_eq_true.mp h _ (List.mem_of_getElem? hi)
    simp only [decide_eq_true_eq] at hx
    rcases hc with hc | hc
    · exact hx.1 hc
    · exact hx.2 hc
  | _ => trivial

/-- A query without a step in between shows one stop. -/
theorem snapshots_of_oneStop : ∃ s : Workbench, s.stops = [[(1, 1)]] ∧ s.Consistent := by
  have hstops : (run (guarded (Workbench.step some) quiet) (.start fun _ => [])
      (framesRead ++ globalsRead)).map Workbench.stops = some [[(1, 1)]] := by decide +kernel
  obtain ⟨s, hrun, hs⟩ := Option.map_eq_some_iff.mp hstops
  exact ⟨s, hs, snapshots_consistent some _ s
    (reaches_of_guarded keepsSnapshots_of_quiet hrun)⟩

/-- With a step between the two requests of a query, the frame list is of the first stop and
the globals are of the second. -/
theorem step_mixes_stops :
    ¬ ∀ (lastSegment : Text → Option Text) (lines : ScriptLines) (s : Workbench),
      Reaches (Workbench.step lastSegment) (fun _ _ => True) (.start lines) s → s.Consistent := by
  intro h
  have hstops : (run (Workbench.step some) (.start fun _ => [])
      (framesRead ++ stepped ++ globalsRead)).map Workbench.stops = some [[(1, 2)]] := by
    decide +kernel
  obtain ⟨s, hrun, hs⟩ := Option.map_eq_some_iff.mp hstops
  have hresults := (h some _ s (reaches_of_run (fun _ _ _ => trivial) hrun)).results
  obtain ⟨frames, hframes, hmap⟩ := List.mem_map.mp (hs ▸ List.mem_singleton.mpr rfl :
    [(1, 2)] ∈ s.stops)
  obtain ⟨k, hk⟩ := hresults frames hframes
  obtain ⟨f, hf, hpair⟩ := List.mem_map.mp (hmap ▸ List.mem_singleton.mpr rfl :
    (1, 2) ∈ frames.map (fun f => (f.listed, f.globals)))
  obtain ⟨hlisted, hglobals⟩ := hk f hf
  have hone : f.listed = 1 := congrArg Prod.fst hpair
  have htwo : f.globals = 2 := congrArg Prod.snd hpair
  omega

end LuaIde
