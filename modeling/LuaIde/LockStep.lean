import LuaIde.Requests
import LuaIde.Runs

/-! The command connection: threads that send requests and read replies one after the
other, and ldb that receives the requests at its stops. -/
namespace LuaIde

open LineText DecimalText Delimited Runs

/-- The command connection. `lock` is the thread inside of the synchronized block of
`sendRequest` with its request, `channel` what ldb has not received yet. The last three
fields record the requests sent, what ldb wrote for each one it received, and the line
`sendRequest` returned for each one. -/
structure Link where
  world : World
  lock : Option (ℕ × Request)
  channel : List Request
  readLines : ℕ
  sent : List Request
  written : List (Request × Text)
  returned : List (Request × Text)

/-- A thread enters `sendRequest` and prints its request, ldb receives a request, the
thread in `sendRequest` reads a line and leaves, the Lua program comes to a hook event. -/
inductive LinkAction where
  | send (thread : ℕ) (q : Request)
  | consume
  | readLine
  | hook (e : HookEvent)

namespace Link

def start (lines : ScriptLines) : Link := ⟨World.start .ide lines [], none, [], 0, [], [], []⟩

def step (s : Link) : LinkAction → Option Link
  | .send thread q =>
    match s.lock with
    | none => some { s with
        lock := some (thread, q)
        channel := s.channel ++ [q]
        sent := s.sent ++ [q] }
    | some _ => none
  | .consume =>
    match s.world.status, s.channel with
    | .waiting L pending, q :: rest =>
      let world := receive .ide L pending (.data q.line) s.world
      some { s with
        world := world
        channel := rest
        written := s.written ++ [(q, world.replies.drop s.world.replies.length)] }
    | _, _ => none
  | .readLine =>
    match s.lock, (lines s.world.replies)[s.readLines]? with
    | some (_, q), some line => some { s with
        lock := none
        readLines := s.readLines + 1
        returned := s.returned ++ [(q, line)] }
    | _, _ => none
  | .hook e =>
    match s.world.status with
    | .running => some { s with world := hookRoutine .ide e s.world }
    | _ => none

/-- Each request got one line, the requests are received in the order in which they were
sent, the lines returned are those written for the same requests, and a thread whose
request was received finds a line. -/
structure InLockStep (s : Link) : Prop where
  oneLine : ∀ x ∈ s.written, ∃ t, OneLine t ∧ x.2 = t ++ ['\n']
  order : s.written.map Prod.fst ++ s.channel = s.sent
  replies : s.returned.map (fun x => (x.1, x.2 ++ ['\n'])) <+: s.written
  present : s.lock.isSome → s.channel = [] → s.readLines < (lines s.world.replies).length

end Link

/-- The condition on a run: a request that is received is one that gets one line. -/
def answersNext (s : Link) : LinkAction → Prop
  | .consume => ∀ L pending q rest, s.world.status = .waiting L pending →
      s.channel = q :: rest → answered L s.world.state q
  | _ => True

/-- What every step preserves: the replies are the lines `ls`, one for each request
received, and at most one request is on its way or waits for its line to be read. -/
structure LinkInvariant (s : Link) : Prop where
  inputs : s.world.inputs = []
  whole : ∀ L pending, s.world.status = .waiting L pending → pending = none
  lines : ∃ ls : List Text, (∀ l ∈ ls, OneLine l) ∧ s.world.replies = terminated '\n' ls ∧
    s.written.map Prod.snd = ls.map (· ++ ['\n'])
  order : s.written.map Prod.fst ++ s.channel = s.sent
  count : s.readLines = s.returned.length
  replies : s.returned.map (fun x => (x.1, x.2 ++ ['\n'])) <+: s.written
  free : s.lock = none → s.channel = [] ∧ s.written.length = s.returned.length
  taken : ∀ thread q, s.lock = some (thread, q) →
    (s.channel = [q] ∧ s.written.length = s.returned.length) ∨
      (s.channel = [] ∧ ∃ t, s.written[s.returned.length]? = some (q, t) ∧
        s.written.length = s.returned.length + 1)

theorem linkInvariant_start (lines : ScriptLines) : LinkInvariant (Link.start lines) := by
  refine ⟨rfl, ?_, ⟨[], by simp, rfl, rfl⟩, rfl, rfl, List.prefix_rfl, fun _ => ⟨rfl, rfl⟩, ?_⟩
  · intro L pending h
    cases h
  · intro thread q h
    cases h

theorem linkInvariant_send (s t : Link) (thread : ℕ) (q : Request) (hs : LinkInvariant s)
    (ht : s.step (.send thread q) = some t) : LinkInvariant t := by
  rcases hl : s.lock with _ | held
  · simp only [Link.step, hl, Option.some.injEq] at ht
    subst ht
    obtain ⟨hch, hlen⟩ := hs.free hl
    refine ⟨hs.inputs, hs.whole, hs.lines, ?_, hs.count, hs.replies, ?_, ?_⟩
    · rw [← hs.order, List.append_assoc]
    · intro h
      cases h
    · rintro _ _ ⟨rfl, rfl⟩
      exact .inl ⟨by simp [hch], hlen⟩
  · simp [Link.step, hl] at ht

theorem linkInvariant_hook (s t : Link) (e : HookEvent) (hs : LinkInvariant s)
    (ht : s.step (.hook e) = some t) : LinkInvariant t := by
  simp only [Link.step] at ht
  split at ht
  · next hrun =>
    obtain rfl := Option.some.inj ht
    have hw := hookRoutine_eq .ide e s.world
    rcases hr : stopReason s.world.state e with _ | ⟨L, bp⟩
    · simp only [hr] at hw
      rw [hw]
      exact hs
    · simp only [hr, hs.inputs, parserLoop] at hw
      rw [hw]
      -- a stop, or a line that is not in the list kept for the script
      split_ifs
      · refine ⟨rfl, ?_, hs.lines, hs.order, hs.count, hs.replies, hs.free, hs.taken⟩
        rintro _ _ ⟨rfl, rfl⟩
        rfl
      · refine ⟨rfl, ?_, hs.lines, hs.order, hs.count, hs.replies, hs.free, hs.taken⟩
        intro _ _ h
        cases h
  · cases ht

theorem linkInvariant_readLine (s t : Link) (hs : LinkInvariant s)
    (ht : s.step .readLine = some t) : LinkInvariant t := by
  obtain ⟨ls, hone, hreplies, hsnd⟩ := hs.lines
  have hlines : LineText.lines s.world.replies = ls := by
    rw [hreplies, lines_terminated ls hone]
  simp only [Link.step, hlines, hs.count] at ht
  split at ht
  · next thread q line hl hline =>
    obtain rfl := Option.some.inj ht
    obtain ⟨hlt, -⟩ := List.getElem?_eq_some_iff.mp hline
    have hlen : s.written.length = ls.length := by
      have := congrArg List.length hsnd
      simpa using this
    rcases hs.taken thread q hl with ⟨-, hw⟩ | ⟨hch, text, hget, hw⟩
    · -- the request is still on its way, and no line is there to read
      omega
    · have htext : text = line ++ ['\n'] := by
        have h1 : (s.written.map Prod.snd)[s.returned.length]? = some text := by
          rw [List.getElem?_map, hget]
          rfl
        rw [hsnd, List.getElem?_map, hline] at h1
        exact (Option.some.inj h1).symm
      refine ⟨hs.inputs, hs.whole, ⟨ls, hone, hreplies, hsnd⟩, hs.order, by simp, ?_, ?_, ?_⟩
      · -- what was written and not read yet is the line of this request alone
        obtain ⟨rest, hrest⟩ := hs.replies
        have hr : rest = [(q, line ++ ['\n'])] := by
          have hl' := congrArg List.length hrest
          simp only [List.length_append, List.length_map] at hl'
          obtain ⟨x, rfl⟩ := List.length_eq_one_iff.mp (show rest.length = 1 by omega)
          rw [← hrest, List.getElem?_append_right (by simp)] at hget
          simp only [List.length_map, Nat.sub_self, List.getElem?_cons_zero,
            Option.some.injEq] at hget
          rw [hget, htext]
        rw [← hrest, hr]
        simp
      · intro _
        exact ⟨hch, by simp [hw]⟩
      · intro _ _ h
        cases h
  · cases ht

/-- A received request that is answered puts one line behind the replies, and nothing of
it is left in the receive loop. -/
theorem receive_answered (L : LuaState) (w : World) (q : Request) (h : answered L w.state q) :
    ∃ t, OneLine t ∧ (receive .ide L none (.data q.line) w).replies = w.replies ++ (t ++ ['\n']) ∧
      (receive .ide L none (.data q.line) w).inputs = w.inputs ∧
        ∀ K pending, (receive .ide L none (.data q.line) w).status = .waiting K pending →
          pending = none := by
  obtain ⟨t, ht, hr⟩ := (writesOneLine_iff_answered L w q).mpr h
  have hn : '\n' ∈ cstr q.line := h.1.1
  have hne : cstr q.line ≠ [] := List.ne_nil_of_mem hn
  have hrecv : receive .ide L none (.data q.line) w = react .ide L w (cstr q.line) false := by
    simp [receive, intake, hne, hn]
  refine ⟨t, ht, hr, ?_⟩
  rw [hrecv]
  rcases react_cases .ide L w (cstr q.line) false with ⟨why, -, he⟩ | ⟨r, -, he⟩
  · rw [he]
    exact ⟨rfl, fun K pending hK => absurd hK (Status.afterFault_ne_waiting why K pending)⟩
  · rw [he]
    refine ⟨rfl, fun K pending hK => ?_⟩
    cases hv : r.leave with
    | false =>
      simp only [hv, Bool.false_eq_true, or_self, if_false] at hK
      cases hK
      rfl
    | true =>
      simp only [hv, true_or, if_true] at hK
      cases hK

theorem linkInvariant_consume (s t : Link) (hs : LinkInvariant s) (hok : answersNext s .consume)
    (ht : s.step .consume = some t) : LinkInvariant t := by
  simp only [Link.step] at ht
  split at ht
  · next L pending q rest hw hch =>
    obtain rfl := Option.some.inj ht
    obtain rfl := hs.whole L pending hw
    obtain ⟨text, hone, hreply, hin, hwhole⟩ :=
      receive_answered L s.world q (hok L none q rest hw hch)
    obtain ⟨ls, hls, hreplies, hsnd⟩ := hs.lines
    -- a request on its way belongs to the thread that holds the lock
    rcases hl : s.lock with _ | ⟨thread, p⟩
    · rw [(hs.free hl).1] at hch
      cases hch
    · rcases hs.taken thread p hl with ⟨hch', hlen⟩ | ⟨hch', -⟩
      · rw [hch'] at hch
        obtain ⟨rfl, rfl⟩ := List.cons.inj hch
        -- what the link records as written is what this receive put behind the replies
        have hdrop : (receive .ide L none (.data p.line) s.world).replies.drop
            s.world.replies.length = text ++ ['\n'] := by
          rw [hreply, List.drop_left]
        refine ⟨hin.trans hs.inputs, hwhole, ⟨ls ++ [text], ?_, ?_, ?_⟩, ?_, hs.count, ?_, ?_, ?_⟩
        · exact List.forall_mem_append.mpr ⟨hls, List.forall_mem_singleton.mpr hone⟩
        · simp only [hreply, hreplies]
          simp [terminated]
        · simp [hsnd, hdrop]
        · rw [← hs.order, hch']
          simp
        · exact hs.replies.trans (List.prefix_append _ _)
        · intro h
          simp at h
        · rintro _ _ h
          simp only [Option.some.injEq, Prod.mk.injEq] at h
          obtain ⟨rfl, rfl⟩ := h
          right
          refine ⟨rfl, text ++ ['\n'], ?_, by simp [hlen]⟩
          rw [← hlen, hdrop]
          simp
      · rw [hch'] at hch
        cases hch
  · cases ht

theorem linkInvariant_step (s : Link) (a : LinkAction) (t : Link) (hs : LinkInvariant s)
    (hok : answersNext s a) (ht : s.step a = some t) : LinkInvariant t := by
  cases a with
  | send thread q => exact linkInvariant_send s t thread q hs ht
  | consume => exact linkInvariant_consume s t hs hok ht
  | readLine => exact linkInvariant_readLine s t hs ht
  | hook e => exact linkInvariant_hook s t e hs ht

theorem inLockStep_of_invariant (s : Link) (hs : LinkInvariant s) : s.InLockStep := by
  obtain ⟨ls, hls, hreplies, hsnd⟩ := hs.lines
  have hlen : s.written.length = ls.length := by
    have := congrArg List.length hsnd
    simpa using this
  refine ⟨?_, hs.order, hs.replies, ?_⟩
  · intro x hx
    have hmem : x.2 ∈ ls.map (· ++ ['\n']) := by
      rw [← hsnd]
      exact List.mem_map_of_mem hx
    obtain ⟨l, hl, he⟩ := List.mem_map.mp hmem
    exact ⟨l, hls l hl, he.symm⟩
  · intro hlock hch
    obtain ⟨⟨thread, q⟩, hl⟩ := Option.isSome_iff_exists.mp hlock
    rw [hreplies, lines_terminated ls hls, hs.count]
    rcases hs.taken thread q hl with ⟨hch', -⟩ | ⟨-, -, -, hw⟩
    · rw [hch] at hch'
      cases hch'
    · omega

/-- The first stop, and a thread that asks for a breakpoint. -/
def breakAsked : Link where
  world := (World.start .ide (fun _ => []) []).stopped .ide (.mainChunk (txt "a.lua") 1) none
  lock := some (0, .setBreak 5)
  channel := [.setBreak 5]
  readLines := 0
  sent := [.setBreak 5]
  written := []
  returned := []

end LuaIde
