import LuaIde.LineHook
import LuaIde.Runs

/-! For which instructions the line hook runs: in every run of the interpreter, and for every
activation of a Lua function, exactly where the activation enters a stretch of one line. -/
namespace LuaIde

open LineText DecimalText

def Entry.id : Entry → ℕ
  | .enter id _ _ => id
  | .word id _ _ => id
  | .hook id _ _ => id

def Entry.wordOf (id : ℕ) : Entry → Option (ℕ × Bool)
  | .word i pos executed => if i = id then some (pos, executed) else none
  | _ => none

def Entry.lineOf (id : ℕ) : Entry → Option CInt
  | .hook i _ currentline => if i = id then some currentline else none
  | _ => none

/-- The words an activation read, each with whether it was executed. -/
def wordsOf (log : List Entry) (id : ℕ) : List (ℕ × Bool) := log.filterMap (Entry.wordOf id)

/-- The lines the hook ran at for an activation. -/
def linesOf (log : List Entry) (id : ℕ) : List CInt := log.filterMap (Entry.lineOf id)

/-- The second word is further on in the code and of the same line. -/
def follows (f : Proto) (v w : ℕ × Bool) : Bool :=
  decide (v.1 < w.1) && decide (getline f v.1 = getline f w.1)

/-- The lines of the instructions that start a stretch of words of one line. -/
def entered (f : Proto) (ws : List (ℕ × Bool)) : List CInt :=
  ((Stretches.starts (follows f) ws).filter Prod.snd).map (fun w => getline f w.1)

/-- The program counter behind the last word. -/
def lastPc (ws : List (ℕ × Bool)) : ℕ := (ws.getLast?.map (fun w => w.1+1)).getD 0

/-- The value of `allowhook` while these C functions wait. -/
def allowed : List Waiting → Bool
  | [] => true
  | w :: ws => w.pending.isPcall && allowed ws

/-- Every C function puts back the value of `allowhook` it found. -/
def Restores : List Waiting → Prop
  | [] => True
  | w :: ws =>
    (match w.pending with
      | .callhook => allowed ws = true
      | .gctm oldah => oldah = allowed ws
      | .pcall old_allowhooks => old_allowhooks = allowed ws) ∧ Restores ws

/-- The C functions that wait for the callers of an activation. -/
def outside (waiting : List Waiting) (depth : ℕ) : List Waiting :=
  waiting.filter (fun w => decide (w.depth < depth))

/-- An activation of a Lua function has been noted, with the word it read last. -/
def Noted (log : List Entry) (waiting : List Waiting) (depth savedpc : ℕ) (c : Activation) : Prop :=
  ∀ f, c.func = some f →
    savedpc = lastPc (wordsOf log c.id) ∧ .enter c.id f (allowed (outside waiting depth)) ∈ log

def AllNoted (log : List Entry) (waiting : List Waiting) : List Activation → Prop
  | [] => True
  | c :: cs => Noted log waiting cs.length c.savedpc c ∧ AllNoted log waiting cs

/-- What holds between two steps. -/
structure HookInvariant (L : Thread) : Prop where
  depths : (L.callers.length :: L.waiting.map Waiting.depth).Pairwise (fun m n => n ≤ m)
  allowhook : L.allowhook = allowed L.waiting
  restores : Restores L.waiting
  ids : (L.fresh :: (L.ci :: L.callers).map Activation.id).Pairwise (fun m n => n < m)
  logged : ∀ e ∈ L.log, e.id < L.fresh
  running : Noted L.log L.waiting L.callers.length L.savedpc L.ci
  callers : AllNoted L.log L.waiting L.callers
  -- `currentpc` has stored the saved program counter before the hook goes on
  stored : ∀ w ∈ L.waiting, w.depth = L.callers.length → (∀ b, w.pending ≠ .gctm b) →
    L.ci.func.isSome → L.ci.savedpc = L.savedpc
  first : L.ci.func.isSome → L.savedpc = 0 → L.pc = 0
  unique : ∀ id f a g b, Entry.enter id f a ∈ L.log → Entry.enter id g b ∈ L.log → f = g ∧ a = b
  lines : ∀ id f a, Entry.enter id f a ∈ L.log →
    linesOf L.log id = if a then entered f (wordsOf L.log id) else []
  hooks : ∀ id f line, Entry.hook id f line ∈ L.log → ∃ a, Entry.enter id f a ∈ L.log

/-! ### The log -/

theorem wordsOf_append (log es : List Entry) (id : ℕ) :
    wordsOf (log ++ es) id = wordsOf log id ++ wordsOf es id := List.filterMap_append

theorem linesOf_append (log es : List Entry) (id : ℕ) :
    linesOf (log ++ es) id = linesOf log id ++ linesOf es id := List.filterMap_append

theorem wordsOf_other {es : List Entry} {id : ℕ} (h : ∀ e ∈ es, e.id ≠ id) :
    wordsOf es id = [] := by
  apply List.filterMap_eq_nil_iff.mpr
  intro e he
  have hne := h e he
  cases e with
  | word i pos executed => exact if_neg hne
  | enter | hook => rfl

theorem linesOf_other {es : List Entry} {id : ℕ} (h : ∀ e ∈ es, e.id ≠ id) :
    linesOf es id = [] := by
  apply List.filterMap_eq_nil_iff.mpr
  intro e he
  have hne := h e he
  cases e with
  | hook i f line => exact if_neg hne
  | enter | word => rfl

@[simp] theorem wordsOf_word (id pos : ℕ) (x : Bool) :
    wordsOf [.word id pos x] id = [(pos, x)] := by
  simp [wordsOf, Entry.wordOf]

@[simp] theorem linesOf_hook (id : ℕ) (f : Proto) (line : CInt) :
    linesOf [.hook id f line] id = [line] := by
  simp [linesOf, Entry.lineOf]

/-! ### Stretches -/

/-- The operands of an instruction enter nothing. -/
theorem entered_operand (f : Proto) (ws : List (ℕ × Bool)) (pos : ℕ) :
    entered f (ws ++ [(pos, false)]) = entered f ws := by
  have hstart : (Stretches.starts (follows f) (ws ++ [(pos, false)])).filter Prod.snd =
      (Stretches.starts (follows f) ws).filter Prod.snd := by
    cases hl : ws.getLast? with
    | none =>
      rw [Stretches.starts_concat_of_not (by simp [hl]), List.filter_append]
      simp
    | some w =>
      cases hf : follows f w (pos, false) with
      | true => rw [Stretches.starts_concat_of_rel hl hf]
      | false =>
        rw [Stretches.starts_concat_of_not (by simpa [hl] using hf), List.filter_append]
        simp
  rw [entered, entered, hstart]

theorem entered_operands (f : Proto) (ws : List (ℕ × Bool)) (ps : List ℕ) :
    entered f (ws ++ ps.map (fun pos => (pos, false))) = entered f ws := by
  induction ps generalizing ws with
  | nil => simp
  | cons pos ps ih =>
    rw [List.map_cons, List.append_cons, ih, entered_operand]

/-- The test of `traceexec` is whether the instruction starts a stretch. -/
theorem entered_instruction (f : Proto) (ws : List (ℕ × Bool)) (pc : ℕ)
    (hfirst : ws = [] → pc = 0) :
    entered f (ws ++ [(pc, true)]) = entered f ws ++
      if pc = 0 ∨ pc+1 ≤ lastPc ws ∨ getline f pc ≠ getline f (lastPc ws-1)
        then [getline f pc] else [] := by
  have hadd (h : ∀ w ∈ ws.getLast?, follows f w (pc, true) = false) :
      entered f (ws ++ [(pc, true)]) = entered f ws ++ [getline f pc] := by
    simp only [entered, Stretches.starts_concat_of_not h, List.filter_append, List.map_append]
    rfl
  cases hl : ws.getLast? with
  | none =>
    have hws : ws = [] := List.getLast?_eq_none_iff.mp hl
    rw [if_pos (.inl (hfirst hws))]
    apply hadd
    simp [hl]
  | some w =>
    have hlast : lastPc ws = w.1+1 := by rw [lastPc, hl]; rfl
    rw [hlast, Nat.add_sub_cancel]
    cases hf : follows f w (pc, true) with
    | true =>
      have hboth : w.1 < pc ∧ getline f w.1 = getline f pc := by simpa [follows] using hf
      have hno : ¬ (pc = 0 ∨ pc+1 ≤ w.1+1 ∨ getline f pc ≠ getline f w.1) := by
        rintro (h | h | h)
        · omega
        · omega
        · exact h hboth.2.symm
      rw [if_neg hno, List.append_nil, entered, entered, Stretches.starts_concat_of_rel hl hf]
    | false =>
      rw [if_pos, hadd]
      · intro v hv
        rw [hl] at hv
        rwa [← Option.some.inj hv]
      · by_contra hno
        push Not at hno
        have hyes : follows f w (pc, true) = true := by
          rw [follows, hno.2.2]
          simp only [decide_true, Bool.and_true, decide_eq_true_eq]
          omega
        rw [hf] at hyes
        cases hyes

/-! ### Activations and waiting functions -/

theorem AllNoted.mem {log : List Entry} {waiting : List Waiting} {gone cs : List Activation}
    {c : Activation} (h : AllNoted log waiting (gone ++ c :: cs)) :
    Noted log waiting cs.length c.savedpc c ∧ AllNoted log waiting cs := by
  induction gone with
  | nil => exact h
  | cons g gone ih => exact ih h.2

theorem Noted.mono {log log' : List Entry} {waiting waiting' : List Waiting} {n s : ℕ}
    {c : Activation} (h : Noted log waiting n s c) (hlog : log ⊆ log')
    (hwords : wordsOf log' c.id = wordsOf log c.id)
    (hout : outside waiting' n = outside waiting n) : Noted log' waiting' n s c := by
  intro f hf
  obtain ⟨hs, he⟩ := h f hf
  rw [hwords, hout]
  exact ⟨hs, hlog he⟩

theorem AllNoted.mono {log log' : List Entry} {waiting waiting' : List Waiting}
    {cs : List Activation} (h : AllNoted log waiting cs) (hlog : log ⊆ log')
    (hwords : ∀ c ∈ cs, wordsOf log' c.id = wordsOf log c.id)
    (hout : ∀ n < cs.length, outside waiting' n = outside waiting n) :
    AllNoted log' waiting' cs := by
  induction cs with
  | nil => trivial
  | cons c cs ih =>
    refine ⟨h.1.mono hlog (hwords c List.mem_cons_self) (hout _ (Nat.lt_succ_self _)), ?_⟩
    apply ih h.2
    · intro d hd
      exact hwords d (List.mem_cons_of_mem c hd)
    · intro n hn
      exact hout n (Nat.lt_succ_of_lt hn)

/-- A function that waits for the activation itself is not outside of it. -/
theorem outside_cons_of_le {w : Waiting} {ws : List Waiting} {n : ℕ} (h : n ≤ w.depth) :
    outside (w :: ws) n = outside ws n :=
  List.filter_cons_of_neg (by simpa using h)

theorem outside_append_of_le {dropped ws : List Waiting} {n : ℕ}
    (h : ∀ w ∈ dropped, n ≤ w.depth) : outside (dropped ++ ws) n = outside ws n := by
  induction dropped with
  | nil => rfl
  | cons w dropped ih =>
    rw [List.cons_append, outside_cons_of_le (h w List.mem_cons_self)]
    exact ih (fun v hv => h v (List.mem_cons_of_mem w hv))

theorem outside_eq_self {ws : List Waiting} {n : ℕ} (h : ∀ w ∈ ws, w.depth < n) :
    outside ws n = ws :=
  List.filter_eq_self.mpr (fun w hw => by simpa using h w hw)

theorem Restores.tail {dropped ws : List Waiting} (h : Restores (dropped ++ ws)) :
    Restores ws := by
  induction dropped with
  | nil => exact h
  | cons w dropped ih => exact ih h.2

namespace HookInvariant

variable {L : Thread}

theorem depth_le (h : HookInvariant L) {w : Waiting} (hw : w ∈ L.waiting) :
    w.depth ≤ L.callers.length :=
  List.rel_of_pairwise_cons h.depths (List.mem_map_of_mem hw)

theorem depth_lt (h : HookInvariant L) (hbusy : L.busy = false) {w : Waiting}
    (hw : w ∈ L.waiting) : w.depth < L.callers.length := by
  have hne : w.depth ≠ L.callers.length := by
    intro heq
    have hyes : L.busy = true := List.any_eq_true.mpr ⟨w, hw, by simpa using heq⟩
    rw [hbusy] at hyes
    cases hyes
  exact lt_of_le_of_ne (h.depth_le hw) hne

theorem id_lt (h : HookInvariant L) {c : Activation} (hc : c ∈ L.ci :: L.callers) :
    c.id < L.fresh :=
  List.rel_of_pairwise_cons h.ids (List.mem_map_of_mem hc)

theorem caller_id_ne (h : HookInvariant L) {c : Activation} (hc : c ∈ L.callers) :
    c.id ≠ L.ci.id := by
  have hids := (List.pairwise_cons.mp h.ids).2
  exact Nat.ne_of_lt (List.rel_of_pairwise_cons hids (List.mem_map_of_mem hc))

/-- The running function has been noted with the present value of `allowhook`. -/
theorem running_enter (h : HookInvariant L) (hbusy : L.busy = false) {f : Proto}
    (hf : L.ci.func = some f) : .enter L.ci.id f L.allowhook ∈ L.log := by
  have hout := outside_eq_self (fun w hw => h.depth_lt hbusy hw)
  rw [h.allowhook]
  simpa only [hout] using (h.running f hf).2

/-- The running function reads words, and the hook may run for it. -/
theorem extend (h : HookInvariant L) {f : Proto} (hf : L.ci.func = some f)
    (hbusy : L.busy = false) {es : List Entry} (hid : ∀ e ∈ es, e.id = L.ci.id)
    (henter : ∀ id g a, Entry.enter id g a ∉ es)
    (hhook : ∀ id g line, Entry.hook id g line ∈ es → g = f) {savedpc pc : ℕ}
    (hsaved : savedpc = lastPc (wordsOf (L.log ++ es) L.ci.id))
    (hfirst : savedpc = 0 → pc = 0)
    (hlines : linesOf (L.log ++ es) L.ci.id =
      if L.allowhook then entered f (wordsOf (L.log ++ es) L.ci.id) else []) :
    HookInvariant { L with savedpc := savedpc, pc := pc, log := L.log ++ es } := by
  have hold (id : ℕ) (g : Proto) (a : Bool) (he : Entry.enter id g a ∈ L.log ++ es) :
      Entry.enter id g a ∈ L.log :=
    (List.mem_append.mp he).resolve_right (henter id g a)
  have hwords (id : ℕ) (hne : id ≠ L.ci.id) : wordsOf (L.log ++ es) id = wordsOf L.log id := by
    have hother : wordsOf es id = [] := by
      apply wordsOf_other
      intro e he
      rw [hid e he]
      exact hne.symm
    rw [wordsOf_append, hother, List.append_nil]
  constructor
  · exact h.depths
  · exact h.allowhook
  · exact h.restores
  · exact h.ids
  · intro e he
    rcases List.mem_append.mp he with he | he
    · exact h.logged e he
    · rw [hid e he]
      exact h.id_lt List.mem_cons_self
  · intro g hg
    exact ⟨hsaved, List.mem_append_left _ (h.running g hg).2⟩
  · apply h.callers.mono (List.subset_append_left _ _)
    · intro c hc
      exact hwords c.id (h.caller_id_ne hc)
    · intro n _
      rfl
  · intro w hw hdepth
    exact absurd hdepth (Nat.ne_of_lt (h.depth_lt hbusy hw))
  · intro _
    exact hfirst
  · intro id g a g' b he he'
    exact h.unique id g a g' b (hold _ _ _ he) (hold _ _ _ he')
  · intro id g a he
    by_cases hi : id = L.ci.id
    · rw [hi] at he ⊢
      obtain ⟨rfl, rfl⟩ := h.unique _ _ _ _ _ (hold _ _ _ he) (h.running_enter hbusy hf)
      exact hlines
    · have hother : linesOf es id = [] := by
        apply linesOf_other
        intro e he
        rw [hid e he]
        exact Ne.symm hi
      rw [hwords id hi, linesOf_append, hother, List.append_nil]
      exact h.lines id g a (hold _ _ _ he)
  · intro id g line he
    rcases List.mem_append.mp he with he | he
    · obtain ⟨a, ha⟩ := h.hooks id g line he
      exact ⟨a, List.mem_append_left _ ha⟩
    · obtain rfl := hhook id g line he
      obtain rfl : id = L.ci.id := hid _ he
      exact ⟨_, List.mem_append_left _ (h.running_enter hbusy hf)⟩

/-- `currentpc` stores the saved program counter. -/
theorem store (h : HookInvariant L) :
    HookInvariant { L with ci := { L.ci with savedpc := L.savedpc } } :=
  { h with stored := fun _ _ _ _ _ => rfl, ids := h.ids, running := h.running }

/-- A C function begins to wait. -/
theorem wait (h : HookInvariant L) {p : Pending}
    (hp : Restores (⟨p, L.callers.length⟩ :: L.waiting))
    (hstored : (∀ b, p ≠ .gctm b) → L.ci.func.isSome → L.ci.savedpc = L.savedpc) :
    HookInvariant { L with
      waiting := ⟨p, L.callers.length⟩ :: L.waiting
      allowhook := p.isPcall && L.allowhook } := by
  have hout (n : ℕ) (hn : n ≤ L.callers.length) :
      outside (⟨p, L.callers.length⟩ :: L.waiting) n = outside L.waiting n :=
    outside_cons_of_le hn
  constructor
  · refine List.pairwise_cons.mpr ⟨?_, ?_⟩
    · intro n hn
      rcases List.mem_cons.mp hn with rfl | hn
      · exact le_refl _
      · exact List.rel_of_pairwise_cons h.depths hn
    · exact h.depths
  · simp only [allowed, h.allowhook]
  · exact hp
  · exact h.ids
  · exact h.logged
  · exact h.running.mono (List.Subset.refl _) rfl (hout _ (le_refl _))
  · apply h.callers.mono (List.Subset.refl _) (fun _ _ => rfl)
    intro n hn
    exact hout n hn.le
  · intro w hw hdepth hgc hsome
    rcases List.mem_cons.mp hw with rfl | hw
    · exact hstored hgc hsome
    · exact h.stored w hw hdepth hgc hsome
  · exact h.first
  · exact h.unique
  · exact h.lines
  · exact h.hooks

/-- It comes to its end. -/
theorem resume (h : HookInvariant L) {w : Waiting} {ws : List Waiting}
    (hw : L.waiting = w :: ws) (hdepth : w.depth = L.callers.length) :
    HookInvariant { L with waiting := ws, allowhook := allowed ws } := by
  have hsub (v : Waiting) (hv : v ∈ ws) : v ∈ L.waiting := by
    rw [hw]
    exact List.mem_cons_of_mem w hv
  have hout (n : ℕ) (hn : n ≤ L.callers.length) : outside ws n = outside L.waiting n := by
    rw [hw, outside_cons_of_le (hdepth ▸ hn)]
  constructor
  · have hd := h.depths
    rw [hw] at hd
    exact hd.sublist ((List.sublist_cons_self _ _).cons_cons _)
  · rfl
  · have hr := h.restores
    rw [hw] at hr
    exact hr.2
  · exact h.ids
  · exact h.logged
  · exact h.running.mono (List.Subset.refl _) rfl (hout _ (le_refl _))
  · apply h.callers.mono (List.Subset.refl _) (fun _ _ => rfl)
    intro n hn
    exact hout n hn.le
  · intro v hv
    exact h.stored v (hsub v hv)
  · exact h.first
  · exact h.unique
  · exact h.lines
  · exact h.hooks

/-- The activation that begins has not been noted before. -/
theorem fresh_enter (h : HookInvariant L) {g : Proto} {a : Bool} :
    Entry.enter L.fresh g a ∉ L.log :=
  fun he => absurd (h.logged _ he) (lt_irrefl _)

theorem wordsOf_fresh (h : HookInvariant L) : wordsOf L.log L.fresh = [] :=
  wordsOf_other (fun e he => Nat.ne_of_lt (h.logged e he))

/-- A new activation on top of these callers. -/
theorem enter (h : HookInvariant L) (func : Option Proto) {callers : List Activation}
    (hlength : ∀ w ∈ L.waiting, w.depth < callers.length)
    (hids : (L.fresh :: callers.map Activation.id).Pairwise (fun m n => n < m))
    (hnoted : AllNoted L.log L.waiting callers) {savedpc pc : ℕ}
    (hpc : func.isSome → savedpc = 0 ∧ pc = 0) :
    HookInvariant { L with
      ci := { func := func, savedpc := 0, id := L.fresh }
      callers := callers
      savedpc := savedpc
      pc := pc
      fresh := L.fresh+1
      log := L.log ++ (func.map (fun f => Entry.enter L.fresh f L.allowhook)).toList } := by
  have hnew (e : Entry) (he : e ∈ (func.map (fun f => Entry.enter L.fresh f L.allowhook)).toList) :
      ∃ f, func = some f ∧ e = .enter L.fresh f L.allowhook := by
    obtain ⟨f, hf, rfl⟩ := Option.map_eq_some_iff.mp (Option.mem_toList.mp he)
    exact ⟨f, hf, rfl⟩
  have hwords (id : ℕ) : wordsOf (func.map (fun f => Entry.enter L.fresh f L.allowhook)).toList id =
      [] := by
    cases func <;> rfl
  have hlines (id : ℕ) : linesOf (func.map (fun f => Entry.enter L.fresh f L.allowhook)).toList id =
      [] := by
    cases func <;> rfl
  constructor
  · refine List.pairwise_cons.mpr ⟨?_, (List.pairwise_cons.mp h.depths).2⟩
    intro n hn
    obtain ⟨w, hw, rfl⟩ := List.mem_map.mp hn
    exact (hlength w hw).le
  · exact h.allowhook
  · exact h.restores
  · refine List.pairwise_cons.mpr ⟨?_, hids⟩
    intro n hn
    rcases List.mem_cons.mp hn with rfl | hn
    · exact Nat.lt_succ_self _
    · exact Nat.lt_succ_of_lt (List.rel_of_pairwise_cons hids hn)
  · intro e he
    rcases List.mem_append.mp he with he | he
    · exact Nat.lt_succ_of_lt (h.logged e he)
    · obtain ⟨f, -, rfl⟩ := hnew e he
      exact Nat.lt_succ_self _
  · intro f hf
    have hf' : func = some f := hf
    refine ⟨?_, ?_⟩
    · rw [wordsOf_append, hwords, List.append_nil, h.wordsOf_fresh]
      exact (hpc (by rw [hf']; rfl)).1
    · apply List.mem_append_right
      rw [outside_eq_self hlength, hf', h.allowhook]
      exact List.mem_singleton_self _
  · apply hnoted.mono (List.subset_append_left _ _)
    · intro c _
      rw [wordsOf_append, hwords, List.append_nil]
    · intro n _
      rfl
  · intro w hw hdepth
    exact absurd hdepth (Nat.ne_of_lt (hlength w hw))
  · intro hsome _
    exact (hpc hsome).2
  · intro id f a g b he he'
    rcases List.mem_append.mp he with he | he
    · rcases List.mem_append.mp he' with he' | he'
      · exact h.unique id f a g b he he'
      · obtain ⟨f', -, heq⟩ := hnew _ he'
        obtain ⟨rfl, -⟩ := Entry.enter.inj heq
        exact absurd he h.fresh_enter
    · obtain ⟨f', hf', heq⟩ := hnew _ he
      obtain ⟨rfl, rfl, rfl⟩ := Entry.enter.inj heq
      rcases List.mem_append.mp he' with he' | he'
      · exact absurd he' h.fresh_enter
      · obtain ⟨g', hg', heq'⟩ := hnew _ he'
        obtain ⟨-, rfl, rfl⟩ := Entry.enter.inj heq'
        exact ⟨Option.some.inj (hf'.symm.trans hg'), rfl⟩
  · intro id f a he
    rw [linesOf_append, wordsOf_append, hlines, hwords, List.append_nil, List.append_nil]
    rcases List.mem_append.mp he with he | he
    · exact h.lines id f a he
    · obtain ⟨f', -, heq⟩ := hnew _ he
      obtain ⟨rfl, -, -⟩ := Entry.enter.inj heq
      have hnoLines : linesOf L.log L.fresh = [] :=
        linesOf_other (fun e he => Nat.ne_of_lt (h.logged e he))
      rw [hnoLines, h.wordsOf_fresh]
      cases a <;> rfl
  · intro id f line he
    rcases List.mem_append.mp he with he | he
    · obtain ⟨a, ha⟩ := h.hooks id f line he
      exact ⟨a, List.mem_append_left _ ha⟩
    · obtain ⟨f', -, heq⟩ := hnew _ he
      cases heq

/-- Control goes back to an activation, and to the functions that wait for it or for its
callers. -/
theorem back (h : HookInvariant L) (gone : List Activation) (dropped : List Waiting)
    {callers : List Activation} {ci : Activation} {waiting : List Waiting}
    (hci : L.ci :: L.callers = gone ++ ci :: callers)
    (hwaiting : L.waiting = dropped ++ waiting)
    (hdropped : ∀ w ∈ dropped, callers.length ≤ w.depth)
    (hkept : ∀ w ∈ waiting, w.depth ≤ callers.length)
    (hsaved : ci.func.isSome → gone = [] → ci.savedpc = L.savedpc) :
    HookInvariant { L with
      ci := ci
      callers := callers
      savedpc := ci.savedpc
      pc := ci.savedpc
      allowhook := allowed waiting
      waiting := waiting } := by
  have hout (n : ℕ) (hn : n ≤ callers.length) : outside waiting n = outside L.waiting n := by
    rw [hwaiting, outside_append_of_le (fun w hw => hn.trans (hdropped w hw))]
  have hnoted : Noted L.log L.waiting callers.length ci.savedpc ci ∧
      AllNoted L.log L.waiting callers := by
    cases gone with
    | nil =>
      obtain ⟨hhead, htail⟩ := List.cons.inj hci
      rw [← hhead, ← htail]
      refine ⟨?_, h.callers⟩
      intro f hf
      have heq := hsaved (by rw [← hhead, hf]; rfl) rfl
      rw [← hhead] at heq
      rw [heq]
      exact h.running f hf
    | cons g gone =>
      have hcallers := h.callers
      rw [(List.cons.inj hci).2] at hcallers
      exact hcallers.mem
  constructor
  · refine List.pairwise_cons.mpr ⟨?_, ?_⟩
    · intro n hn
      obtain ⟨w, hw, rfl⟩ := List.mem_map.mp hn
      exact hkept w hw
    · have hd := (List.pairwise_cons.mp h.depths).2
      rw [hwaiting, List.map_append] at hd
      exact (List.pairwise_append.mp hd).2.1
  · rfl
  · have hr := h.restores
    rw [hwaiting] at hr
    exact hr.tail
  · have hids := h.ids
    rw [hci, List.map_append] at hids
    exact hids.sublist ((List.sublist_append_right _ _).cons_cons _)
  · exact h.logged
  · exact hnoted.1.mono (List.Subset.refl _) rfl (hout _ (le_refl _))
  · apply hnoted.2.mono (List.Subset.refl _) (fun _ _ => rfl)
    intro n hn
    exact hout n hn.le
  · intro _ _ _ _ _
    rfl
  · intro _ h0
    exact h0
  · exact h.unique
  · exact h.lines
  · exact h.hooks

/-- The next instruction, and the hook where `traceexec` calls it. -/
theorem fetch (h : HookInvariant L) {f : Proto} (hf : L.ci.func = some f)
    (hbusy : L.busy = false) :
    HookInvariant (({ L with
      pc := L.pc+1
      log := L.log ++ [.word L.ci.id L.pc true] } : Thread).traceexec f) := by
  have hsome : L.ci.func.isSome := by rw [hf]; rfl
  obtain ⟨hsaved, hnoted⟩ := h.running f hf
  have henter := h.running_enter hbusy hf
  have hold := h.lines _ _ _ henter
  have hword (es : List Entry) (hes : wordsOf es L.ci.id = []) :
      wordsOf (L.log ++ (.word L.ci.id L.pc true :: es)) L.ci.id =
        wordsOf L.log L.ci.id ++ [(L.pc, true)] := by
    rw [List.append_cons, wordsOf_append, wordsOf_append, hes, List.append_nil, wordsOf_word]
  have hfirst : wordsOf L.log L.ci.id = [] → L.pc = 0 := by
    intro hws
    apply h.first hsome
    rw [hsaved, hws]
    rfl
  have hentered := entered_instruction f _ L.pc hfirst
  rw [← hsaved] at hentered
  have hlast (es : List Entry) (hes : wordsOf es L.ci.id = []) :
      L.pc+1 = lastPc (wordsOf (L.log ++ (.word L.ci.id L.pc true :: es)) L.ci.id) := by
    rw [hword es hes, lastPc, List.getLast?_concat]
    rfl
  -- without a call of the hook
  have hquiet (hno : ¬ (L.allowhook = true ∧ (L.pc = 0 ∨ L.pc+1 ≤ L.savedpc ∨
      getline f L.pc ≠ getline f (L.savedpc-1)))) :
      HookInvariant { L with
        savedpc := L.pc+1
        pc := L.pc+1
        log := L.log ++ [.word L.ci.id L.pc true] } := by
    apply h.extend hf hbusy
    · intro e he
      rw [List.mem_singleton.mp he]
      rfl
    · simp
    · simp
    · exact hlast [] rfl
    · intro h0
      cases h0
    · have hnoLine : linesOf [.word L.ci.id L.pc true] L.ci.id = [] := rfl
      rw [hword [] rfl, linesOf_append, hnoLine, List.append_nil, hold, hentered]
      cases ha : L.allowhook with
      | false => rfl
      | true =>
        rw [ha] at hno
        rw [if_neg (fun hc => hno ⟨rfl, hc⟩), List.append_nil]
  simp only [Thread.traceexec, Nat.add_sub_cancel]
  split_ifs with hc
  · cases ha : L.allowhook with
    | false =>
      have hcall := hquiet (by simp [ha])
      rw [ha] at hcall
      simpa only [Thread.callhook, Bool.false_eq_true, if_false] using hcall
    | true =>
      -- the hook finds the line of the instruction, and waits
      have hcall : HookInvariant { L with
          savedpc := L.pc+1
          pc := L.pc+1
          log := L.log ++ [.word L.ci.id L.pc true, .hook L.ci.id f (getline f L.pc)] } := by
        apply h.extend hf hbusy
        · intro e he
          simp only [List.mem_cons, List.not_mem_nil, or_false] at he
          rcases he with rfl | rfl
          · rfl
          · rfl
        · simp
        · intro id g line he
          simp only [List.mem_cons, List.not_mem_nil, or_false, reduceCtorEq, false_or,
            Entry.hook.injEq] at he
          exact he.2.1
        · exact hlast _ rfl
        · intro h0
          cases h0
        · have hline : linesOf [.word L.ci.id L.pc true, .hook L.ci.id f (getline f L.pc)] L.ci.id =
              [getline f L.pc] := by
            rw [linesOf, List.filterMap_cons_none rfl]
            exact linesOf_hook _ _ _
          rw [hword _ rfl, linesOf_append, hline, hold, hentered, ha, if_pos hc]
          rfl
      have hwait := hcall.store.wait (p := .callhook)
        ⟨by rw [← h.allowhook, ha], h.restores⟩ (fun _ _ => rfl)
      simpa [Thread.callhook, Thread.getinfo, List.append_assoc, Pending.isPcall] using hwait
  · exact hquiet (fun hyes => hc hyes.2)

/-- The functions that wait for longer than a `luaD_pcall`, and for less long. -/
theorem split_waiting (h : HookInvariant L) {p : Waiting → Bool} {w : Waiting}
    {ws : List Waiting} (hw : L.waiting.dropWhile p = w :: ws) :
    L.waiting = L.waiting.takeWhile p ++ w :: ws ∧
      (∀ v ∈ L.waiting.takeWhile p, w.depth ≤ v.depth) ∧ ∀ v ∈ ws, v.depth ≤ w.depth := by
  have heq : L.waiting = L.waiting.takeWhile p ++ w :: ws := by
    rw [← hw, List.takeWhile_append_dropWhile]
  have hd := (List.pairwise_cons.mp h.depths).2
  rw [heq, List.map_append, List.map_cons, List.pairwise_append] at hd
  refine ⟨heq, ?_, ?_⟩
  · intro v hv
    exact hd.2.2 _ (List.mem_map_of_mem hv) _ List.mem_cons_self
  · intro v hv
    exact List.rel_of_pairwise_cons hd.2.1 (List.mem_map_of_mem hv)

/-- The operands of an `OP_CLOSURE`. -/
theorem closure (h : HookInvariant L) {f : Proto} (hf : L.ci.func = some f)
    (hbusy : L.busy = false) (hpc : L.pc = L.savedpc) (h0 : L.savedpc ≠ 0) (nup : ℕ) :
    HookInvariant { L with
      pc := L.pc+nup
      savedpc := L.pc+nup
      log := L.log ++ (List.range' L.pc nup).map (fun pos => .word L.ci.id pos false) } := by
  have hwords : wordsOf ((List.range' L.pc nup).map (fun pos => .word L.ci.id pos false)) L.ci.id =
      (List.range' L.pc nup).map (fun pos => (pos, false)) := by
    rw [wordsOf, List.filterMap_map, ← List.filterMap_eq_map]
    apply List.filterMap_congr
    intro pos _
    simp [Entry.wordOf]
  have hlines : linesOf ((List.range' L.pc nup).map (fun pos => .word L.ci.id pos false)) L.ci.id =
      [] := by
    rw [linesOf, List.filterMap_map, List.filterMap_eq_nil_iff]
    intro pos _
    rfl
  apply h.extend hf hbusy
  · intro e he
    obtain ⟨pos, -, rfl⟩ := List.mem_map.mp he
    rfl
  · simp
  · simp
  · rw [wordsOf_append, hwords]
    cases nup with
    | zero =>
      rw [List.range'_zero, List.map_nil, List.append_nil, Nat.add_zero, hpc]
      exact (h.running f hf).1
    | succ n =>
      rw [List.range'_concat, List.map_append, ← List.append_assoc, lastPc]
      simp only [List.map_cons, List.map_nil, List.getLast?_concat]
      simp
      omega
  · intro hz
    exact absurd (Nat.eq_zero_of_add_eq_zero_right hz) (hpc ▸ h0)
  · rw [linesOf_append, wordsOf_append, hlines, hwords, List.append_nil, entered_operands]
    exact h.lines _ _ _ (h.running_enter hbusy hf)

end HookInvariant

theorem Pending.isHook_iff (p : Pending) : p.isHook = true ↔ p = .callhook := by
  cases p <;> simp [Pending.isHook]

theorem Thread.hooked_iff (L : Thread) : L.hooked = true ↔
    ∃ w, L.waiting.head? = some w ∧ w.pending = .callhook ∧ w.depth = L.callers.length := by
  rw [Thread.hooked]
  cases L.waiting.head? with
  | none => simp
  | some w => simp [Pending.isHook_iff]

theorem hookInvariant_start : HookInvariant Thread.start where
  depths := by simp [Thread.start]
  allowhook := rfl
  restores := trivial
  ids := by simp [Thread.start]
  logged := by simp [Thread.start]
  running := fun f hf => by cases hf
  callers := trivial
  stored := by simp [Thread.start]
  first := fun _ _ => rfl
  unique := by simp [Thread.start]
  lines := by simp [Thread.start]
  hooks := by simp [Thread.start]

/-- Every step of the interpreter keeps it. -/
theorem hookInvariant_step (L L' : Thread) (s : VmStep) (h : HookInvariant L)
    (hs : vmStep L s = some L') : HookInvariant L' := by
  cases s with
  | fetch =>
    simp only [vmStep] at hs
    split at hs
    · next f hf =>
      split_ifs at hs with hc
      rw [← Option.some.inj hs]
      exact h.fetch hf hc.1
    · cases hs
  | jump pc =>
    simp only [vmStep] at hs
    split_ifs at hs with hc
    rw [← Option.some.inj hs]
    exact { h with first := fun _ h0 => absurd h0 hc.2.2 }
  | closure =>
    simp only [vmStep] at hs
    split at hs
    · next nup hn =>
      split_ifs at hs with hc
      obtain ⟨f, hf, -⟩ := Option.bind_eq_some_iff.mp hn
      rw [← Option.some.inj hs]
      exact h.closure hf hc.1 hc.2.2 hc.2.1 nup
    · cases hs
  | call func =>
    simp only [vmStep] at hs
    split_ifs at hs with hc
    rw [← Option.some.inj hs]
    apply h.enter func
    · intro w hw
      exact Nat.lt_succ_of_le (h.depth_le hw)
    · exact h.ids
    · exact ⟨h.running, h.callers⟩
    · intro hsome
      simp [hsome]
  | tailcall f =>
    simp only [vmStep] at hs
    split_ifs at hs with hc
    rw [← Option.some.inj hs]
    apply h.enter (some f)
    · intro w hw
      exact h.depth_lt hc.1 hw
    · exact h.ids.sublist ((List.sublist_cons_self _ _).cons_cons _)
    · exact h.callers
    · intro _
      exact ⟨rfl, rfl⟩
  | ret =>
    simp only [vmStep] at hs
    split at hs
    · next ci callers hcallers =>
      split_ifs at hs with hc
      rw [← Option.some.inj hs, h.allowhook]
      apply h.back [L.ci] []
      · rw [hcallers]
        rfl
      · rfl
      · intro w hw
        cases hw
      · intro w hw
        have hlt := h.depth_lt hc hw
        rw [hcallers] at hlt
        exact Nat.le_of_lt_succ hlt
      · intro _ hnil
        cases hnil
    · cases hs
  | hookReturn =>
    simp only [vmStep] at hs
    split at hs
    · next depth waiting hw =>
      split_ifs at hs with hc
      have hr := h.restores
      rw [hw] at hr
      rw [← Option.some.inj hs]
      have hresume := h.resume hw hc
      rw [show allowed waiting = true from hr.1] at hresume
      exact hresume
    · cases hs
  | gctm =>
    simp only [vmStep] at hs
    split_ifs at hs with hc
    rw [← Option.some.inj hs]
    exact h.wait (p := .gctm L.allowhook) ⟨h.allowhook, h.restores⟩ (fun hno => absurd rfl (hno _))
  | gctmReturn =>
    simp only [vmStep] at hs
    split at hs
    · next oldah depth waiting hw =>
      split_ifs at hs with hc
      have hr := h.restores
      rw [hw] at hr
      rw [← Option.some.inj hs, hr.1]
      exact h.resume hw hc
    · cases hs
  | pcall =>
    simp only [vmStep] at hs
    split_ifs at hs with hc
    have hwait := h.wait (p := .pcall L.allowhook) ⟨h.allowhook, h.restores⟩ (by
      intro _ hsome
      rcases hc with hc | hc
      · rw [Option.isNone_iff_eq_none.mp hc] at hsome
        cases hsome
      · obtain ⟨w, hw, hp, hdepth⟩ := L.hooked_iff.mp hc
        exact h.stored w (List.mem_of_mem_head? hw) hdepth (by simp [hp]) hsome)
    rw [← Option.some.inj hs]
    simpa [Pending.isPcall] using hwait
  | pcallReturn =>
    simp only [vmStep] at hs
    split at hs
    · next b depth waiting hw =>
      split_ifs at hs with hc
      rw [← Option.some.inj hs, h.allowhook, hw]
      exact h.resume hw hc
    · cases hs
  | throw =>
    simp only [vmStep, Thread.unwind] at hs
    split at hs
    · next b depth waiting hw =>
      split at hs
      · next ci callers hci =>
        obtain ⟨hwaiting, hafter⟩ := h.split_waiting hw
        have hdepth : depth ≤ L.callers.length := h.depth_le (w := ⟨.pcall b, depth⟩) (by
          rw [hwaiting]
          simp)
        have hlength : callers.length = depth := by
          have hlen := congrArg List.length hci
          simp only [List.length_drop, List.length_cons] at hlen
          omega
        have hr := h.restores
        rw [hwaiting] at hr
        rw [← Option.some.inj hs, show b = allowed waiting from hr.tail.1]
        apply h.back ((L.ci :: L.callers).take (L.callers.length-depth))
          (L.waiting.takeWhile (fun w => !w.pending.isPcall) ++ [⟨.pcall b, depth⟩])
        · rw [← hci, List.take_append_drop]
        · simpa using hwaiting
        · intro w hmem
          rw [hlength]
          rcases List.mem_append.mp hmem with hmem | hmem
          · exact hafter.1 w hmem
          · rw [List.mem_singleton.mp hmem]
        · rw [hlength]
          exact hafter.2
        · intro hsome hgone
          -- the function that failed did not leave the activation
          have hzero : L.callers.length-depth = 0 := by
            have hlen := congrArg List.length hgone
            simp only [List.length_take, List.length_cons, List.length_nil] at hlen
            omega
          rw [hzero, List.drop_zero] at hci
          obtain ⟨rfl, rfl⟩ := List.cons.inj hci
          apply h.stored ⟨.pcall b, depth⟩
          · rw [hwaiting]
            simp
          · exact hlength.symm
          · simp
          · exact hsome
      · cases hs
    · cases hs

theorem hookInvariant_run {steps : List VmStep} {L : Thread}
    (hrun : Runs.run vmStep .start steps = some L) : HookInvariant L := by
  have hreaches : Runs.Reaches vmStep (fun _ _ => True) .start L :=
    Runs.reaches_of_run (fun _ _ _ => trivial) hrun
  apply hreaches.invariant _ hookInvariant_start
  intro s a t hs _ hst
  exact hookInvariant_step s t a hs hst

/-- Over every run of the interpreter, through calls, returns, tail calls, errors, finalizers
and what the hook itself does: for an activation that began with hooks allowed the hook runs
exactly at the instructions that start a stretch of words of one line, in their order, and for
any other it never runs. -/
theorem hook_runs_where_lines_start (steps : List VmStep) (L : Thread)
    (hrun : Runs.run vmStep .start steps = some L) (id : ℕ) (f : Proto) (a : Bool)
    (he : .enter id f a ∈ L.log) :
    linesOf L.log id = if a then entered f (wordsOf L.log id) else [] :=
  (hookInvariant_run hrun).lines id f a he

/-- A body of two lines that jumps back to its start. -/
def twoLines : Proto where
  k := []
  code := [0, 0, 0]
  p := []
  lineinfo := [1, 1, 2]
  locvars := []
  upvalues := []
  source := txt "@loop.lua"
  linedefined := 0
  lastlinedefined := 0
  nups := 0
  numparams := 0
  is_vararg := 0
  maxstacksize := 2

/-- One turn through the loop and the beginning of the next. -/
def oneTurn : List VmStep :=
  [.call (some twoLines), .fetch, .hookReturn, .fetch, .fetch, .hookReturn, .jump 0, .fetch]

theorem hook_runs_where_lines_start_oneTurn :
    ∃ L, Runs.run vmStep .start oneTurn = some L ∧ linesOf L.log 1 = [1, 2, 1] := by
  refine ⟨_, rfl, ?_⟩
  rw [hook_runs_where_lines_start oneTurn _ rfl 1 twoLines true List.mem_cons_self]
  rfl

end LuaIde
