import LuaIde.SuspendRequest

/-! The sockets between the IDE and ldb: what is written on one side, what the kernel accepts of
it and delivers, and what is returned on the other side. -/
namespace LuaIde

open LineText Runs

/-- `Socket::send`, when `::send` has returned this status. -/
def Socket.send (status : ℤ) : Bool := decide (status ≠ -1)

/-- `Socket::recv`, when `::recv` has returned this status and filled the front of `buf`. -/
def Socket.recv (status : ℤ) (chunk : Text) : ℤ × Text :=
  if status = -1 then (0, [])
  else if status = 0 then (0, [])
  else
    let buf := chunk ++ List.replicate (MAXRECV + 1 - chunk.length) '\x00'
    (status, cstr buf)

/-- A use of one of the operators, with what the kernel says to it. -/
inductive ChannelAction where
  | write (s : Text) (status : ℤ)
  | read (status : ℤ)

/-- All that was written and returned, the bytes that were accepted and not delivered yet, and
whether an operator has thrown a `SocketException`. -/
structure Channel where
  written : Text
  inFlight : Text
  returned : Text
  thrown : Bool
deriving DecidableEq

namespace Channel

def start : Channel := ⟨[], [], [], false⟩

/-- `::send` fails or accepts a positive number of bytes, nothing of an empty string. `::recv`
fails, or delivers up to 500 of the accepted bytes in their order. -/
def kernelAllows (c : Channel) : ChannelAction → Prop
  | .write s status => status = -1 ∨ (0 ≤ status ∧ status ≤ s.length ∧ (0 < status ∨ s = []))
  | .read status => status = -1 ∨ status = 0 ∨
      (0 < status ∧ status ≤ MAXRECV ∧ status ≤ c.inFlight.length)

instance (c : Channel) : (a : ChannelAction) → Decidable (c.kernelAllows a)
  | .write _ _ => inferInstanceAs (Decidable (_ ∨ _))
  | .read _ => inferInstanceAs (Decidable (_ ∨ _))

/-- `operator<<` and `operator>>`. -/
def act (c : Channel) : ChannelAction → Channel
  | .write s status =>
    if Socket.send status then
      { c with
        written := c.written ++ s
        inFlight := c.inFlight ++ s.take status.toNat }
    else { c with thrown := true }
  | .read status =>
    let received := Socket.recv status (c.inFlight.take status.toNat)
    if received.1 ≠ 0 then
      { c with
        inFlight := c.inFlight.drop status.toNat
        returned := c.returned ++ received.2 }
    else { c with thrown := true }

def step (c : Channel) (a : ChannelAction) : Option Channel :=
  if c.kernelAllows a then some (c.act a) else none

/-- An operator has thrown, or what is returned is at any time the first part of what was
written, and all of it at the end. -/
def LosesNothing (as : List ChannelAction) (c : Channel) : Prop :=
  c.thrown = true ∨
    ((∀ as' c', as' <+: as → run step start as' = some c' → c'.returned <+: c'.written) ∧
      c.returned = c.written)

/-- The kernel reports a failure, or the end of the stream. -/
def failing : ChannelAction → Prop
  | .write _ status => status = -1
  | .read status => status = -1 ∨ status = 0

/-- The kernel accepts the whole string, and the string has no zero byte. -/
def clean : ChannelAction → Prop
  | .write s status => status = s.length ∧ '\x00' ∉ s
  | .read _ => True

section Steps

variable {c d : Channel} {a : ChannelAction}

theorem act_of_step (h : c.step a = some d) : c.kernelAllows a ∧ d = c.act a := by
  unfold step at h
  split_ifs at h with hok
  exact ⟨hok, (Option.some.inj h).symm⟩

/-- What a read returns is the chunk up to its first zero byte. -/
theorem recv_eq {status : ℤ} (hpos : 0 < status) (chunk : Text) :
    Socket.recv status chunk = (status, cstr chunk) := by
  have hzeros (n : ℕ) : cstr (List.replicate n '\x00') = [] := by
    cases n <;> simp [cstr, List.replicate_succ]
  have hcut (n : ℕ) : cstr (chunk ++ List.replicate n '\x00') = cstr chunk := by
    induction chunk with
    | nil => exact hzeros n
    | cons x chunk ih =>
      simp only [cstr] at ih ⊢
      rw [List.cons_append, List.takeWhile_cons, List.takeWhile_cons, ih]
  rw [Socket.recv, if_neg (by omega), if_neg (by omega)]
  simp only [hcut]

/-- What an operator does: it throws, it writes, or it returns a chunk. -/
theorem step_cases (h : c.step a = some d) :
    (failing a ∧ d = { c with thrown := true }) ∨
      (∃ (s : Text) (n : ℕ), a = .write s n ∧ n ≤ s.length ∧
        d = { c with written := c.written ++ s, inFlight := c.inFlight ++ s.take n }) ∨
      ∃ n : ℕ, a = .read n ∧ 0 < n ∧ n ≤ c.inFlight.length ∧
        d = { c with
          inFlight := c.inFlight.drop n
          returned := c.returned ++ cstr (c.inFlight.take n) } := by
  obtain ⟨hok, rfl⟩ := act_of_step h
  cases a with
  | write s status =>
    by_cases hfail : status = -1
    · left
      subst hfail
      exact ⟨rfl, rfl⟩
    · have hnonneg := hok.resolve_left hfail
      obtain ⟨n, rfl⟩ := Int.eq_ofNat_of_zero_le hnonneg.1
      have hsend : Socket.send n = true := decide_eq_true hfail
      refine .inr (.inl ⟨s, n, rfl, by omega, ?_⟩)
      rw [act, hsend, if_pos rfl, Int.toNat_natCast]
  | read status =>
    by_cases hfail : status = -1 ∨ status = 0
    · left
      refine ⟨hfail, ?_⟩
      rcases hfail with rfl | rfl <;> rfl
    · obtain ⟨hminus, hzero⟩ := not_or.mp hfail
      have hpos := (hok.resolve_left hminus).resolve_left hzero
      obtain ⟨n, rfl⟩ := Int.eq_ofNat_of_zero_le hpos.1.le
      refine .inr (.inr ⟨n, rfl, by omega, by omega, ?_⟩)
      simp only [act, recv_eq hpos.1, Int.toNat_natCast]
      exact if_pos hzero

theorem thrown_step (h : c.step a = some d) :
    d.thrown = true ↔ c.thrown = true ∨ failing a := by
  rcases step_cases h with ⟨hfail, rfl⟩ | ⟨s, n, rfl, -, rfl⟩ | ⟨n, rfl, hpos, -, rfl⟩
  · exact iff_of_true rfl (.inr hfail)
  · have hgood : ¬ failing (.write s n) := by
      simp only [failing]
      omega
    exact (or_iff_left hgood).symm
  · have hgood : ¬ failing (.read n) := by
      simp only [failing]
      omega
    exact (or_iff_left hgood).symm

/-- The bytes that were returned or can still be: a zero byte never is. -/
def kept (c : Channel) : ℕ :=
  c.returned.length + c.inFlight.countP (fun x => decide (x ≠ '\x00'))

theorem length_cstr_le (s : Text) : (cstr s).length ≤ s.countP (fun x => decide (x ≠ '\x00')) := by
  have hall : (cstr s).countP (fun x => decide (x ≠ '\x00')) = (cstr s).length := by
    apply List.countP_eq_length.mpr
    intro x hx
    exact List.mem_takeWhile_imp (p := fun x => decide (x ≠ '\x00')) hx
  rw [← hall]
  exact (List.takeWhile_sublist _).countP_le

/-- Of a string that is cut off or has a zero byte, not every byte is kept. -/
theorem countP_take_lt {s : Text} {n : ℕ} (hn : n ≤ s.length)
    (hdirty : ¬ (n = s.length ∧ '\x00' ∉ s)) :
    (s.take n).countP (fun x => decide (x ≠ '\x00')) < s.length := by
  have hle := List.countP_le_length (p := fun x => decide (x ≠ '\x00')) (l := s.take n)
  rw [List.length_take] at hle
  by_cases hwhole : n = s.length
  · have hz : '\x00' ∈ s := by
      by_contra hz
      exact hdirty ⟨hwhole, hz⟩
    rw [List.take_of_length_le hwhole.ge]
    refine lt_of_le_of_ne List.countP_le_length fun hall => ?_
    simpa using List.countP_eq_length.mp hall _ hz
  · omega

/-- A step never makes up for a byte that is lost. -/
theorem kept_step (h : c.step a = some d) :
    d.kept + c.written.length ≤ c.kept + d.written.length := by
  rcases step_cases h with ⟨-, rfl⟩ | ⟨s, n, -, hn, rfl⟩ | ⟨n, -, -, -, rfl⟩
  · exact le_rfl
  · have hle := List.countP_le_length (p := fun x => decide (x ≠ '\x00')) (l := s.take n)
    rw [List.length_take] at hle
    simp only [kept, List.countP_append, List.length_append]
    omega
  · have hcut := length_cstr_le (c.inFlight.take n)
    have hsplit := congrArg (List.countP (fun x => decide (x ≠ '\x00')))
      (List.take_append_drop n c.inFlight)
    rw [List.countP_append] at hsplit
    simp only [kept, List.length_append]
    omega

/-- A write that is not clean loses one. -/
theorem kept_step_of_not_clean (h : c.step a = some d) (hgood : ¬ failing a) (hdirty : ¬ clean a) :
    d.kept + c.written.length < c.kept + d.written.length := by
  rcases step_cases h with ⟨hfail, -⟩ | ⟨s, n, rfl, hn, rfl⟩ | ⟨n, rfl, -, -, -⟩
  · exact absurd hfail hgood
  · have hlt := countP_take_lt hn fun hclean => hdirty ⟨by omega, hclean.2⟩
    simp only [kept, List.countP_append, List.length_append]
    omega
  · exact absurd trivial hdirty

/-- What was returned and what is in flight are in a row what was written. -/
structure Whole (c : Channel) : Prop where
  row : c.returned ++ c.inFlight = c.written
  noZero : '\x00' ∉ c.inFlight

theorem whole_step (hc : c.Whole) (hclean : clean a) (h : c.step a = some d) : d.Whole := by
  rcases step_cases h with ⟨-, rfl⟩ | ⟨s, n, rfl, hn, rfl⟩ | ⟨n, rfl, -, -, rfl⟩
  · exact ⟨hc.row, hc.noZero⟩
  · obtain ⟨hwhole, hz⟩ := hclean
    have hall : s.take n = s := List.take_of_length_le (by omega)
    refine ⟨?_, ?_⟩
    · simp only [hall, ← hc.row, List.append_assoc]
    · simp only [hall, List.mem_append, not_or]
      exact ⟨hc.noZero, hz⟩
  · have hchunk : cstr (c.inFlight.take n) = c.inFlight.take n :=
      cstr_eq_self fun hz => hc.noZero (List.mem_of_mem_take hz)
    refine ⟨?_, fun hz => hc.noZero (List.mem_of_mem_drop hz)⟩
    simp only [hchunk, List.append_assoc, List.take_append_drop, hc.row]

end Steps

section Runs

variable {c d : Channel} {as : List ChannelAction}

theorem thrown_run (h : run step c as = some d) :
    d.thrown = true ↔ c.thrown = true ∨ ∃ a ∈ as, failing a := by
  induction as generalizing c with
  | nil =>
    obtain rfl := Option.some.inj h
    simp
  | cons a as ih =>
    obtain ⟨u, hu, hd⟩ := Option.bind_eq_some_iff.mp h
    rw [ih hd, thrown_step hu, or_assoc, List.exists_mem_cons_iff]

theorem kept_run (h : run step c as = some d) :
    d.kept + c.written.length ≤ c.kept + d.written.length := by
  apply run_invariant (I := fun d => d.kept + c.written.length ≤ c.kept + d.written.length) ?_
    (fun _ _ => trivial) h le_rfl
  intro u a t hu _ ht
  have hstep := kept_step ht
  omega

theorem whole_run (hclean : ∀ a ∈ as, clean a) (h : run step start as = some d) : d.Whole := by
  apply run_invariant (fun _ _ _ hc hok hs => whole_step hc hok hs) hclean h
  exact ⟨rfl, List.not_mem_nil⟩

/-- Once a byte is lost, what is returned in the end is not what was written. -/
theorem lost_of_not_clean (hgood : ∀ a ∈ as, ¬ failing a) {a : ChannelAction} (ha : a ∈ as)
    (hdirty : ¬ clean a) (h : run step start as = some d) : d.kept < d.written.length := by
  obtain ⟨before, after, rfl⟩ := List.append_of_mem ha
  rw [run_append] at h
  obtain ⟨c, hc, hrest⟩ := Option.bind_eq_some_iff.mp h
  obtain ⟨u, hu, hd⟩ := Option.bind_eq_some_iff.mp hrest
  have hbefore := kept_run hc
  have hlost := kept_step_of_not_clean hu (hgood a ha) hdirty
  have hafter := kept_run hd
  have hstart : start.kept = 0 ∧ start.written.length = 0 := ⟨rfl, rfl⟩
  omega

end Runs

/-- In a run in which everything that was accepted gets delivered, nothing is lost exactly if
the kernel reports a failure, or if it accepts every string whole and none has a zero byte. -/
theorem losesNothing_iff {as : List ChannelAction} {c : Channel}
    (h : run step start as = some c) (hdelivered : c.inFlight = []) :
    LosesNothing as c ↔ (∃ a ∈ as, failing a) ∨ ∀ a ∈ as, clean a := by
  have hthrown : c.thrown = true ↔ ∃ a ∈ as, failing a := by
    rw [thrown_run h]
    exact or_iff_right Bool.false_ne_true
  rw [LosesNothing, hthrown]
  by_cases hfail : ∃ a ∈ as, failing a
  · exact iff_of_true (.inl hfail) (.inl hfail)
  · rw [or_iff_right hfail, or_iff_right hfail]
    constructor
    · -- a byte that is lost once is missing in the end, when nothing is in flight
      rintro ⟨-, hall⟩ a ha
      by_contra hdirty
      have hlost := lost_of_not_clean (fun b hb hf => hfail ⟨b, hb, hf⟩) ha hdirty h
      simp [kept, hdelivered, hall] at hlost
    · intro hclean
      refine ⟨fun as' c' hpre hc' => ?_, ?_⟩
      · have hwhole := whole_run (fun a ha => hclean a (hpre.subset ha)) hc'
        exact ⟨c'.inFlight, hwhole.row⟩
      · have hrow := (whole_run hclean h).row
        rwa [hdelivered, List.append_nil] at hrow

/-- A command that comes in two chunks. -/
theorem losesNothing_twoChunks :
    let as : List ChannelAction := [.write (txt "step\n") 5, .read 2, .read 3]
    ∃ c, run step start as = some c ∧ LosesNothing as c := by
  intro as
  let c : Channel := ⟨txt "step\n", [], txt "step\n", false⟩
  have hrun : run step start as = some c := by decide
  refine ⟨c, hrun, (losesNothing_iff hrun rfl).mpr (.inr ?_)⟩
  simp only [as, List.forall_mem_cons]
  exact ⟨⟨rfl, by decide⟩, trivial, trivial, by simp⟩

/-- The kernel takes four of five bytes, and `operator<<` does not throw. -/
theorem partialWrite_loses :
    let as : List ChannelAction := [.write (txt "step\n") 4, .read 4]
    ∃ c, run step start as = some c ∧ c.inFlight = [] ∧ ¬ LosesNothing as c := by
  intro as
  let c : Channel := ⟨txt "step\n", [], txt "step", false⟩
  have hrun : run step start as = some c := by decide
  refine ⟨c, hrun, rfl, ?_⟩
  rintro (hthrown | ⟨-, hall⟩)
  · cases hthrown
  · exact absurd hall (by decide)

end Channel

end LuaIde
