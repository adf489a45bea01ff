import Chip8.Proofs.Iterations

/-!
# Time carried from turn to turn

A turn that goes on running leaves the processor less than a period, and a turn in which the session
does not run leaves it what it had. Only a turn that stops short, at an invalid instruction with a
whole period or more to go, leaves a backlog, and it stays until the session runs again. Without a
backlog a turn makes at most as many cycles as fit into its own time and what is short of a period;
with one it makes more, even after a restart and in no time at all.
-/
namespace Chip8

namespace Host

variable {h : Host}

/-- The turn meets an invalid instruction while another cycle is due. -/
def stopsShort (h : Host) (i : Iteration) : Prop :=
  i.runs = true ∧ (h.turn i).session.mode = .paused ∧
    (h.turn i).cycles < (i.session.cpu.pending + i.frame.micros) / i.session.cpu.period

def leavesBacklog (h : Host) (done : List Iteration) : Prop :=
  ∃ before i after, done = before ++ i :: after ∧ h.stopsShort i ∧ ∀ j ∈ after, j.runs = false

theorem not_leavesBacklog_nil : ¬ h.leavesBacklog [] := by
  rintro ⟨before, i, after, hnil, _⟩
  simp at hnil

theorem leavesBacklog_cons {i : Iteration} {done : List Iteration} :
    h.leavesBacklog (i :: done) ↔
      h.leavesBacklog done ∨ h.stopsShort i ∧ ∀ j ∈ done, j.runs = false := by
  constructor
  · rintro ⟨before, k, after, hsplit, hstops, hafter⟩
    cases before with
    | nil =>
      obtain ⟨rfl, rfl⟩ := List.cons.inj hsplit
      exact .inr ⟨hstops, hafter⟩
    | cons b before =>
      obtain ⟨rfl, rfl⟩ := List.cons.inj hsplit
      exact .inl ⟨before, k, after, rfl, hstops, hafter⟩
  · rintro (⟨before, k, after, rfl, hstops, hafter⟩ | ⟨hstops, hafter⟩)
    · exact ⟨i :: before, k, after, rfl, hstops, hafter⟩
    · exact ⟨[], i, done, rfl, hstops, hafter⟩

theorem leavesBacklog_singleton {i : Iteration} : h.leavesBacklog [i] ↔ h.stopsShort i := by
  simp [leavesBacklog_cons, not_leavesBacklog_nil]

/-- The last turn decides if the session runs in it. -/
theorem leavesBacklog_append_singleton {i : Iteration} {done : List Iteration} :
    h.leavesBacklog (done ++ [i]) ↔ h.stopsShort i ∨ i.runs = false ∧ h.leavesBacklog done := by
  induction done with
  | nil => simp [leavesBacklog_singleton, not_leavesBacklog_nil]
  | cons j done ih =>
    have hstops : h.stopsShort i → i.runs = true := fun hs => hs.1
    simp only [List.cons_append, leavesBacklog_cons, ih, List.mem_append, List.mem_singleton]
    grind

/-- After a turn a whole period is pending if the turn stopped short, or if the session did not run
and it was pending before. -/
theorem period_le_pending_turn {i : Iteration} (hp : 0 < i.session.cpu.period)
    (hc : (h.turn i).collapse = none) :
    i.session.cpu.period ≤ (h.turn i).session.cpu.pending ↔
      h.stopsShort i ∨ i.runs = false ∧ i.session.cpu.period ≤ i.session.cpu.pending := by
  cases hr : i.runs with
  | false =>
    obtain ⟨hcpu, _⟩ := metronomes_of_not_runs (h := h) hr
    simp [hcpu, stopsShort, hr]
  | true =>
    obtain ⟨_, ⟨hmode, hlt, _⟩ | ⟨hmode, htime, _⟩⟩ := cpu_of_runs (h := h) hp hr hc
    · simp [stopsShort, hmode, hlt]
    · -- The time not used up holds a period if one cycle more would have fitted in.
      have hiff : (h.turn i).cycles <
          (i.session.cpu.pending + i.frame.micros) / i.session.cpu.period ↔
            i.session.cpu.period ≤ (h.turn i).session.cpu.pending := by
        rw [← Nat.succ_le_iff, Nat.le_div_iff_mul_le hp, Nat.succ_mul]
        omega
      simp [stopsShort, hr, hmode, hiff]

/-- A whole period is pending if there is a backlog, or if it was pending at the beginning and the
session has not run. -/
theorem period_le_pending_iterations {s : Session} {fs : List Frame}
    {before after : List Iteration} {i : Iteration} (hp : 0 < s.cpu.period)
    (hsplit : h.iterations s fs = before ++ i :: after)
    (hc : ∀ j ∈ before, (h.turn j).collapse = none) :
    i.session.cpu.period = s.cpu.period ∧
      (s.cpu.period ≤ i.session.cpu.pending ↔
        h.leavesBacklog before ∨
          s.cpu.period ≤ s.cpu.pending ∧ ∀ j ∈ before, j.runs = false) := by
  induction before generalizing s fs with
  | nil =>
    cases fs with
    | nil => cases hsplit
    | cons f fs =>
      obtain ⟨rfl, _⟩ := List.cons.inj hsplit
      simp [not_leavesBacklog_nil]
  | cons j before ih =>
    cases fs with
    | nil => cases hsplit
    | cons f fs =>
      obtain ⟨rfl, hrest⟩ := List.cons.inj hsplit
      have hfirst := hc ⟨s, f⟩ List.mem_cons_self
      have hperiod := period_turn (i := ⟨s, f⟩) hp hfirst
      have hstep := period_le_pending_turn (i := ⟨s, f⟩) hp hfirst
      obtain ⟨hsame, hiff⟩ :=
        ih (hperiod ▸ hp) hrest fun k hk => hc k (List.mem_cons_of_mem _ hk)
      refine ⟨hsame.trans hperiod, ?_⟩
      rw [hperiod] at hiff
      rw [hiff, hstep, leavesBacklog_cons]
      simp only [List.mem_cons]
      grind

/-- Before and after each completed iteration of a run less than a period is pending, unless a turn
stopped short at an invalid instruction and the session has not run since. Where that is so before
the iteration, its cycles fit into its time and what is short of a period. -/
theorem no_backlog_unless_stopped_short (h : Host) (rom : Rom) (m : Machine) (hertz : Nat)
    (frames : List Frame) (hclock : 1 ≤ hertz ∧ hertz ≤ 1000000) {before after : List Iteration}
    {i : Iteration} (hsplit : h.completed rom m hertz frames = before ++ i :: after) :
    let period := 1000000 / hertz
    (i.session.cpu.pending < period ↔ ¬ h.leavesBacklog before) ∧
      ((h.turn i).session.cpu.pending < period ↔ ¬ h.leavesBacklog (before ++ [i])) ∧
      (¬ h.leavesBacklog before →
        (h.turn i).cycles ≤ (i.frame.micros + period - 1) / period) ∧
      (h.stopsShort i →
        ∃ w a, (h.turn i).session.machine.step = .error (.invalidInstruction w a)) := by
  intro period
  have hcollapse : ∀ j ∈ before ++ i :: after, (h.turn j).collapse = none :=
    fun j hj => collapse_of_completed (hsplit ▸ hj)
  have hc : (h.turn i).collapse = none := hcollapse i (by simp)
  have hbefore : ∀ j ∈ before, (h.turn j).collapse = none :=
    fun j hj => hcollapse j (List.mem_append_left _ hj)
  have hpos : 0 < (Session.start rom m hertz).cpu.period :=
    Metronome.period_ofFrequency_pos hclock.2
  have hstart : (Session.start rom m hertz).cpu.period = period :=
    Metronome.period_ofFrequency hclock.1
  have hnone : ¬ (Session.start rom m hertz).cpu.period ≤ (Session.start rom m hertz).cpu.pending :=
    Nat.not_le.2 hpos
  obtain ⟨fs, hfs⟩ := exists_completed_eq h rom m hertz frames
  obtain ⟨hperiod, hpending⟩ := period_le_pending_iterations hpos (hfs ▸ hsplit) hbefore
  rw [hstart] at hpos hperiod hpending hnone
  have hp : 0 < i.session.cpu.period := hperiod ▸ hpos
  have hturn := period_le_pending_turn hp hc
  have htime := time_turn_le hp hc
  rw [hperiod] at hturn htime
  have hbacklog : period ≤ i.session.cpu.pending ↔ h.leavesBacklog before := by
    simp [hpending, hnone]
  refine ⟨?_, ?_, ?_, ?_⟩
  · rw [← hbacklog, Nat.not_le]
  · rw [leavesBacklog_append_singleton, ← hbacklog, ← hturn, Nat.not_le]
  · intro hno
    have hlt : i.session.cpu.pending < period :=
      Nat.not_le.1 fun hle => hno (hbacklog.1 hle)
    have helapsed := i.elapsed_le
    rw [Nat.le_div_iff_mul_le hpos]
    omega
  · rintro ⟨hr, hmode, _⟩
    obtain ⟨_, ⟨hrunning, _⟩ | ⟨_, _, hinvalid⟩⟩ := cpu_of_runs (h := h) hp hr hc
    · rw [hrunning] at hmode
      cases hmode
    · exact hinvalid

/-- A run on a machine at an invalid instruction completes its first iteration after one cycle. -/
theorem completed_of_invalid (hno : h.outage = none) (rom : Rom) {m : Machine} {w : UInt16}
    {a : Address} (hs : m.step = .error (.invalidInstruction w a)) (hertz n : Nat)
    (hdue : (Metronome.ofFrequency hertz).period ≤ n / 1000) (frames : List Frame) :
    ∃ i rest, h.completed rom m hertz (⟨n, []⟩ :: frames) = i :: rest ∧ i.frame = ⟨n, []⟩ ∧
      i.session.cpu = .ofFrequency hertz ∧ (h.turn i).cycles = 1 := by
  let i : Iteration := ⟨.start rom m hertz, ⟨n, []⟩⟩
  obtain ⟨_, hc, hcycles, hmode, _⟩ := turn_start_of_invalid (h := h) (i := i) rfl hs hdue
  have hgo : ∀ j ∈ [i], (h.turn j).collapse = none ∧ (h.turn j).session.mode ≠ .quit := by
    simp [hc, hmode]
  have htake : (h.completed rom m hertz (⟨n, []⟩ :: frames)).take 1 = [i] :=
    take_completed (⟨n, []⟩ :: frames) hno (by simp) hgo
  refine ⟨i, (h.completed rom m hertz (⟨n, []⟩ :: frames)).drop 1, ?_, rfl, rfl, hcycles⟩
  have happend := List.take_append_drop 1 (h.completed rom m hertz (⟨n, []⟩ :: frames))
  rw [htake] at happend
  exact happend.symm

/-- An invalid instruction in the only cycle due leaves no backlog. -/
theorem no_backlog_after_last_cycle :
    let h : Host := ⟨none, 0⟩
    let m := Machine.start .invalid .modern (.seeded 0)
    ∃ i rest, h.completed .invalid m 1000 [⟨1500000, []⟩] = i :: rest ∧
      (h.turn i).session.cpu.pending < 1000 ∧ (h.turn i).cycles ≤ 2 := by
  intro h m
  obtain ⟨i, rest, hsplit, hframe, hcpu, hcycles⟩ := completed_of_invalid (h := h) rfl .invalid
    (Machine.step_invalid .modern (.seeded 0)) 1000 1500000 (by decide) []
  have hstops : ¬ h.stopsShort i := by
    rintro ⟨_, _, hlt⟩
    rw [hcycles, hcpu, hframe] at hlt
    exact absurd hlt (by decide)
  obtain ⟨_, hafter, hbound, _⟩ :=
    no_backlog_unless_stopped_short h .invalid m 1000 [⟨1500000, []⟩] (by decide)
      (show _ = [] ++ i :: rest from hsplit)
  have hleft := hbound not_leavesBacklog_nil
  rw [hframe] at hleft
  have hnone : ¬ h.leavesBacklog [i] := fun hb => hstops (leavesBacklog_singleton.1 hb)
  exact ⟨i, rest, hsplit, hafter.2 hnone, hleft⟩

/-- A program that begins with an invalid instruction stops short, and after a restart it makes a
cycle at once on the time that was left. -/
theorem completed_of_invalid_restart (hno : h.outage = none) {rom : Rom} {w : UInt16} {a : Address}
    (hs : ∀ d stream, (Machine.start rom d stream).step = .error (.invalidInstruction w a))
    (d : Dialect) (stream : ByteStream) (hertz n : Nat)
    (hdue : 2 * (Metronome.ofFrequency hertz).period ≤ n / 1000) :
    ∃ i j, (h.completed rom (.start rom d stream) hertz
        [⟨n, []⟩, ⟨0, [.keyDown (some .f5) false]⟩]).take 2 = [i, j] ∧
      (h.turn i).session.cpu.pending = n / 1000 - (Metronome.ofFrequency hertz).period ∧
      j.frame.micros = 0 ∧ (h.turn j).cycles = 1 := by
  let i : Iteration := ⟨.start rom (.start rom d stream) hertz, ⟨n, []⟩⟩
  let j : Iteration := ⟨(h.turn i).session, ⟨0, [.keyDown (some .f5) false]⟩⟩
  obtain ⟨_, hic, _, himode, hrom, hcpu⟩ :=
    turn_start_of_invalid (h := h) (i := i) rfl (hs d stream) (by omega)
  have hjdue : j.session.cpu.period ≤ j.session.cpu.pending + j.frame.micros := by
    simp only [j, hcpu]
    omega
  have hjs : j.heard.machine.step = .error (.invalidInstruction w a) := by
    change (Machine.start (h.turn i).session.rom _ _).step = _
    rw [hrom]
    exact hs _ _
  obtain ⟨hjc, hjcycles, hjmode, _⟩ := turn_of_invalid (h := h) (i := j) rfl hjs hjdue
  have hgo : ∀ k ∈ [i, j], (h.turn k).collapse = none ∧ (h.turn k).session.mode ≠ .quit := by
    simp [hic, himode, hjc, hjmode]
  exact ⟨i, j, take_completed _ hno (Nat.le_refl 2) hgo, by rw [hcpu], Nat.zero_div 1000, hjcycles⟩

/-- A program that begins with an invalid instruction leaves nine periods after a frame of ten, and
after a restart it makes a cycle in a frame without time. -/
theorem backlog_after_invalid_instruction :
    let h : Host := ⟨none, 0⟩
    let m := Machine.start .invalid .modern (.seeded 0)
    ∃ i j, (h.completed .invalid m 1000
        [⟨10000000, []⟩, ⟨0, [.keyDown (some .f5) false]⟩]).take 2 = [i, j] ∧
      (h.turn i).session.cpu.pending = 9000 ∧
      (j.frame.micros + 1000 - 1) / 1000 < (h.turn j).cycles := by
  intro h m
  obtain ⟨i, j, hdone, hpending, hmicros, hcycles⟩ :=
    completed_of_invalid_restart (h := h) rfl Machine.step_invalid .modern (.seeded 0) 1000 10000000
      (by decide)
  exact ⟨i, j, hdone, hpending, by rw [hmicros, hcycles]; decide⟩

end Host

end Chip8
