import Chip8.Proofs.BurstTime
import Chip8.Report

/-!
# The iterations of a run

An iteration is one turn of a run, given by the session it begins with and the frame it plays. The
iterations that a run completes are those whose pictures it shows: in none of them the turn fails.

A turn moves the two metronomes of a session only if the session runs once its events are handled.
The time of the frame is then added to both. The timers give back every whole period. The processor
gives back one period for each cycle; what is left is less than a period, unless the turn pauses at
an invalid instruction, and then no time is lost.
-/
namespace Chip8

structure Iteration where
  session : Session
  frame : Frame

namespace Iteration

def heard (i : Iteration) : Session := i.session.handleAll i.frame.events

def runs (i : Iteration) : Bool := i.heard.mode == .running

theorem runs_iff {i : Iteration} : i.runs = true ↔ i.heard.mode = .running := beq_iff_eq

theorem not_runs_iff {i : Iteration} : i.runs = false ↔ i.heard.mode ≠ .running := by
  simp [runs]

def elapsed (i : Iteration) : Nat := if i.runs then i.frame.micros else 0

theorem elapsed_of_runs {i : Iteration} (h : i.runs = true) : i.elapsed = i.frame.micros :=
  if_pos h

theorem elapsed_of_not_runs {i : Iteration} (h : i.runs = false) : i.elapsed = 0 := by
  simp [elapsed, h]

theorem elapsed_le (i : Iteration) : i.elapsed ≤ i.frame.micros := by
  cases h : i.runs <;> simp [elapsed, h]

end Iteration

namespace Host

def turn (h : Host) (i : Iteration) : Turn := i.session.turn i.frame h.patience

def iterations (h : Host) (s : Session) : List Frame → List Iteration
  | [] => []
  | f :: fs => ⟨s, f⟩ :: h.iterations (h.turn ⟨s, f⟩).session fs

/-- The iterations of a run that come to their end: there is one for each showing. -/
def completed (h : Host) (rom : Rom) (m : Machine) (hertz : Nat) (frames : List Frame) :
    List Iteration :=
  (h.iterations (.start rom m hertz) (frames ++ [.closing])).take
    (h.run rom m hertz frames).showings.length

def strokes (h : Host) (i : Iteration) : List Raster.Stroke :=
  (h.turn i).session.machine.raster.strokes

variable {h : Host}

theorem take_iterations (s : Session) (fs : List Frame) (n : Nat) :
    (h.iterations s fs).take n = h.iterations s (fs.take n) := by
  induction fs generalizing s n with
  | nil => simp [iterations]
  | cons f fs ih =>
    cases n with
    | zero => rfl
    | succ n => simp [iterations, ih]

/-- The pictures shown are those of the first iterations, and none of these fails. -/
theorem showings_play (drawn : Nat) (pending : List Notice) (s : Session) (fs : List Frame) :
    let r := h.play drawn pending s fs
    let done := (h.iterations s fs).take r.showings.length
    r.showings.map Showing.strokes = done.map h.strokes ∧
      ∀ i ∈ done, (h.turn i).collapse = none := by
  induction fs generalizing drawn pending s with
  | nil => simp [play, iterations, Report.ended]
  | cons f fs ih =>
    cases hc : (s.turn f h.patience).collapse with
    | some c => simp [play_cons, hc, Report.ended]
    | none =>
      cases ho : h.outage? drawn (s.turn f h.patience).session.machine.raster with
      | some o => simp [play_cons, hc, ho, Report.ended]
      | none =>
        by_cases hq : (s.turn f h.patience).session.mode = .quit
        · simp [play_cons, hc, ho, hq, Report.ended, Report.cons, iterations, strokes, turn]
        · simp only [play_cons, hc, ho, hq, if_false, Report.cons, iterations, List.length_cons,
            List.take_succ_cons, List.map_cons, List.mem_cons, forall_eq_or_imp]
          obtain ⟨hshown, hnone⟩ := ih
            (drawn + (s.turn f h.patience).session.machine.raster.boxes.length) []
            (s.turn f h.patience).session
          exact ⟨congrArg _ hshown, hc, hnone⟩

theorem le_length_showings_play (hno : h.outage = none) (drawn : Nat) (pending : List Notice)
    (s : Session) (fs : List Frame) {k : Nat} (hk : k ≤ fs.length)
    (hgo : ∀ i ∈ h.iterations s (fs.take k),
      (h.turn i).collapse = none ∧ (h.turn i).session.mode ≠ .quit) :
    k ≤ (h.play drawn pending s fs).showings.length := by
  induction fs generalizing drawn pending s k with
  | nil => exact Nat.le_trans hk (Nat.zero_le _)
  | cons f fs ih =>
    cases k with
    | zero => exact Nat.zero_le _
    | succ k =>
      have hfirst := hgo ⟨s, f⟩ List.mem_cons_self
      simp only [turn] at hfirst
      simp only [play_cons, hfirst.1, outage?_of_none hno, if_neg hfirst.2, Report.cons,
        List.length_cons]
      apply Nat.succ_le_succ
      exact ih _ _ _ (Nat.le_of_succ_le_succ hk) fun i hi => hgo i (List.mem_cons_of_mem _ hi)

theorem run_cases (h : Host) (rom : Rom) (m : Machine) (hertz : Nat) (frames : List Frame) :
    (h.run rom m hertz frames).showings = [] ∨
      h.run rom m hertz frames =
        h.play 0 [.running hertz] (.start rom m hertz) (frames ++ [.closing]) := by
  unfold run
  split
  · exact .inl rfl
  · exact .inr rfl

theorem showings_run (h : Host) (rom : Rom) (m : Machine) (hertz : Nat) (frames : List Frame) :
    (h.run rom m hertz frames).showings.map Showing.strokes =
      (h.completed rom m hertz frames).map h.strokes := by
  rcases h.run_cases rom m hertz frames with hnone | hplay
  · simp [completed, hnone]
  · rw [completed, hplay]
    exact (showings_play _ _ _ _).1

theorem length_completed (h : Host) (rom : Rom) (m : Machine) (hertz : Nat)
    (frames : List Frame) :
    (h.completed rom m hertz frames).length = (h.run rom m hertz frames).showings.length := by
  have hlength := congrArg List.length (showings_run h rom m hertz frames)
  simpa using hlength.symm

theorem exists_completed_eq (h : Host) (rom : Rom) (m : Machine) (hertz : Nat)
    (frames : List Frame) :
    ∃ fs, h.completed rom m hertz frames = h.iterations (.start rom m hertz) fs :=
  ⟨_, take_iterations _ _ _⟩

theorem take_completed {rom : Rom} {m : Machine} {hertz : Nat} (frames : List Frame)
    (hno : h.outage = none) {k : Nat} (hk : k ≤ frames.length)
    (hgo : ∀ i ∈ h.iterations (.start rom m hertz) (frames.take k),
      (h.turn i).collapse = none ∧ (h.turn i).session.mode ≠ .quit) :
    (h.completed rom m hertz frames).take k =
      h.iterations (.start rom m hertz) (frames.take k) := by
  have hscript : (frames ++ [Frame.closing]).take k = frames.take k :=
    List.take_append_of_le_length hk
  have hrun : h.run rom m hertz frames =
      h.play 0 [.running hertz] (.start rom m hertz) (frames ++ [.closing]) := by
    simp only [run, hno]
  have hlength : k ≤ (h.run rom m hertz frames).showings.length := by
    rw [hrun]
    apply le_length_showings_play hno
    · simp only [List.length_append]
      omega
    · rwa [hscript]
  rw [completed, List.take_take, Nat.min_eq_left hlength, take_iterations, hscript]

theorem collapse_of_completed {rom : Rom} {m : Machine} {hertz : Nat} {frames : List Frame}
    {i : Iteration} (hi : i ∈ h.completed rom m hertz frames) :
    (h.turn i).collapse = none := by
  rcases h.run_cases rom m hertz frames with hnone | hplay
  · simp [completed, hnone] at hi
  · rw [completed, hplay] at hi
    exact (showings_play _ _ _ _).2 i hi

end Host

namespace Machine

/-- The timers have no part in a fault. -/
theorem step_with_timers {m : Machine} {f : Fault} (h : m.step = .error f) (delay sound : UInt8) :
    ({ m with delay := delay, sound := sound } : Machine).step = .error f := by
  obtain ⟨hw, hfetch⟩ := step_eq_error_iff.1 h
  exact step_eq_error_iff.2 ⟨hw, hfetch⟩

theorem step_repeat_countDown {m : Machine} {f : Fault} (h : m.step = .error f) (n : Nat) :
    (Nat.repeat countDown n m).step = .error f := by
  induction n with
  | zero => exact h
  | succ n ih => exact step_with_timers ih _ _

end Machine

namespace Session

/-- A turn of a running session that does not fail is a burst, after which the timers tick. -/
theorem elapse_of_collapse_none {s : Session} {micros patience : Nat}
    (hc : (s.elapse micros patience).collapse = none) :
    ∃ b v, Burst.ofMachine s.machine (s.cpu.add micros) patience = some (b, v) ∧
      ((v = .running ∧ (s.elapse micros patience).session.mode = s.mode) ∨
        (v = .paused ∧ (s.elapse micros patience).session.mode = .paused)) ∧
      (s.elapse micros patience).session.machine =
        Nat.repeat Machine.countDown (s.elapse micros patience).ticks b.machine ∧
      (s.elapse micros patience).session.cpu = b.cpu ∧
      (s.elapse micros patience).cycles = b.cycles ∧
      ((s.elapse micros patience).ticks, (s.elapse micros patience).session.timers) =
        (s.timers.add micros).drain := by
  cases hb : Burst.ofMachine s.machine (s.cpu.add micros) patience with
  | none => simp [elapse, hb] at hc
  | some r =>
    obtain ⟨b, v⟩ := r
    refine ⟨b, v, rfl, ?_⟩
    cases v with
    | running => simp [elapse, hb, settle]
    | paused => simp [elapse, hb, settle]
    | fatal f => simp [elapse, hb] at hc

end Session

namespace Host

variable {h : Host} {i : Iteration}

theorem turn_of_runs (hr : i.runs = true) :
    ∃ notices, h.turn i =
      { i.heard.elapse i.frame.micros h.patience with notices := notices } :=
  ⟨_, Session.turn_of_running (Iteration.runs_iff.1 hr) h.patience⟩

theorem turn_of_not_runs (hr : i.runs = false) :
    ∃ notices, h.turn i = ⟨i.heard, 0, 0, notices, none⟩ :=
  ⟨_, Session.turn_of_still (Iteration.not_runs_iff.1 hr) h.patience⟩

theorem metronomes_of_not_runs (hr : i.runs = false) :
    (h.turn i).session.cpu = i.session.cpu ∧ (h.turn i).session.timers = i.session.timers ∧
      (h.turn i).cycles = 0 ∧ (h.turn i).ticks = 0 := by
  obtain ⟨notices, ht⟩ := turn_of_not_runs (h := h) hr
  simp [ht, Iteration.heard]

theorem timers_of_runs (hp : 0 < i.session.timers.period) (hr : i.runs = true)
    (hc : (h.turn i).collapse = none) :
    (h.turn i).ticks =
        (i.session.timers.pending + i.frame.micros) / i.session.timers.period ∧
      (h.turn i).session.timers =
        ⟨i.session.timers.period,
          (i.session.timers.pending + i.frame.micros) % i.session.timers.period⟩ := by
  obtain ⟨notices, ht⟩ := turn_of_runs (h := h) hr
  rw [ht] at hc ⊢
  obtain ⟨_, _, _, _, _, _, _, hdrain⟩ := Session.elapse_of_collapse_none hc
  have hp' : 0 < (i.heard.timers.add i.frame.micros).period := by
    simpa [Iteration.heard] using hp
  rw [Metronome.drain_eq hp'] at hdrain
  simpa [Iteration.heard, Metronome.add] using hdrain

/-- The processor gives one period for each cycle. A turn that goes on running keeps less than a
period; one that pauses loses no time and leaves the machine at an invalid instruction. -/
theorem cpu_of_runs (hp : 0 < i.session.cpu.period) (hr : i.runs = true)
    (hc : (h.turn i).collapse = none) :
    (h.turn i).session.cpu.period = i.session.cpu.period ∧
      (((h.turn i).session.mode = .running ∧
          (h.turn i).session.cpu.pending < i.session.cpu.period ∧
          (h.turn i).cycles * i.session.cpu.period + (h.turn i).session.cpu.pending ≤
            i.session.cpu.pending + i.frame.micros) ∨
        ((h.turn i).session.mode = .paused ∧
          (h.turn i).cycles * i.session.cpu.period + (h.turn i).session.cpu.pending =
            i.session.cpu.pending + i.frame.micros ∧
          ∃ w a, (h.turn i).session.machine.step = .error (.invalidInstruction w a))) := by
  obtain ⟨notices, ht⟩ := turn_of_runs (h := h) hr
  rw [ht] at hc ⊢
  obtain ⟨b, v, hb, hv, hmachine, hcpu, hcycles, _⟩ := Session.elapse_of_collapse_none hc
  have hheard : i.heard.cpu = i.session.cpu := Session.cpu_handleAll _ _
  have hp' : 0 < (i.session.cpu.add i.frame.micros).period := hp
  rw [hheard] at hb
  obtain ⟨hperiod, hcases⟩ := Burst.ofMachine_cases hp' hb
  simp only [hcpu, hcycles, hmachine]
  refine ⟨hperiod, ?_⟩
  rcases hcases with ⟨rfl, hlt, htime⟩ | ⟨f, rfl, hf, htime⟩
  · rcases hv with ⟨_, hmode⟩ | ⟨hv, _⟩
    · exact .inl ⟨hmode.trans (Iteration.runs_iff.1 hr), hlt, htime⟩
    · cases hv
  · rcases hv with ⟨hv, _⟩ | ⟨hv, hmode⟩
    · exact absurd hv (Verdict.ofFault_ne_running f)
    · obtain ⟨w, a, rfl⟩ := Verdict.ofFault_eq_paused_iff.1 hv
      exact .inr ⟨hmode, htime, w, a, Machine.step_repeat_countDown hf _⟩

/-- The timers tick once for each whole period of the time they have and keep the remainder. -/
theorem timers_turn (hlt : i.session.timers.pending < i.session.timers.period)
    (hc : (h.turn i).collapse = none) :
    (h.turn i).ticks = (i.session.timers.pending + i.elapsed) / i.session.timers.period ∧
      (h.turn i).session.timers =
        ⟨i.session.timers.period,
          (i.session.timers.pending + i.elapsed) % i.session.timers.period⟩ := by
  cases hr : i.runs with
  | false =>
    obtain ⟨_, htimers, _, hticks⟩ := metronomes_of_not_runs (h := h) hr
    rw [htimers, hticks, Iteration.elapsed_of_not_runs hr, Nat.add_zero, Nat.div_eq_of_lt hlt,
      Nat.mod_eq_of_lt hlt]
    exact ⟨rfl, rfl⟩
  | true =>
    rw [Iteration.elapsed_of_runs hr]
    exact timers_of_runs (Nat.lt_of_le_of_lt (Nat.zero_le _) hlt) hr hc

theorem period_turn (hp : 0 < i.session.cpu.period) (hc : (h.turn i).collapse = none) :
    (h.turn i).session.cpu.period = i.session.cpu.period := by
  cases hr : i.runs with
  | false =>
    obtain ⟨hcpu, _⟩ := metronomes_of_not_runs (h := h) hr
    rw [hcpu]
  | true => exact (cpu_of_runs hp hr hc).1

/-- What the cycles use up and what is left pending come from the time there was. -/
theorem time_turn_le (hp : 0 < i.session.cpu.period) (hc : (h.turn i).collapse = none) :
    (h.turn i).cycles * i.session.cpu.period + (h.turn i).session.cpu.pending ≤
      i.session.cpu.pending + i.elapsed := by
  cases hr : i.runs with
  | false =>
    obtain ⟨hcpu, _, hcycles, _⟩ := metronomes_of_not_runs (h := h) hr
    simp [hcpu, hcycles]
  | true =>
    rw [Iteration.elapsed_of_runs hr]
    obtain ⟨_, ⟨_, _, htime⟩ | ⟨_, htime, _⟩⟩ := cpu_of_runs (h := h) hp hr hc
    · exact htime
    · exact Nat.le_of_eq htime

/-- A turn whose first cycle meets an invalid instruction pauses and keeps the rest of its time. -/
theorem turn_of_invalid (hr : i.runs = true) {w : UInt16} {a : Address}
    (hs : i.heard.machine.step = .error (.invalidInstruction w a))
    (hle : i.session.cpu.period ≤ i.session.cpu.pending + i.frame.micros) :
    (h.turn i).collapse = none ∧ (h.turn i).cycles = 1 ∧
      (h.turn i).session.mode = .paused ∧ (h.turn i).session.rom = i.session.rom ∧
      (h.turn i).session.cpu =
        ⟨i.session.cpu.period, i.session.cpu.pending + i.frame.micros - i.session.cpu.period⟩ := by
  obtain ⟨notices, ht⟩ := turn_of_runs (h := h) hr
  have hcpu : i.heard.cpu = i.session.cpu := Session.cpu_handleAll _ _
  have hrom : i.heard.rom = i.session.rom := Session.rom_handleAll _ _
  have hle' : (i.heard.cpu.add i.frame.micros).period ≤
      (i.heard.cpu.add i.frame.micros).pending := by
    rw [hcpu]
    exact hle
  obtain ⟨burstNotices, hb⟩ := Burst.ofMachine_of_fault hle' hs h.patience
  simp only [ht, Session.elapse, hb, Verdict.ofFault, Session.settle]
  exact ⟨trivial, trivial, trivial, hrom, by rw [hcpu]; rfl⟩

theorem turn_start_of_invalid {rom : Rom} {m : Machine} {w : UInt16} {a : Address} {hertz n : Nat}
    (hi : i = ⟨.start rom m hertz, ⟨n, []⟩⟩) (hs : m.step = .error (.invalidInstruction w a))
    (hdue : (Metronome.ofFrequency hertz).period ≤ n / 1000) :
    i.runs = true ∧ (h.turn i).collapse = none ∧ (h.turn i).cycles = 1 ∧
      (h.turn i).session.mode = .paused ∧ (h.turn i).session.rom = rom ∧
      (h.turn i).session.cpu =
        ⟨(Metronome.ofFrequency hertz).period,
          n / 1000 - (Metronome.ofFrequency hertz).period⟩ := by
  subst hi
  have hpending : (Metronome.ofFrequency hertz).pending + n / 1000 = n / 1000 := Nat.zero_add _
  obtain ⟨hc, hcycles, hmode, hrom, hcpu⟩ :=
    turn_of_invalid (h := h) (i := ⟨.start rom m hertz, ⟨n, []⟩⟩) rfl hs (hpending.symm ▸ hdue)
  exact ⟨rfl, hc, hcycles, hmode, hrom, hcpu.trans (by rw [← hpending]; rfl)⟩

end Host

end Chip8
