import Mathlib.Algebra.Ring.Nat
import Chip8.Proofs.TurnOperations

/-!
# Timekeeping over a run

The running time of a run is the time of the frames in which the session runs. Among the operations
of any number of completed iterations there is exactly one count-down for each whole period of sixty
hertz in the running time, whatever the program, the clock, the pauses and the restarts were. There
is at most one step for each period of the processor; there may be fewer, since a machine that waits
for a key drops its time and one that stopped at an invalid instruction keeps it.
-/
namespace Chip8

def runningTime (done : List Iteration) : Nat :=
  ((done.filter Iteration.runs).map fun i => i.frame.nanos / 1000).sum

theorem runningTime_cons (i : Iteration) (done : List Iteration) :
    runningTime (i :: done) = i.elapsed + runningTime done := by
  cases hr : i.runs with
  | false => simp [runningTime, hr, Iteration.elapsed_of_not_runs hr]
  | true => simp [runningTime, hr, Iteration.elapsed_of_runs hr, Frame.micros]

namespace Metronome

/-- What is left of one division is divided with the next amount. -/
theorem div_add_mod_add_div {p : Nat} (hp : 0 < p) (a b : Nat) :
    a / p + (a % p + b) / p = (a + b) / p := by
  have ha : a + b = p * (a / p) + (a % p + b) := by
    have := Nat.div_add_mod a p
    omega
  rw [ha, Nat.mul_add_div hp]

end Metronome

namespace Host

variable {h : Host}

theorem ticks_iterations {s : Session} {fs : List Frame}
    (hlt : s.timers.pending < s.timers.period)
    (hc : ∀ i ∈ h.iterations s fs, (h.turn i).collapse = none) :
    ((h.iterations s fs).map fun i => (h.turn i).ticks).sum =
      (s.timers.pending + runningTime (h.iterations s fs)) / s.timers.period := by
  induction fs generalizing s with
  | nil => simp [iterations, runningTime, Nat.div_eq_of_lt hlt]
  | cons f fs ih =>
    have hp : 0 < s.timers.period := Nat.lt_of_le_of_lt (Nat.zero_le _) hlt
    obtain ⟨hticks, htimers⟩ := timers_turn (i := ⟨s, f⟩) hlt (hc _ List.mem_cons_self)
    have hlt' : (h.turn ⟨s, f⟩).session.timers.pending <
        (h.turn ⟨s, f⟩).session.timers.period := by
      rw [htimers]
      exact Nat.mod_lt _ hp
    have hrest := ih hlt' fun i hi => hc i (List.mem_cons_of_mem _ hi)
    rw [htimers] at hrest
    simp only [iterations, List.map_cons, List.sum_cons, runningTime_cons]
    rw [hticks, hrest, Metronome.div_add_mod_add_div hp, Nat.add_assoc]

theorem cycles_iterations {s : Session} {fs : List Frame} (hp : 0 < s.cpu.period)
    (hc : ∀ i ∈ h.iterations s fs, (h.turn i).collapse = none) :
    ((h.iterations s fs).map fun i => (h.turn i).cycles).sum * s.cpu.period ≤
      s.cpu.pending + runningTime (h.iterations s fs) := by
  induction fs generalizing s with
  | nil => simp [iterations]
  | cons f fs ih =>
    have hfirst := hc ⟨s, f⟩ List.mem_cons_self
    have hperiod := period_turn (i := ⟨s, f⟩) hp hfirst
    have htime := time_turn_le (i := ⟨s, f⟩) hp hfirst
    have hrest := ih (hperiod ▸ hp) fun i hi => hc i (List.mem_cons_of_mem _ hi)
    rw [hperiod] at hrest
    simp only [iterations, List.map_cons, List.sum_cons, runningTime_cons, Nat.add_mul]
    simp only at htime hrest
    omega

theorem countP_isCountDown_flatMap (h : Host) (is : List Iteration) :
    (is.flatMap h.operations).countP Operation.isCountDown =
      (is.map fun i => (h.turn i).ticks).sum := by
  simp only [List.countP_flatMap, ticks_eq_countP]
  rfl

theorem countP_isStep_flatMap (h : Host) (is : List Iteration) :
    (is.flatMap h.operations).countP Operation.isStep =
      (is.map fun i => (h.turn i).cycles).sum := by
  simp only [List.countP_flatMap, cycles_eq_countP]
  rfl

/-- There are as many completed iterations as pictures, and the counters of each account for what it
does to the machine. The operations of the first of them lead to the machine that the last of these
leaves. Among them is one count-down for each 16666 microseconds of running time, and at most one
step, failed or not, for each period of the processor in it. -/
theorem run_keeps_time (h : Host) (rom : Rom) (m : Machine) (hertz : Nat) (frames : List Frame)
    (hclock : 1 ≤ hertz ∧ hertz ≤ 1000000) :
    let all := h.completed rom m hertz frames
    all.length = (h.run rom m hertz frames).showings.length ∧
      (∀ i ∈ all, i.Accounts (h.turn i)) ∧
      ∀ k,
        let done := all.take k
        let ops := done.flatMap h.operations
        (∀ last, done.getLast? = some last → (h.turn last).session.machine = m.afterAll ops) ∧
          ops.countP Operation.isCountDown = runningTime done / 16666 ∧
          ops.countP Operation.isStep ≤ runningTime done / (1000000 / hertz) := by
  intro all
  refine ⟨length_completed h rom m hertz frames,
    fun i hi => accounts_turn (collapse_of_completed hi), ?_⟩
  intro k done ops
  have hcollapse : ∀ i ∈ done, (h.turn i).collapse = none :=
    fun i hi => collapse_of_completed (List.mem_of_mem_take hi)
  have hticks : ops.countP Operation.isCountDown = _ := h.countP_isCountDown_flatMap done
  have hcycles : ops.countP Operation.isStep = _ := h.countP_isStep_flatMap done
  obtain ⟨fs, hfs⟩ := exists_completed_eq h rom m hertz frames
  have hdone : done = h.iterations (.start rom m hertz) (fs.take k) := by
    rw [← take_iterations, ← hfs]
  have hpos : 0 < (Session.start rom m hertz).cpu.period :=
    Metronome.period_ofFrequency_pos hclock.2
  have hperiod : (Session.start rom m hertz).cpu.period = 1000000 / hertz :=
    Metronome.period_ofFrequency hclock.1
  have hcpu : (Session.start rom m hertz).cpu.pending = 0 := rfl
  have htimers : (Session.start rom m hertz).timers = ⟨16666, 0⟩ := rfl
  rw [hticks, hcycles]
  simp only [ops]
  rw [hdone] at hcollapse ⊢
  have hticked := ticks_iterations (by rw [htimers]; decide) hcollapse
  have hcycled := cycles_iterations hpos hcollapse
  rw [htimers, Nat.zero_add] at hticked
  rw [hcpu, Nat.zero_add, ← Nat.le_div_iff_mul_le hpos, hperiod] at hcycled
  exact ⟨fun last hlast => machine_iterations hcollapse hlast, hticked, hcycled⟩

/-- After a first cycle that meets an invalid instruction the next frame passes in a pause, and only
the ticks of the first reach the machine. -/
theorem take_completed_of_invalid (hno : h.outage = none) {rom : Rom} {m : Machine} {w : UInt16}
    {a : Address} (hs : m.step = .error (.invalidInstruction w a)) {hertz n₁ n₂ : Nat}
    (hdue : (Metronome.ofFrequency hertz).period ≤ n₁ / 1000) :
    ∃ first second : Iteration,
      (h.completed rom m hertz [⟨n₁, []⟩, ⟨n₂, []⟩]).take 2 = [first, second] ∧
        first.elapsed = n₁ / 1000 ∧ second.elapsed = 0 ∧ (h.turn second).ticks = 0 ∧
        (h.turn second).session.machine =
          Nat.repeat Machine.countDown (h.turn first).ticks m := by
  let first : Iteration := ⟨.start rom m hertz, ⟨n₁, []⟩⟩
  let second : Iteration := ⟨(h.turn first).session, ⟨n₂, []⟩⟩
  obtain ⟨hruns, hcollapse, _, hmode, _⟩ := turn_start_of_invalid (h := h) (i := first) rfl hs hdue
  have hheard : second.heard.mode = .paused := hmode
  have hstill : second.runs = false := by simp [Iteration.not_runs_iff, hheard]
  obtain ⟨notices, hsecond⟩ := turn_of_not_runs (h := h) hstill
  have hgo : ∀ i ∈ [first, second],
      (h.turn i).collapse = none ∧ (h.turn i).session.mode ≠ .quit := by
    simp [hcollapse, hmode, hsecond, hheard]
  have hmachine : (h.turn first).session.machine =
      Nat.repeat Machine.countDown (h.turn first).ticks m := by
    cases accounts_turn hcollapse with
    | still hr =>
      rw [hr] at hruns
      cases hruns
    | moved _ m' _ htries hm => rw [hm, htries.eq_of_error hs]
  refine ⟨first, second, take_completed [⟨n₁, []⟩, ⟨n₂, []⟩] hno (Nat.le_refl 2) hgo,
    Iteration.elapsed_of_runs hruns, Iteration.elapsed_of_not_runs hstill, by rw [hsecond], ?_⟩
  rw [hsecond, ← hmachine]
  rfl

/-- Twenty milliseconds that end at an invalid instruction count, fifty that pass in the pause
after it do not: there are one count-down and at most ten steps, and a delay of five is now four. -/
theorem run_keeps_time_through_pause :
    let h : Host := ⟨none, 0⟩
    let m : Machine := { Machine.start .invalid .modern (.seeded 0) with delay := 5 }
    let done := (h.completed .invalid m 540 [⟨20000000, []⟩, ⟨50000000, []⟩]).take 2
    let ops := done.flatMap h.operations
    runningTime done = 20000 ∧ ops.countP Operation.isCountDown = 1 ∧
      ops.countP Operation.isStep ≤ 10 ∧
      ∃ last, done.getLast? = some last ∧ (h.turn last).session.machine = m.afterAll ops ∧
        (m.afterAll ops).delay = 4 := by
  intro h m done ops
  have hs : m.step = _ := Machine.step_with_timers (Machine.step_invalid _ _) 5 _
  have hdelay : (Nat.repeat Machine.countDown 1 m).delay = 4 := by
    change (5 : UInt8) - min 5 1 = 4
    decide
  clear_value m
  obtain ⟨first, second, hdone, hfirst, hsecond, hnone, hleft⟩ : ∃ first second : Iteration,
      done = [first, second] ∧ first.elapsed = 20000 ∧ second.elapsed = 0 ∧
        (h.turn second).ticks = 0 ∧ (h.turn second).session.machine =
          Nat.repeat Machine.countDown (h.turn first).ticks m :=
    take_completed_of_invalid rfl hs (by decide)
  have htime : runningTime done = 20000 := by
    rw [hdone, runningTime_cons, runningTime_cons, hfirst, hsecond]
    rfl
  obtain ⟨_, _, hkept⟩ :=
    run_keeps_time h .invalid m 540 [⟨20000000, []⟩, ⟨50000000, []⟩] (by decide)
  obtain ⟨hmachine, hticks, hsteps⟩ := hkept 2
  have hlast : done.getLast? = some second := by rw [hdone]; rfl
  have htick : ops.countP Operation.isCountDown = 1 := hticks.trans (by rw [htime])
  have hone : (h.turn first).ticks = 1 := by
    rw [← htick, countP_isCountDown_flatMap, hdone]
    simp [hnone]
  have hlater : (h.turn second).session.machine = m.afterAll ops := hmachine second hlast
  refine ⟨htime, htick, Nat.le_trans hsteps (by rw [htime]), second, hlast, hlater, ?_⟩
  rw [← hlater, hleft, hone, hdelay]

end Host

end Chip8
