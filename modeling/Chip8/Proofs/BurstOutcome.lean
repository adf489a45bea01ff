import Chip8.Proofs.BurstTime

/-!
# Where a burst stops

A burst with a positive period has as many beats as whole periods are pending. It steps its machine
until the first of three things: a step fails though a beat is left for it, the machine waits for a
key, or the beats are used up. A wait counts also when it is entered on the last beat. The machine
at that point, the verdict and the time left pending follow from which of the three it is.
-/
namespace Chip8

namespace Machine

variable {m m₁ m' : Machine} {beats j : Nat}

theorem stepped?_succ_of_error {f : Fault} (h : m.step = .error f) (n : Nat) :
    m.stepped? (n + 1) = none := by
  simp only [stepped?, h]

/-- A burst with the given beats can stop after `j` steps, which lead from `m` to `m'`. -/
def StopsAt (m : Machine) (beats j : Nat) (m' : Machine) : Prop :=
  m.stepped? j = some m' ∧
    ((j < beats ∧ m'.isWaiting = false ∧ ∃ f, m'.step = .error f) ∨
      (j ≤ beats ∧ m'.isWaiting = true) ∨
      j = beats)

def StopsFirstAt (m : Machine) (beats j : Nat) (m' : Machine) : Prop :=
  m.StopsAt beats j m' ∧ ∀ i < j, ∀ mi, ¬ m.StopsAt beats i mi

theorem stopsFirstAt_zero (h : m.StopsAt beats 0 m') : m.StopsFirstAt beats 0 m' :=
  ⟨h, fun i hi => absurd hi (Nat.not_lt_zero i)⟩

/-- A step takes one beat, and stopping after it is stopping from where it leads. -/
theorem stopsAt_succ_iff (h : m.step = .ok m₁) :
    m.StopsAt (beats + 1) (j + 1) m' ↔ m₁.StopsAt beats j m' := by
  rw [StopsAt, StopsAt, stepped?_succ_of_ok h, Nat.add_lt_add_iff_right, Nat.add_le_add_iff_right,
    Nat.add_right_cancel_iff]

theorem not_stopsAt_zero (hw : m.isWaiting = false) (h : m.step = .ok m₁) :
    ¬ m.StopsAt (beats + 1) 0 m' := by
  rintro ⟨hm, hstop⟩
  cases hm
  rcases hstop with ⟨_, _, f, hf⟩ | ⟨_, hw'⟩ | hbeats
  · rw [h] at hf
    cases hf
  · rw [hw] at hw'
    cases hw'
  · cases hbeats

theorem StopsFirstAt.succ (hw : m.isWaiting = false) (h : m.step = .ok m₁)
    (hfirst : m₁.StopsFirstAt beats j m') : m.StopsFirstAt (beats + 1) (j + 1) m' := by
  obtain ⟨hstop, hleast⟩ := hfirst
  refine ⟨(stopsAt_succ_iff h).2 hstop, fun i hi mi => ?_⟩
  cases i with
  | zero => exact not_stopsAt_zero hw h
  | succ i =>
    rw [stopsAt_succ_iff h]
    exact hleast i (Nat.lt_of_succ_lt_succ hi) mi

end Machine

namespace Metronome

def beats (t : Metronome) : Nat := t.pending / t.period

theorem beats_eq_succ {t : Metronome} (hp : 0 < t.period) (hle : t.period ≤ t.pending) :
    t.beats = beats ⟨t.period, t.pending - t.period⟩ + 1 :=
  Nat.div_eq_sub_div hp hle

end Metronome

namespace Burst

/-- The time pending and the verdict of a burst that began with `cpu` and stopped after `j` steps at
the machine `m`. A step that fails has used up a beat of its own. -/
inductive Outcome (cpu : Metronome) (j : Nat) (m : Machine) : Nat → Verdict → Prop where
  | invalid {w : UInt16} {a : Address} (hj : j < cpu.beats) (hw : m.isWaiting = false)
      (hf : m.step = .error (.invalidInstruction w a)) :
      Outcome cpu j m (cpu.pending - (j + 1) * cpu.period) .paused
  | fatal {f : Fault} (hj : j < cpu.beats) (hw : m.isWaiting = false) (hf : m.step = .error f)
      (hstack : (∃ a, f = .stackOverflow a) ∨ ∃ a, f = .stackUnderflow a) :
      Outcome cpu j m (cpu.pending - (j + 1) * cpu.period) (.fatal f)
  | waiting (hj : j ≤ cpu.beats) (hw : m.isWaiting = true) : Outcome cpu j m 0 .running
  | spent (hj : j = cpu.beats) (hw : m.isWaiting = false) :
      Outcome cpu j m (cpu.pending % cpu.period) .running

variable {cpu : Metronome} {j pending : Nat} {m : Machine} {v : Verdict}

theorem Outcome.of_fault {f : Fault} (hj : j < cpu.beats) (hf : m.step = .error f) :
    Outcome cpu j m (cpu.pending - (j + 1) * cpu.period) (.ofFault f) := by
  have hw := (Machine.step_eq_error_iff.1 hf).1
  cases f with
  | invalidInstruction w a => exact .invalid hj hw hf
  | stackOverflow a => exact .fatal hj hw hf (.inl ⟨a, rfl⟩)
  | stackUnderflow a => exact .fatal hj hw hf (.inr ⟨a, rfl⟩)

/-- What a burst comes to after its first beat, it comes to one step later from the beginning. -/
theorem Outcome.succ (hp : 0 < cpu.period) (hle : cpu.period ≤ cpu.pending)
    (h : Outcome ⟨cpu.period, cpu.pending - cpu.period⟩ j m pending v) :
    Outcome cpu (j + 1) m pending v := by
  have hbeats := Metronome.beats_eq_succ hp hle
  have hpending : cpu.pending - cpu.period - (j + 1) * cpu.period =
      cpu.pending - (j + 1 + 1) * cpu.period := by
    rw [Nat.succ_mul (j + 1), Nat.sub_sub, Nat.add_comm]
  have hj {i : Nat} (hi : i < Metronome.beats ⟨cpu.period, cpu.pending - cpu.period⟩) :
      i + 1 < cpu.beats := by omega
  cases h with
  | invalid hlt hw hf =>
    rw [hpending]
    exact .invalid (hj hlt) hw hf
  | fatal hlt hw hf hstack =>
    rw [hpending]
    exact .fatal (hj hlt) hw hf hstack
  | waiting hle' hw => exact .waiting (by omega) hw
  | spent heq hw =>
    have hmod : (cpu.pending - cpu.period) % cpu.period = cpu.pending % cpu.period :=
      (Nat.mod_eq_sub_mod hle).symm
    rw [hmod]
    exact .spent (by omega) hw

/-- However many rounds it takes, a burst that ends has stopped where it first could. -/
theorem stops_first_of_run {fuel : Nat} {b b' : Burst} (h : run fuel b = some (b', v))
    (hp : 0 < b.cpu.period) :
    ∃ j, b.machine.StopsFirstAt b.cpu.beats j b'.machine ∧
      Outcome b.cpu j b'.machine b'.cpu.pending v := by
  induction fuel generalizing b with
  | zero => cases h
  | succ fuel ih =>
    rcases b.round_cases with
      ⟨hw, hr⟩ | ⟨hw, hlt, hr⟩ | ⟨hw, hle, f, hf, hr⟩ | ⟨hw, hle, m, hm, hr⟩
    · have hstop : b.machine.StopsAt b.cpu.beats 0 b.machine :=
        ⟨rfl, .inr (.inl ⟨Nat.zero_le _, hw⟩)⟩
      rw [run_of_over hr] at h
      cases h
      exact ⟨0, Machine.stopsFirstAt_zero hstop, .waiting (Nat.zero_le _) hw⟩
    · have hzero : 0 = b.cpu.beats := (Nat.div_eq_of_lt hlt).symm
      have hstop : b.machine.StopsAt b.cpu.beats 0 b.machine := ⟨rfl, .inr (.inr hzero)⟩
      have hspent : Outcome b.cpu 0 b.machine (b.cpu.pending % b.cpu.period) .running :=
        .spent hzero hw
      rw [Nat.mod_eq_of_lt hlt] at hspent
      rw [run_of_over hr] at h
      cases h
      exact ⟨0, Machine.stopsFirstAt_zero hstop, hspent⟩
    · have hlt : 0 < b.cpu.beats := Nat.div_pos hle hp
      have hstop : b.machine.StopsAt b.cpu.beats 0 b.machine := ⟨rfl, .inl ⟨hlt, hw, f, hf⟩⟩
      have hfault := Outcome.of_fault hlt hf
      rw [Nat.zero_add, Nat.one_mul] at hfault
      rw [run_of_over hr] at h
      cases h
      exact ⟨0, Machine.stopsFirstAt_zero hstop, hfault⟩
    · -- The rest of the burst has one beat less, and its first stop comes one step earlier.
      rw [run_of_again hr] at h
      obtain ⟨j, hfirst, hout⟩ := ih h hp
      refine ⟨j + 1, ?_, hout.succ hp hle⟩
      rw [Metronome.beats_eq_succ hp hle]
      exact hfirst.succ hw hm

/-- With a positive period a burst ends, at the machine it reaches after the least number of steps
at which it can stop: an invalid instruction pauses, a stack fault is fatal, and either leaves all
but the time of the steps and of its own beat; a machine that waits leaves no time and one that has
used up its beats the remainder, and both go on running. -/
theorem ofMachine_stops_first (m : Machine) (cpu : Metronome) (hp : 0 < cpu.period)
    (patience : Nat) :
    ∃ b v j, ofMachine m cpu patience = some (b, v) ∧
      m.StopsFirstAt (cpu.pending / cpu.period) j b.machine ∧
      b.cpu.period = cpu.period ∧ Outcome cpu j b.machine b.cpu.pending v := by
  obtain ⟨b, v, hrun, hperiod⟩ := exists_ofMachine_eq m cpu hp patience
  obtain ⟨j, hfirst, hout⟩ := stops_first_of_run hrun hp
  exact ⟨b, v, j, hrun, hfirst, hperiod, hout⟩

/-- Of two and a half periods an invalid first instruction takes one. -/
theorem ofMachine_stops_first_at_invalid :
    let cpu : Metronome := ⟨1000, 2500⟩
    0 < cpu.period ∧ ∃ b,
      ofMachine (.start .invalid .modern (.seeded 0)) cpu 0 = some (b, .paused) ∧
        b.cpu.pending = 1500 := by
  intro cpu
  have hf := Machine.step_invalid .modern (.seeded 0)
  generalize Machine.start .invalid .modern (.seeded 0) = m at hf ⊢
  obtain ⟨b, v, j, hrun, ⟨⟨hsteps, _⟩, _⟩, _, hout⟩ := ofMachine_stops_first m cpu (by decide) 0
  refine ⟨by decide, b, ?_⟩
  cases j with
  | succ j =>
    rw [Machine.stepped?_succ_of_error hf] at hsteps
    cases hsteps
  | zero =>
    obtain rfl : m = b.machine := Option.some.inj hsteps
    generalize hpending : b.cpu.pending = pending at hout
    cases hout with
    | invalid => exact ⟨hrun, by simp [cpu]⟩
    | fatal _ _ hf' hstack =>
      rw [hf] at hf'
      cases hf'
      simp at hstack
    | waiting _ hw => simp [(Machine.step_eq_error_iff.1 hf).1] at hw
    | spent hj => simp [cpu, Metronome.beats] at hj

end Burst

end Chip8
