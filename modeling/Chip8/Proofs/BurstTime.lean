import Chip8.Proofs.Bursts
import Chip8.Proofs.Reachability

/-!
# The time of a burst

The time of a burst is what its cycles have used up, one period each, and what is still pending. A
round keeps it, unless the machine waits for a key and the pending time is dropped. So a burst that
ends has made at most one cycle for each period it was given.

With a positive period every burst ends. With a period of zero, which is that of any frequency above
a million, no time is ever used up: a burst then ends if and only if the machine, stepped on its
own, comes to wait for a key or to a fault.
-/
namespace Chip8

namespace Metronome

theorem period_ofFrequency {hertz : Nat} (h : 1 ≤ hertz) :
    (ofFrequency hertz).period = 1000000 / hertz := by
  simp [ofFrequency, Nat.max_eq_left h]

theorem period_ofFrequency_eq_zero {hertz : Nat} (h : 1000000 < hertz) :
    (ofFrequency hertz).period = 0 := by
  apply Nat.div_eq_of_lt
  omega

theorem pending_add_ofFrequency (hertz micros : Nat) :
    ((ofFrequency hertz).add micros).pending = micros := Nat.zero_add micros

end Metronome

namespace Machine

def stepped? : Nat → Machine → Option Machine
  | 0, m => some m
  | n + 1, m =>
      match m.step with
      | .ok m' => stepped? n m'
      | .error _ => none

theorem stepped?_succ_of_ok {m m' : Machine} (h : m.step = .ok m') (n : Nat) :
    m.stepped? (n + 1) = m'.stepped? n := by
  simp only [stepped?, h]

theorem stepped?_of_fixed {m : Machine} (h : m.step = .ok m) (n : Nat) :
    m.stepped? n = some m := by
  induction n with
  | zero => rfl
  | succ n ih => rw [stepped?_succ_of_ok h, ih]

def Halts (m : Machine) : Prop := m.isWaiting = true ∨ ∃ f, m.step = .error f

end Machine

namespace Verdict

theorem ofFault_ne_running (f : Fault) : ofFault f ≠ .running := by cases f <;> simp [ofFault]

theorem ofFault_eq_paused_iff {f : Fault} :
    ofFault f = .paused ↔ ∃ w a, f = .invalidInstruction w a := by
  cases f <;> simp [ofFault]

end Verdict

namespace Burst

def time (b : Burst) : Nat := b.cycles * b.cpu.period + b.cpu.pending

theorem time_start (m : Machine) (cpu : Metronome) : (start m cpu).time = cpu.pending := by
  simp [time, start]

/-- A cycle moves one period from the time pending to the time used up. -/
theorem time_cycle {b : Burst} (h : b.cpu.period ≤ b.cpu.pending) (m : Machine)
    (notices : Array Notice) :
    time ⟨m, ⟨b.cpu.period, b.cpu.pending - b.cpu.period⟩, b.cycles + 1, notices⟩ = b.time := by
  simp only [time, Nat.succ_mul]
  omega

inductive Ended (b : Burst) : Burst → Verdict → Prop where
  | waiting {b' : Burst} (hw : b'.machine.isWaiting = true) (hnone : b'.cpu.pending = 0)
      (htime : b'.time ≤ b.time) : Ended b b' .running
  | spent {b' : Burst} (hw : b'.machine.isWaiting = false)
      (hlt : b'.cpu.pending < b'.cpu.period) (htime : b'.time = b.time) : Ended b b' .running
  | fault {b' : Burst} {f : Fault} (hf : b'.machine.step = .error f)
      (htime : b'.time = b.time) : Ended b b' (.ofFault f)

theorem Ended.of_time_eq {b₁ b₂ b' : Burst} {v : Verdict} (h : b₂.Ended b' v)
    (ht : b₂.time = b₁.time) : b₁.Ended b' v := by
  cases h with
  | waiting hw hnone htime => exact .waiting hw hnone (ht ▸ htime)
  | spent hw hlt htime => exact .spent hw hlt (htime.trans ht)
  | fault hf htime => exact .fault hf (htime.trans ht)

/-- However many rounds it takes, a burst ends in one of these ways and with the same period. -/
theorem ended_of_run {fuel : Nat} {b b' : Burst} {v : Verdict} (h : run fuel b = some (b', v)) :
    b.Ended b' v ∧ b'.cpu.period = b.cpu.period := by
  induction fuel generalizing b with
  | zero => cases h
  | succ fuel ih =>
    rcases b.round_cases with
      ⟨hw, hr⟩ | ⟨hw, hlt, hr⟩ | ⟨_, hle, f, hf, hr⟩ | ⟨_, hle, m, _, hr⟩
    · rw [run_of_over hr] at h
      cases h
      exact ⟨.waiting hw rfl (Nat.le_add_right _ _), rfl⟩
    · rw [run_of_over hr] at h
      cases h
      exact ⟨.spent hw hlt rfl, rfl⟩
    · rw [run_of_over hr] at h
      cases h
      exact ⟨.fault hf (time_cycle hle _ _), rfl⟩
    · rw [run_of_again hr] at h
      obtain ⟨hend, hperiod⟩ := ih h
      exact ⟨hend.of_time_eq (time_cycle hle _ _), hperiod⟩

theorem Ended.time_le {b b' : Burst} {v : Verdict} (h : b.Ended b' v) : b'.time ≤ b.time := by
  cases h with
  | waiting _ _ htime => exact htime
  | spent _ _ htime => exact Nat.le_of_eq htime
  | fault _ htime => exact Nat.le_of_eq htime

/-- A burst that is not ended by a fault keeps less than a period; a fault loses no time. -/
theorem ofMachine_cases {m : Machine} {cpu : Metronome} {patience : Nat} {b : Burst} {v : Verdict}
    (hp : 0 < cpu.period) (h : ofMachine m cpu patience = some (b, v)) :
    b.cpu.period = cpu.period ∧
      ((v = .running ∧ b.cpu.pending < cpu.period ∧
          b.cycles * cpu.period + b.cpu.pending ≤ cpu.pending) ∨
        ∃ f, v = .ofFault f ∧ b.machine.step = .error f ∧
          b.cycles * cpu.period + b.cpu.pending = cpu.pending) := by
  obtain ⟨hend, hperiod⟩ := ended_of_run h
  have hcpu : b.cpu.period = cpu.period := hperiod
  refine ⟨hcpu, ?_⟩
  cases hend with
  | waiting _ hnone htime =>
    rw [time_start, time, hcpu] at htime
    exact .inl ⟨rfl, by omega, htime⟩
  | spent _ hlt htime =>
    rw [time_start, time, hcpu] at htime
    exact .inl ⟨rfl, hcpu ▸ hlt, Nat.le_of_eq htime⟩
  | fault hf htime =>
    rw [time_start, time, hcpu] at htime
    exact .inr ⟨_, rfl, hf, htime⟩

/-- A burst that ends has made at most one cycle for each whole period it was given. -/
theorem cycles_le_of_run {fuel : Nat} {m : Machine} {cpu : Metronome} {b : Burst} {v : Verdict}
    (hp : 0 < cpu.period) (h : run fuel (start m cpu) = some (b, v)) :
    b.cycles ≤ cpu.pending / cpu.period := by
  obtain ⟨hend, hperiod⟩ := ended_of_run h
  have htime := hend.time_le
  have hstart : (start m cpu).cpu.period = cpu.period := rfl
  rw [time_start, time, hperiod, hstart] at htime
  rw [Nat.le_div_iff_mul_le hp]
  omega

theorem run_of_fault {b : Burst} {f : Fault} (hle : b.cpu.period ≤ b.cpu.pending)
    (hf : b.machine.step = .error f) (fuel : Nat) :
    run (fuel + 1) b = some
      (⟨b.machine, ⟨b.cpu.period, b.cpu.pending - b.cpu.period⟩, b.cycles + 1,
        b.notices ++ b.machine.stepNotices ++ faultNotices f⟩, .ofFault f) := by
  have hw := (Machine.step_eq_error_iff.1 hf).1
  apply run_of_over
  simp [round, hw, Metronome.beat?_of_le hle, cycle, hf]

theorem ofMachine_of_fault {m : Machine} {cpu : Metronome} {f : Fault}
    (hle : cpu.period ≤ cpu.pending) (hf : m.step = .error f) (patience : Nat) :
    ∃ notices, ofMachine m cpu patience = some
      (⟨m, ⟨cpu.period, cpu.pending - cpu.period⟩, 1, notices⟩, .ofFault f) := by
  have hfuel : fuel cpu patience = cpu.pending / cpu.period + patience + 1 :=
    Nat.add_right_comm _ _ _
  rw [ofMachine, hfuel]
  exact ⟨_, run_of_fault (b := start m cpu) hle hf _⟩

theorem machine_of_again {b b' : Burst} (h : b.round = .again b') :
    b.machine.isWaiting = false ∧ b.machine.step = .ok b'.machine ∧
      b'.cpu.period = b.cpu.period := by
  rcases b.round_cases with
    ⟨_, hr⟩ | ⟨_, _, hr⟩ | ⟨_, _, _, _, hr⟩ | ⟨hw, _, m, hm, hr⟩
  · simp [hr] at h
  · simp [hr] at h
  · simp [hr] at h
  · rw [hr] at h
    cases h
    exact ⟨hw, hm, rfl⟩

/-- A period of zero leaves a burst no end but the halt of its machine. -/
theorem halts_of_over {b b' : Burst} {v : Verdict} (hp : b.cpu.period = 0)
    (h : b.round = .over b' v) : b.machine.Halts := by
  rcases b.round_cases with ⟨hw, _⟩ | ⟨_, hlt, _⟩ | ⟨_, _, f, hf, _⟩ | ⟨_, _, m, _, hr⟩
  · exact .inl hw
  · omega
  · exact .inr ⟨f, hf⟩
  · simp [hr] at h

theorem exists_halts_of_run {fuel : Nat} {b : Burst} {r : Burst × Verdict}
    (hp : b.cpu.period = 0) (h : run fuel b = some r) :
    ∃ n m, b.machine.stepped? n = some m ∧ m.Halts := by
  induction fuel generalizing b with
  | zero => cases h
  | succ fuel ih =>
    match hr : b.round with
    | .over b' v => exact ⟨0, b.machine, rfl, halts_of_over hp hr⟩
    | .again b' =>
      obtain ⟨_, hs, hperiod⟩ := machine_of_again hr
      rw [run_of_again hr] at h
      obtain ⟨n, m, hn, hhalts⟩ := ih (hperiod.trans hp) h
      exact ⟨n + 1, m, by rwa [Machine.stepped?_succ_of_ok hs], hhalts⟩

theorem exists_run_of_halts {n : Nat} {b : Burst} {m : Machine}
    (hn : b.machine.stepped? n = some m) (hm : m.Halts) : ∃ fuel r, run fuel b = some r := by
  induction n generalizing b with
  | zero =>
    match hr : b.round with
    | .over b' v => exact ⟨1, (b', v), run_of_over hr 0⟩
    | .again b' =>
      cases hn
      obtain ⟨hw, hs, _⟩ := machine_of_again hr
      rcases hm with hw' | ⟨f, hf⟩
      · simp [hw] at hw'
      · simp [hs] at hf
  | succ n ih =>
    match hr : b.round with
    | .over b' v => exact ⟨1, (b', v), run_of_over hr 0⟩
    | .again b' =>
      obtain ⟨_, hs, _⟩ := machine_of_again hr
      rw [Machine.stepped?_succ_of_ok hs] at hn
      obtain ⟨fuel, r, hrun⟩ := ih hn
      exact ⟨fuel + 1, r, by rwa [run_of_again hr]⟩

theorem run_eq_none_of_fixed {b : Burst} (hp : b.cpu.period = 0)
    (hw : b.machine.isWaiting = false) (hs : b.machine.step = .ok b.machine) (fuel : Nat) :
    run fuel b = none := by
  cases h : run fuel b with
  | none => rfl
  | some r =>
    obtain ⟨n, m, hn, hm⟩ := exists_halts_of_run hp h
    rw [Machine.stepped?_of_fixed hs] at hn
    cases hn
    rcases hm with hw' | ⟨f, hf⟩
    · simp [hw] at hw'
    · simp [hs] at hf

end Burst

namespace Rom

/-- A program that jumps to its own beginning. -/
def spin : Rom := ⟨#[0x12, 0x00], by decide⟩

/-- A program that begins with a word that is no instruction. -/
def invalid : Rom := ⟨#[0xFF, 0xFF], by decide⟩

end Rom

namespace Machine

theorem step_spin (d : Dialect) (s : ByteStream) :
    (start .spin d s).step = .ok (start .spin d s) := by
  have hword : (start .spin d s).word = 0x1200 := word_start _ _ _
  have hfetch : (start .spin d s).fetch = .ok (.jump (.ofNat 512)) :=
    fetch_eq_ok_iff.2 ⟨by rw [hword]; rfl, rfl⟩
  exact step_eq_ok_iff.2 (.inr ⟨rfl, _, hfetch, rfl⟩)

theorem step_invalid (d : Dialect) (s : ByteStream) :
    (start .invalid d s).step = .error (.invalidInstruction 0xFFFF (.ofNat 512)) := by
  have hword : (start .invalid d s).word = 0xFFFF := word_start _ _ _
  have hnone : Instruction.decode (start .invalid d s).word = none := by rw [hword]; rfl
  have hfetch : (start .invalid d s).fetch = .error (.invalidInstruction 0xFFFF (.ofNat 512)) :=
    fetch_eq_error_iff.2 (.inl ⟨hnone, by rw [hword]; rfl⟩)
  exact step_eq_error_iff.2 ⟨rfl, hfetch⟩

end Machine

namespace Burst

/-- The frequencies with which a burst ends on every machine, after at most one cycle for each
whole period of the time pending, are those up to a million. Above them a burst ends if and only if
its machine comes to a halt on its own. -/
theorem ends_on_every_machine_iff (hertz : Nat) :
    ((∀ (m : Machine) (pending : Nat), ∃ fuel b v,
        run fuel (start m ((Metronome.ofFrequency hertz).add pending)) = some (b, v) ∧
          b.cycles ≤ pending / (Metronome.ofFrequency hertz).period) ↔ hertz ≤ 1000000) ∧
      (1000000 < hertz → ∀ (m : Machine) (pending : Nat),
        (∃ fuel r, run fuel (start m ((Metronome.ofFrequency hertz).add pending)) = some r) ↔
          ∃ n m', m.stepped? n = some m' ∧ m'.Halts) := by
  refine ⟨⟨fun h => ?_, fun h m pending => ?_⟩, fun h m pending => ?_⟩
  · -- Above a million beats the jump to itself is a machine without an end.
    apply Nat.le_of_not_lt
    intro hfast
    have hp := Metronome.period_ofFrequency_eq_zero hfast
    obtain ⟨fuel, b, v, hrun, _⟩ := h (.start .spin .modern (.seeded 0)) 0
    rw [run_eq_none_of_fixed hp rfl (Machine.step_spin _ _)] at hrun
    cases hrun
  · have hp : 0 < ((Metronome.ofFrequency hertz).add pending).period :=
      Metronome.period_ofFrequency_pos h
    obtain ⟨b, v, hrun, _⟩ :=
      exists_run_eq (b := start m ((Metronome.ofFrequency hertz).add pending)) hp
        (Nat.lt_succ_self _)
    have hcycles := cycles_le_of_run hp hrun
    rw [Metronome.pending_add_ofFrequency] at hcycles
    exact ⟨_, b, v, hrun, hcycles⟩
  · have hp := Metronome.period_ofFrequency_eq_zero h
    constructor
    · rintro ⟨fuel, r, hrun⟩
      exact exists_halts_of_run hp hrun
    · rintro ⟨n, m', hn, hhalts⟩
      exact exists_run_of_halts hn hhalts

/-- At two million beats a second a jump to itself goes on for ever, and a step is tried though no
time is pending. -/
theorem endless_at_two_megahertz :
    let cpu := Metronome.ofFrequency 2000000
    (∀ fuel, run fuel (start (.start .spin .modern (.seeded 0)) cpu) = none) ∧
      cpu.pending = 0 ∧
      ∃ b, run 1 (start (.start .invalid .modern (.seeded 0)) cpu) = some (b, .paused) ∧
        b.cycles = 1 := by
  intro cpu
  refine ⟨run_eq_none_of_fixed rfl rfl (Machine.step_spin _ _), rfl, ?_⟩
  have hrun := run_of_fault (b := start (.start .invalid .modern (.seeded 0)) cpu)
    (Nat.le_refl 0) (Machine.step_invalid _ _) 0
  exact ⟨_, hrun, rfl⟩

end Burst

end Chip8
