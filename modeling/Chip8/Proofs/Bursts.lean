import Chip8.Session

/-!
# Bursts that end

A round of a burst ends it, because the machine waits, no beat is due or the step fails, or it takes
one period off the time collected and goes on. So with a positive period a burst makes at most one
round more than there are beats due, the rounds it is given suffice, and a turn never stalls. The
period itself is the same throughout a session.
-/
namespace Chip8

namespace Metronome

@[simp] theorem period_add (t : Metronome) (micros : Nat) : (t.add micros).period = t.period := rfl

theorem period_ofFrequency_pos {hertz : Nat} (h : hertz ≤ 1000000) :
    0 < (ofFrequency hertz).period := by
  apply Nat.div_pos
  · omega
  · omega

end Metronome

namespace Burst

/-- The machine waits, no beat is due, the step fails, or the burst goes on after a step. -/
theorem round_cases (b : Burst) :
    (b.machine.isWaiting = true ∧ b.round = .over { b with cpu := b.cpu.discard } .running) ∨
      (b.machine.isWaiting = false ∧ b.cpu.pending < b.cpu.period ∧ b.round = .over b .running) ∨
      (b.machine.isWaiting = false ∧ b.cpu.period ≤ b.cpu.pending ∧
        ∃ f, b.machine.step = .error f ∧
          b.round = .over
            ⟨b.machine, ⟨b.cpu.period, b.cpu.pending - b.cpu.period⟩, b.cycles + 1,
              b.notices ++ b.machine.stepNotices ++ faultNotices f⟩ (.ofFault f)) ∨
      (b.machine.isWaiting = false ∧ b.cpu.period ≤ b.cpu.pending ∧
        ∃ m, b.machine.step = .ok m ∧
          b.round = .again
            ⟨m, ⟨b.cpu.period, b.cpu.pending - b.cpu.period⟩, b.cycles + 1,
              b.notices ++ b.machine.stepNotices⟩) := by
  unfold round
  cases hw : b.machine.isWaiting with
  | true => exact .inl ⟨rfl, rfl⟩
  | false =>
    refine .inr ?_
    by_cases hb : b.cpu.period ≤ b.cpu.pending
    · refine .inr ?_
      rw [Metronome.beat?_of_le hb]
      cases hs : b.machine.step with
      | error f => exact .inl ⟨rfl, hb, f, rfl, by simp [cycle, hs]⟩
      | ok m => exact .inr ⟨rfl, hb, m, rfl, by simp [cycle, hs]⟩
    · have hlt := Nat.not_le.1 hb
      rw [Metronome.beat?_of_lt hlt]
      exact .inl ⟨rfl, hlt, rfl⟩

theorem run_of_over {b b' : Burst} {v : Verdict} (h : b.round = .over b' v) (fuel : Nat) :
    run (fuel + 1) b = some (b', v) := by
  simp only [run, h]

theorem run_of_again {b b' : Burst} (h : b.round = .again b') (fuel : Nat) :
    run (fuel + 1) b = run fuel b' := by
  simp only [run, h]

/-- One round for each beat due and one for the last look are enough. -/
theorem exists_run_eq {fuel : Nat} {b : Burst} (hp : 0 < b.cpu.period)
    (h : b.cpu.pending / b.cpu.period < fuel) :
    ∃ b' v, run fuel b = some (b', v) ∧ b'.cpu.period = b.cpu.period := by
  induction fuel generalizing b with
  | zero => exact absurd h (Nat.not_lt_zero _)
  | succ fuel ih =>
    rcases b.round_cases with ⟨_, hr⟩ | ⟨_, _, hr⟩ | ⟨_, _, f, _, hr⟩ | ⟨_, hle, m, _, hr⟩
    · exact ⟨_, _, run_of_over hr fuel, rfl⟩
    · exact ⟨_, _, run_of_over hr fuel, rfl⟩
    · exact ⟨_, _, run_of_over hr fuel, rfl⟩
    · -- A round that goes on uses up one beat, so one round less is needed.
      have hd := Nat.div_eq_sub_div hp hle
      rw [run_of_again hr]
      exact ih hp (by simp only; omega)

theorem exists_ofMachine_eq (m : Machine) (cpu : Metronome) (hp : 0 < cpu.period)
    (patience : Nat) :
    ∃ b v, ofMachine m cpu patience = some (b, v) ∧ b.cpu.period = cpu.period := by
  apply exists_run_eq (b := start m cpu) hp
  simp only [start, fuel]
  omega

end Burst

namespace Session

variable {s : Session}

/-- Time passes to the end or to a fault, and neither quits nor changes the period. -/
theorem elapse_cases (hp : 0 < s.cpu.period) (hm : s.mode = .running) (micros patience : Nat) :
    (s.elapse micros patience).session.mode ≠ .quit ∧
      (s.elapse micros patience).session.cpu.period = s.cpu.period ∧
      ((s.elapse micros patience).collapse = none ∨
        ∃ f, (s.elapse micros patience).collapse = some (.fault f)) := by
  obtain ⟨b, v, hb, hperiod⟩ :=
    Burst.exists_ofMachine_eq s.machine (s.cpu.add micros) hp patience
  cases v with
  | running => simp [elapse, hb, settle, hm, hperiod]
  | paused => simp [elapse, hb, settle, hperiod]
  | fatal f => simp [elapse, hb, hm, hperiod]

theorem handle_eq (s : Session) (e : Event) :
    ∃ m mode, s.handle e = { s with machine := m, mode := mode } := by
  unfold handle
  cases e.request? with
  | some q => cases q <;> exact ⟨_, _, rfl⟩
  | none =>
    simp only
    split <;> exact ⟨_, _, rfl⟩

theorem machine_handle (s : Session) (e : Event) :
    (s.handle e).machine =
      match e.request? with
      | some (.pad k down) => s.machine.latch (UInt8.ofNat k.val) down
      | some .restart => s.machine.restart s.rom
      | _ => s.machine := by
  unfold handle
  match e.request? with
  | some (.pad _ _) | some .restart | some .pauseOrResume | some .quit => rfl
  | none =>
    simp only
    split <;> rfl

theorem handleAll_eq (s : Session) (es : List Event) :
    ∃ m mode, s.handleAll es = { s with machine := m, mode := mode } := by
  induction es generalizing s with
  | nil => exact ⟨_, _, rfl⟩
  | cons e es ih =>
    obtain ⟨m, mode, he⟩ := s.handle_eq e
    obtain ⟨m', mode', hes⟩ := ih (s.handle e)
    refine ⟨m', mode', hes.trans ?_⟩
    rw [he]

@[simp] theorem cpu_handleAll (s : Session) (es : List Event) : (s.handleAll es).cpu = s.cpu := by
  obtain ⟨m, mode, h⟩ := s.handleAll_eq es
  rw [h]

@[simp] theorem timers_handleAll (s : Session) (es : List Event) :
    (s.handleAll es).timers = s.timers := by
  obtain ⟨m, mode, h⟩ := s.handleAll_eq es
  rw [h]

@[simp] theorem rom_handleAll (s : Session) (es : List Event) : (s.handleAll es).rom = s.rom := by
  obtain ⟨m, mode, h⟩ := s.handleAll_eq es
  rw [h]

theorem turn_of_running {s : Session} {f : Frame}
    (h : (s.handleAll f.events).mode = .running) (patience : Nat) :
    s.turn f patience =
      { (s.handleAll f.events).elapse f.micros patience with
        notices := (s.handleAllNotices f.events).toArray ++
          ((s.handleAll f.events).elapse f.micros patience).notices } :=
  if_pos h

theorem turn_of_still {s : Session} {f : Frame}
    (h : (s.handleAll f.events).mode ≠ .running) (patience : Nat) :
    s.turn f patience =
      ⟨s.handleAll f.events, 0, 0, (s.handleAllNotices f.events).toArray, none⟩ :=
  if_neg h

end Session

end Chip8
