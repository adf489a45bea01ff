import Mathlib.Algebra.Ring.Nat
import Chip8.Proofs.BurstTime

/-!
# The rate of a metronome

A metronome is used by adding time to it and by asking it to beat, in any order. A call that adds
time leaves it all pending and a beat takes exactly one period, so after any calls the time added is
what the beats took and what is pending, and no more is ever pending than was added. Once no beat is
due, the number of beats is the number of whole periods in the time added, however that time came
in.

The period is the exact one rounded down. So the beats never fall behind the nominal frequency, and
the excess is bounded by what rounding can take off a period, which is less than a microsecond.
-/
namespace Chip8

namespace Metronome

/-- A use of a metronome that drops no time. -/
inductive Call where
  | add (micros : Nat)
  | beat

def Call.micros : Call → Nat
  | .add micros => micros
  | .beat => 0

def added (calls : List Call) : Nat := (calls.map Call.micros).sum

def after (t : Metronome) : Call → Metronome
  | .add micros => t.add micros
  | .beat => t.beat?.getD t

def answers (t : Metronome) : Call → Bool
  | .add _ => false
  | .beat => t.beat?.isSome

def afterAll (t : Metronome) (calls : List Call) : Metronome := calls.foldl after t

def beatsMade (t : Metronome) : List Call → Nat
  | [] => 0
  | c :: cs => (t.answers c).toNat + (t.after c).beatsMade cs

variable {t : Metronome}

theorem beat?_eq_none_iff : t.beat? = none ↔ t.pending < t.period := by
  constructor
  · intro h
    apply Nat.lt_of_not_le
    intro hle
    rw [beat?_of_le hle] at h
    cases h
  · exact beat?_of_lt

theorem added_append (before after : List Call) :
    added (before ++ after) = added before + added after := by
  simp [added]

theorem added_replicate_beat (n : Nat) : added (List.replicate n .beat) = 0 := by
  simp [added, Call.micros]

theorem afterAll_append (t : Metronome) (before after : List Call) :
    t.afterAll (before ++ after) = (t.afterAll before).afterAll after := List.foldl_append

theorem period_after (t : Metronome) (c : Call) : (t.after c).period = t.period := by
  cases c with
  | add micros => rfl
  | beat =>
    by_cases h : t.period ≤ t.pending
    · simp [after, beat?_of_le h]
    · simp [after, beat?_of_lt (Nat.not_le.1 h)]

/-- A call moves time from outside to what is pending, or one period from there to a beat. -/
theorem time_after (t : Metronome) (c : Call) :
    t.pending + c.micros = t.period * (t.answers c).toNat + (t.after c).pending := by
  cases c with
  | add micros => simp [answers, after, add, Call.micros]
  | beat =>
    by_cases h : t.period ≤ t.pending
    · simp only [answers, after, beat?_of_le h, Call.micros, Option.isSome_some, Bool.toNat_true,
        Option.getD_some]
      omega
    · simp [answers, after, beat?_of_lt (Nat.not_le.1 h), Call.micros]

theorem period_afterAll (t : Metronome) (calls : List Call) :
    (t.afterAll calls).period = t.period := by
  induction calls generalizing t with
  | nil => rfl
  | cons c cs ih => exact (ih (t.after c)).trans (period_after t c)

/-- The time pending at first and the time added are what the beats took and what is pending. -/
theorem time_afterAll (t : Metronome) (calls : List Call) :
    t.pending + added calls = t.period * t.beatsMade calls + (t.afterAll calls).pending := by
  induction calls generalizing t with
  | nil => simp [added, beatsMade, afterAll]
  | cons c cs ih =>
    have hstep := time_after t c
    have hrest := ih (t.after c)
    have hadded : added (c :: cs) = c.micros + added cs := rfl
    have hafter : t.afterAll (c :: cs) = (t.after c).afterAll cs := rfl
    rw [period_after] at hrest
    rw [hadded, hafter, beatsMade, Nat.mul_add]
    omega

/-- When no beat is due, there was one for each whole period. -/
theorem beatsMade_of_none_due (t : Metronome) {calls : List Call}
    (h : (t.afterAll calls).beat? = none) :
    t.beatsMade calls = (t.pending + added calls) / t.period := by
  have hlt := beat?_eq_none_iff.1 h
  rw [period_afterAll] at hlt
  rw [time_afterAll, Nat.mul_add_div (Nat.zero_lt_of_lt hlt), Nat.div_eq_of_lt hlt, Nat.add_zero]

theorem drainWithin_snd (fuel : Nat) (t : Metronome) :
    (drainWithin fuel t).2 = t.afterAll (List.replicate (drainWithin fuel t).1 .beat) := by
  induction fuel generalizing t with
  | zero => rfl
  | succ fuel ih =>
    cases hb : t.beat? with
    | none => simp [drainWithin, hb, afterAll]
    | some t' =>
      have hafter : t.after .beat = t' := by simp [after, hb]
      simp only [drainWithin, hb, ih t', List.replicate_succ, afterAll, List.foldl_cons, hafter]

theorem drain_none_due (hp : 0 < t.period) : t.drain.2.beat? = none := by
  rw [drain_eq hp]
  exact beat?_of_lt (Nat.mod_lt _ hp)

theorem period_mul_le (hertz : Nat) : (ofFrequency hertz).period * hertz ≤ 1000000 :=
  calc (ofFrequency hertz).period * hertz
      ≤ 1000000 / max hertz 1 * max hertz 1 := Nat.mul_le_mul_left _ (Nat.le_max_left _ _)
    _ ≤ 1000000 := Nat.div_mul_le_self _ _

theorem lt_period_mul_add {hertz : Nat} (h : 1 ≤ hertz) :
    1000000 < (ofFrequency hertz).period * hertz + hertz := by
  rw [period_ofFrequency h]
  exact Nat.lt_div_mul_add h

/-- A shorter period than the exact one makes no fewer beats than the frequency names. -/
theorem nominal_le_div_period {hertz : Nat} (h : 1 ≤ hertz)
    (hp : 0 < (ofFrequency hertz).period) (time : Nat) :
    time * hertz / 1000000 ≤ time / (ofFrequency hertz).period :=
  calc time * hertz / 1000000
      ≤ time * hertz / ((ofFrequency hertz).period * hertz) :=
        Nat.div_le_div_left (period_mul_le hertz) (Nat.mul_pos hp h)
    _ = time / (ofFrequency hertz).period := Nat.mul_div_mul_right _ _ h

/-- The beats made are at most those of a period a whole microsecond shorter than the exact one. -/
theorem div_period_mul_le {hertz : Nat} (h : 1 ≤ hertz) (time : Nat) :
    time / (ofFrequency hertz).period * (1000000 - hertz) ≤ time * hertz := by
  have hlt := lt_period_mul_add h
  calc time / (ofFrequency hertz).period * (1000000 - hertz)
      ≤ time / (ofFrequency hertz).period * ((ofFrequency hertz).period * hertz) :=
        Nat.mul_le_mul_left _ (by omega)
    _ = time / (ofFrequency hertz).period * (ofFrequency hertz).period * hertz :=
        (Nat.mul_assoc _ _ _).symm
    _ ≤ time * hertz := Nat.mul_le_mul_right _ (Nat.div_mul_le_self _ _)

/-- After any calls on a metronome of up to a million beats a second, the time added is one period
for each beat and what is pending. Whenever no beat is due, there was one for each whole period of
the time added. Draining comes to that point by asking for beats; they are then at least as many as
the frequency names, and not more than if the period were a microsecond shorter. -/
theorem beats_keep_rate {hertz : Nat} (hf : 1 ≤ hertz ∧ hertz ≤ 1000000) (calls : List Call) :
    let t := ofFrequency hertz
    let period := 1000000 / hertz
    let time := added calls
    time = period * t.beatsMade calls + (t.afterAll calls).pending ∧
      ((t.afterAll calls).beat? = none → t.beatsMade calls = time / period) ∧
      ∃ n, let drained := calls ++ List.replicate n .beat
        (t.afterAll calls).drain = (n, t.afterAll drained) ∧
          (t.afterAll drained).beat? = none ∧
          t.beatsMade drained = time / period ∧
          time * hertz / 1000000 ≤ t.beatsMade drained ∧
          t.beatsMade drained * (1000000 - hertz) ≤ time * hertz := by
  intro t period time
  have hperiod : t.period = period := period_ofFrequency hf.1
  have hpos : 0 < t.period := period_ofFrequency_pos hf.2
  have hpending : t.pending = 0 := rfl
  have hcount {cs : List Call} (h : (t.afterAll cs).beat? = none) :
      t.beatsMade cs = added cs / t.period := by
    rw [beatsMade_of_none_due t h, hpending, Nat.zero_add]
  have htime := time_afterAll t calls
  rw [hpending, Nat.zero_add, hperiod] at htime
  refine ⟨htime, fun h => by rw [hcount h, hperiod], (t.afterAll calls).drain.1, ?_⟩
  intro drained
  have hrest : (t.afterAll calls).drain.2 = t.afterAll drained := by
    rw [afterAll_append]
    exact drainWithin_snd _ _
  have hnone : (t.afterAll drained).beat? = none := by
    rw [← hrest]
    exact drain_none_due (by rwa [period_afterAll])
  have hbeats : t.beatsMade drained = time / t.period := by
    rw [hcount hnone, added_append, added_replicate_beat, Nat.add_zero]
  refine ⟨Prod.ext rfl hrest, hnone, by rw [hbeats, hperiod], ?_, ?_⟩
  · rw [hbeats]
    exact nominal_le_div_period hf.1 hpos time
  · rw [hbeats]
    exact div_period_mul_le hf.1 time

/-- At 540 beats a second four milliseconds make two beats. Of the time that comes in two parts the
first is too short for a beat, the second gives one, and draining gives the other. -/
theorem beats_keep_rate_of_two_parts :
    let t := ofFrequency 540
    let calls : List Call := [.add 1000, .beat, .add 3000, .beat]
    (1 ≤ 540 ∧ 540 ≤ 1000000) ∧ t.beatsMade calls = 1 ∧ (t.afterAll calls).pending = 2149 ∧
      ∃ n, (t.afterAll calls).drain = (n, t.afterAll (calls ++ List.replicate n .beat)) ∧
        t.beatsMade (calls ++ List.replicate n .beat) = 2 := by
  intro t calls
  have hf : 1 ≤ 540 ∧ 540 ≤ 1000000 := by decide
  obtain ⟨htime, _, n, hdrain, _, hbeats, _⟩ := beats_keep_rate hf calls
  change added calls = 1000000 / 540 * t.beatsMade calls + (t.afterAll calls).pending at htime
  have hadded : added calls = 4000 := by decide
  have hmade : t.beatsMade calls = 1 := by decide
  rw [hadded, hmade] at htime
  rw [hadded] at hbeats
  exact ⟨hf, hmade, by omega, n, hdrain, hbeats⟩

end Metronome

end Chip8
