/-!
# Metronomes

A metronome collects elapsed microseconds and gives them back in whole periods, one period a beat.
The period of a frequency is rounded down, and frequency zero counts as one. Above a million beats
a second the period is zero, and then a beat is always due.
-/
namespace Chip8

structure Metronome where
  period : Nat
  pending : Nat
  deriving DecidableEq, Repr

namespace Metronome

def ofFrequency (hertz : Nat) : Metronome where
  period := 1000000 / max hertz 1
  pending := 0

def add (t : Metronome) (micros : Nat) : Metronome :=
  { t with pending := t.pending + micros }

/-- Gives one period back, if enough time has been collected. -/
def beat? (t : Metronome) : Option Metronome :=
  if t.period ≤ t.pending then some { t with pending := t.pending - t.period } else none

def discard (t : Metronome) : Metronome :=
  { t with pending := 0 }

/-- Beats until none is due or `fuel` beats were made, and counts them. -/
def drainWithin : Nat → Metronome → Nat × Metronome
  | 0, t => (0, t)
  | fuel + 1, t =>
      match t.beat? with
      | none => (0, t)
      | some t' =>
          let (n, rest) := drainWithin fuel t'
          (n + 1, rest)

/-- Beats until none is due. The number of whole periods collected is fuel enough; with a period of
zero there would be no last beat, and none is made. -/
def drain (t : Metronome) : Nat × Metronome :=
  drainWithin (t.pending / t.period) t

theorem beat?_of_le {t : Metronome} (h : t.period ≤ t.pending) :
    t.beat? = some { t with pending := t.pending - t.period } := if_pos h

theorem beat?_of_lt {t : Metronome} (h : t.pending < t.period) : t.beat? = none :=
  if_neg (Nat.not_le.2 h)

theorem drainWithin_of_le {fuel : Nat} {t : Metronome} (hp : 0 < t.period)
    (h : t.pending / t.period ≤ fuel) :
    drainWithin fuel t = (t.pending / t.period, { t with pending := t.pending % t.period }) := by
  induction fuel generalizing t with
  | zero =>
    have hz := Nat.le_zero.1 h
    have hlt := (Nat.div_eq_zero_iff_lt hp).1 hz
    simp [drainWithin, hz, Nat.mod_eq_of_lt hlt]
  | succ fuel ih =>
    by_cases hle : t.period ≤ t.pending
    · have hd := Nat.div_eq_sub_div hp hle
      have rest := ih (t := { t with pending := t.pending - t.period }) hp (by simp only; omega)
      simp only [drainWithin, beat?_of_le hle, rest]
      rw [hd, Nat.mod_eq_sub_mod hle]
    · have hlt := Nat.not_le.1 hle
      simp [drainWithin, beat?_of_lt hlt, Nat.div_eq_of_lt hlt, Nat.mod_eq_of_lt hlt]

/-- Draining makes one beat for each whole period and leaves the remainder. -/
theorem drain_eq {t : Metronome} (hp : 0 < t.period) :
    t.drain = (t.pending / t.period, { t with pending := t.pending % t.period }) :=
  drainWithin_of_le hp (Nat.le_refl _)

end Metronome

end Chip8
