import Chip8.Proofs.Footprint
import Chip8.Proofs.StackDiscipline

/-!
# Random bytes in order

The bytes of a stream are numbered from zero. An instruction that asks for a random byte takes the
next one, and nothing else that can be done to a machine takes any, so the number of the byte it
gets is the number of such instructions run since the stream was put in. For a stream made from a
seed the bytes are given in numbers: eight bytes to a draw, the least significant one first, and
each draw from a state that grows by the same amount.
-/
namespace Chip8

namespace Wyrand

/-- Draw number `n`, counted from zero, of the generator with this seed: the state grows by a
constant modulo 2⁶⁴, and the halves of the 128-bit product of the state with its masked form are
folded into 64 bits. -/
def nthDraw (seed n : Nat) : Nat :=
  let state := (seed + (n + 1) * 0xa0761d6478bd642f) % 0x10000000000000000
  let product := state * (state ^^^ 0xe7037ed1a0b428db)
  (product / 0x10000000000000000) ^^^ (product % 0x10000000000000000)

theorem toNat_fold (s : UInt64) :
    (fold s).toNat =
      (s.toNat * (s.toNat ^^^ 0xe7037ed1a0b428db) / 0x10000000000000000) ^^^
        (s.toNat * (s.toNat ^^^ 0xe7037ed1a0b428db) % 0x10000000000000000) := by
  have hmask : (s ^^^ mask).toNat = s.toNat ^^^ 0xe7037ed1a0b428db := UInt64.toNat_xor s mask
  have hproduct : s.toNat * (s ^^^ mask).toNat < 0x10000000000000000 * 0x10000000000000000 :=
    Nat.mul_lt_mul'' s.toNat_lt (s ^^^ mask).toNat_lt
  have hhigh : s.toNat * (s ^^^ mask).toNat / 0x10000000000000000 < 0x10000000000000000 :=
    Nat.div_lt_of_lt_mul hproduct
  rw [← hmask, fold, UInt64.toNat_xor, UInt64.toNat_ofNat', UInt64.toNat_ofNat',
    Nat.shiftRight_eq_div_pow]
  exact congrArg (· ^^^ _) (Nat.mod_eq_of_lt hhigh)

theorem toNat_draw {g : Wyrand} {seed n : Nat}
    (h : g.state.toNat = (seed + n * 0xa0761d6478bd642f) % 0x10000000000000000) :
    g.draw.1.toNat = nthDraw seed n ∧
      g.draw.2.state.toNat = (seed + (n + 1) * 0xa0761d6478bd642f) % 0x10000000000000000 := by
  have hstate : (g.state + increment).toNat =
      (seed + (n + 1) * 0xa0761d6478bd642f) % 0x10000000000000000 := by
    have hinc : increment.toNat = 0xa0761d6478bd642f := rfl
    rw [UInt64.toNat_add, h, hinc]
    omega
  refine ⟨?_, hstate⟩
  simp only [draw, toNat_fold, hstate, nthDraw]

theorem toNat_byte (w : UInt64) (k : Nat) : (byte w k).toNat = (w.toNat >>> (8 * k)) % 256 :=
  UInt8.toNat_ofNat'

end Wyrand

namespace ByteStream

def drop : Nat → ByteStream → ByteStream
  | 0, s => s
  | n + 1, s => drop n s.next.2

def nth (s : ByteStream) (k : Nat) : UInt8 := (s.drop k).next.1

theorem drop_add (s : ByteStream) (j k : Nat) : s.drop (j + k) = (s.drop j).drop k := by
  induction j generalizing s with
  | zero => rw [Nat.zero_add]; rfl
  | succ j ih =>
    rw [Nat.succ_add]
    exact ih s.next.2

theorem nth_add (s : ByteStream) (j k : Nat) : s.nth (j + k) = (s.drop j).nth k := by
  rw [nth, drop_add, nth]

theorem drop_sequence (bytes : Nat → UInt8) (position k : Nat) :
    (sequence bytes position).drop k = sequence bytes (position + k) := by
  induction k generalizing position with
  | zero => rfl
  | succ k ih =>
    have hposition : position + (k + 1) = position + 1 + k := by omega
    rw [hposition]
    exact ih (position + 1)

theorem nth_sequence (bytes : Nat → UInt8) (k : Nat) : (sequence bytes 0).nth k = bytes k := by
  rw [nth, drop_sequence, Nat.zero_add]
  rfl

/-- What is left of a draw comes before the next one. -/
theorem nth_buffered (g : Wyrand) {left : List UInt8} {k : Nat} (h : k < left.length) :
    (buffered g left).nth k = left[k] := by
  induction k generalizing left with
  | zero =>
    cases left with
    | nil => cases h
    | cons b left => rfl
  | succ k ih =>
    cases left with
    | nil => cases h
    | cons b left => exact ih (Nat.lt_of_succ_lt_succ h)

theorem next_draw (g : Wyrand) :
    (buffered g []).next =
      (Wyrand.byte g.draw.1 0,
        buffered g.draw.2 ((List.range' 1 7).map (Wyrand.byte g.draw.1))) := rfl

/-- The eight bytes of a draw come out from the least significant one on. -/
theorem nth_draw (g : Wyrand) {k : Nat} (h : k < 8) :
    (buffered g []).nth k = Wyrand.byte g.draw.1 k := by
  cases k with
  | zero => rw [nth, drop, next_draw]
  | succ k =>
    have hk : k < ((List.range' 1 7).map (Wyrand.byte g.draw.1)).length := by simp; omega
    rw [nth, drop, next_draw, ← nth, nth_buffered _ hk]
    simp [Nat.add_comm]

/-- Behind eight bytes for each of `n` draws, nothing of a draw is left, and the state has grown
`n` times. -/
theorem exists_drop_seeded (seed : UInt64) (n : Nat) :
    ∃ g : Wyrand, (seeded seed).drop (n * 8) = buffered g [] ∧
      g.state.toNat = (seed.toNat + n * 0xa0761d6478bd642f) % 0x10000000000000000 := by
  induction n with
  | zero => exact ⟨⟨seed⟩, by rw [Nat.zero_mul]; rfl, by simp⟩
  | succ n ih =>
    obtain ⟨g, hdrop, hstate⟩ := ih
    refine ⟨g.draw.2, ?_, (Wyrand.toNat_draw hstate).2⟩
    rw [Nat.succ_mul, drop_add, hdrop]
    rfl

theorem toNat_nth_seeded (seed : UInt64) (k : Nat) :
    ((seeded seed).nth k).toNat =
      (Wyrand.nthDraw seed.toNat (k / 8) >>> (8 * (k % 8))) % 256 := by
  obtain ⟨g, hdrop, hstate⟩ := exists_drop_seeded seed (k / 8)
  have hk : k / 8 * 8 + k % 8 = k := Nat.div_add_mod' k 8
  calc ((seeded seed).nth k).toNat
      = (((seeded seed).drop (k / 8 * 8)).nth (k % 8)).toNat := by rw [← nth_add, hk]
    _ = (Wyrand.byte g.draw.1 (k % 8)).toNat := by
        rw [hdrop, nth_draw g (Nat.mod_lt k (by decide))]
    _ = (Wyrand.nthDraw seed.toNat (k / 8) >>> (8 * (k % 8))) % 256 := by
        rw [Wyrand.toNat_byte, (Wyrand.toNat_draw hstate).1]

end ByteStream

namespace Machine

def isRandom (m : Machine) : Bool := Word.fits m.word "CXNN"

def draws (m : Machine) (ops : List Operation) : Nat := (m.ranAll ops).countP isRandom

theorem draws_cons (m : Machine) (op : Operation) (ops : List Operation) :
    m.draws (op :: ops) = (op.ran m).countP isRandom + (op.after m).draws ops := by
  simp [draws, ranAll]

theorem fetch_of_random {m : Machine} (h : m.isRandom = true) :
    m.fetch = .ok (.random (Word.x m.word) (Word.low m.word)) :=
  fetch_eq_ok_iff.2 ⟨Instruction.decode_of_fits_random h, rfl⟩

/-- An instruction takes the next byte or none, by its word. -/
theorem stream_run {m : Machine} {i : Instruction} (h : m.fetch = .ok i) :
    (m.run i).stream = m.stream.drop ([m].countP isRandom) := by
  cases hr : m.isRandom with
  | true =>
    rw [fetch_of_random hr] at h
    cases h
    simp only [List.countP_singleton, hr]
    rfl
  | false =>
    obtain ⟨hd, _⟩ := fetch_eq_ok_iff.1 h
    simp only [List.countP_singleton, hr]
    apply Classical.byContradiction
    intro hne
    have hfit := (footprint_effect hd m).stream hne
    rw [isRandom, hfit] at hr
    cases hr

/-- An operation that puts no other stream in takes as many bytes as it runs instructions that ask
for one. -/
theorem stream_after {m : Machine} {op : Operation} (hop : ∀ s, op ≠ .setStream s) :
    (op.after m).stream = m.stream.drop ((op.ran m).countP isRandom) := by
  cases op with
  | step =>
    rcases Operation.after_step_cases m with ⟨hran, hafter⟩ | ⟨hran, i, hf, hafter⟩
    · rw [hran, hafter]
      rfl
    · rw [hran, hafter]
      exact stream_run hf
  | restart bytes =>
    cases h : Rom.ofBytes bytes with
    | error e =>
      rw [Operation.after_restart_of_error h]
      rfl
    | ok rom =>
      rw [Operation.after_restart_of_ok h]
      rfl
  | latch key down =>
    change (m.latch key down).stream = m.stream
    rw [latch_eq]
  | setStream s => exact absurd rfl (hop s)
  | _ => rfl

theorem stream_afterAll {m : Machine} {ops : List Operation} (hops : ∀ s, .setStream s ∉ ops) :
    (m.afterAll ops).stream = m.stream.drop (m.draws ops) := by
  induction ops generalizing m with
  | nil => rfl
  | cons op ops ih =>
    have hop : ∀ s, op ≠ .setStream s := by
      rintro s rfl
      exact hops s List.mem_cons_self
    have hrest : ∀ s, .setStream s ∉ ops := fun s hs => hops s (List.mem_cons_of_mem _ hs)
    rw [afterAll_cons, ih hrest, stream_after hop, draws_cons, ByteStream.drop_add]

theorem step_of_random {m : Machine} (hw : m.awaiting = none) (h : m.isRandom = true) :
    m.step = .ok (m.run (.random (Word.x m.word) (Word.low m.word))) :=
  step_eq_ok_iff.2 (.inr ⟨isWaiting_eq_false_iff.2 hw, _, fetch_of_random h, rfl⟩)

theorem countP_ran_of_not_random {m : Machine} {op : Operation}
    (h : ¬ (op = .step ∧ m.awaiting = none ∧ m.isRandom = true)) :
    (op.ran m).countP isRandom = 0 := by
  apply List.countP_eq_zero.2
  intro r hr hrandom
  obtain ⟨hop, hw, rfl⟩ := Operation.of_mem_ran hr
  exact h ⟨hop, isWaiting_eq_false_iff.1 hw, hrandom⟩

/-- After a stream `s` was put in and as long as no other one is, the machine is at the byte of `s`
whose number is that of the random instructions run so far. One that is run next takes this byte
to its register, masked, and moves on by one; nothing else that can be done to the machine moves in
the stream. A given sequence is handed out as it is, and byte `k` of a stream made from a seed is
byte `k % 8` of draw `k / 8`. -/
theorem random_bytes_in_order (m : Machine) (s : ByteStream) {ops : List Operation}
    (hops : ∀ s', .setStream s' ∉ ops) :
    let m₀ := (Operation.setStream s).after m
    let a := m₀.afterAll ops
    let k := m₀.draws ops
    a.stream = s.drop k ∧
      (a.awaiting = none → Word.fits a.word "CXNN" = true →
        ∃ a', a.step = .ok a' ∧ a'.register (Word.x a.word) = s.nth k &&& Word.low a.word ∧
          a'.stream = s.drop (k + 1)) ∧
      (∀ op : Operation, (∀ s', op ≠ .setStream s') →
        ¬ (op = .step ∧ a.awaiting = none ∧ Word.fits a.word "CXNN" = true) →
        (op.after a).stream = a.stream) ∧
      (∀ bytes n, (ByteStream.sequence bytes 0).nth n = bytes n) ∧
      ∀ seed n, ((ByteStream.seeded seed).nth n).toNat =
        (Wyrand.nthDraw seed.toNat (n / 8) >>> (8 * (n % 8))) % 256 := by
  intro m₀ a k
  have hstream : a.stream = s.drop k := stream_afterAll hops
  refine ⟨hstream, ?_, ?_, ByteStream.nth_sequence, ByteStream.toNat_nth_seeded⟩
  · intro hw hrandom
    refine ⟨_, step_of_random hw hrandom, ?_, ?_⟩
    · change (a.setRegister (Word.x a.word) (a.stream.next.1 &&& Word.low a.word)).register
        (Word.x a.word) = s.nth k &&& Word.low a.word
      rw [register_setRegister, if_pos rfl, hstream, ByteStream.nth]
    · change a.stream.next.2 = s.drop (k + 1)
      rw [hstream, ByteStream.drop_add]
      rfl
  · intro op hop hidle
    rw [stream_after hop, countP_ran_of_not_random hidle]
    rfl

/-- The second random instruction of a program gets byte 1 of the first draw, though the timers
moved between the two. -/
theorem random_bytes_in_order_of_second_instruction :
    let m := start ⟨#[0xC0, 0xFF, 0xC1, 0x0F], by decide⟩ .modern (.cyclic #[])
    let a := ((Operation.setStream (.seeded 0)).after m).afterAll [.step, .countDown]
    ∃ a', a.step = .ok a' ∧ a'.register ⟨1, by decide⟩ = 0xA5 &&& 0x0F := by
  intro m a
  let m₀ := (Operation.setStream (.seeded 0)).after m
  have hword₀ : m₀.word = 0xC0FF := word_start _ _ (.seeded 0)
  have hrandom : m₀.isRandom = true := by rw [isRandom, hword₀]; decide
  have hran : Operation.step.ran m₀ = [m₀] := by
    have hidle : m₀.isWaiting = false := rfl
    simp [Operation.ran, hidle, fetch_of_random hrandom]
  have hdraws : m₀.draws [.step, .countDown] = 1 := by
    rw [draws_cons, hran, List.countP_singleton, if_pos hrandom]
    rfl
  have hafter : a = (m₀.run (.random (Word.x m₀.word) (Word.low m₀.word))).countDown := by
    change (Operation.step.after m₀).countDown = _
    rw [Operation.after_step_of_ok (step_of_random rfl hrandom)]
  have hword : a.word = 0xC10F := by
    rw [hafter]
    change Word.ofBytes (m.memory.read (.ofNat 514)) (m.memory.read (.ofNat 515)) = 0xC10F
    rw [read_start _ _ _ (k := 2) rfl, read_start _ _ _ (k := 3) rfl]
    rfl
  have hw : a.awaiting = none := by rw [hafter]; rfl
  have hops : ∀ s, Operation.setStream s ∉ [.step, .countDown] := by simp
  obtain ⟨_, hnext, _, _, hseeded⟩ := random_bytes_in_order m (.seeded 0) hops
  obtain ⟨a', hstep, hregister, _⟩ := hnext hw (by rw [hword]; decide)
  have hbyte : (ByteStream.seeded 0).nth 1 = 0xA5 :=
    UInt8.toNat_inj.1 ((hseeded 0 1).trans (by decide))
  rw [hword, hdraws, hbyte] at hregister
  exact ⟨a', hstep, hregister⟩

end Machine

end Chip8
