import Chip8.Proofs.StorageRuns

/-!
# Restarts

In its power-on state a machine has the font, a program and zeros in memory, and nothing is left of
what it did before: registers, stack, timers, picture and keypad are empty and no key is awaited.
Only the dialect and the byte stream are open, so there is one such state for each program, dialect
and stream. A restart leads there from any machine, with the dialect and the stream it has. A
program that is too large is refused, and then the machine is as it was.
-/
namespace Chip8

namespace Machine

structure PowerOn (bytes : Array UInt8) (m : Machine) : Prop where
  read_font : ∀ (a : Address) (h : a.val < 80), m.memory.read a = font[a.val]
  read_program : ∀ (a : Address) (k : Nat) (h : k < bytes.size),
    a.val = 0x200 + k → m.memory.read a = bytes[k]
  read_zero : ∀ a : Address, 80 ≤ a.val → a.val < 0x200 ∨ 0x200 + bytes.size ≤ a.val →
    m.memory.read a = 0
  pc : m.pc = 0x200
  index : m.index = 0
  register : ∀ x, m.register x = 0
  slot : ∀ k, m.stack.slots.get k = 0
  depth : m.stack.depth = 0
  delay : m.delay = 0
  sound : m.sound = 0
  dark : ∀ c, m.raster.isLit c = false
  up : ∀ k, m.isDown k = false
  awaiting : m.awaiting = none

theorem powerOn_start (rom : Rom) (d : Dialect) (s : ByteStream) :
    (start rom d s).PowerOn rom.bytes where
  read_font a h := by simp [start, Rom.read_image, h]
  read_program a k h ha := by
    rw [read_start rom d s ha]
    simp [Array.getD, h]
  read_zero a hfont hout := by
    rcases hout with hbelow | habove
    · have hlow : ¬ a.val < 80 := Nat.not_lt.2 hfont
      have horigin : a.val < Rom.origin := hbelow
      simp [start, Rom.read_image, hlow, horigin]
    · have ha : a.val = Rom.origin + (a.val - 0x200) := by
        rw [Rom.origin]
        omega
      have hsize : ¬ a.val - 0x200 < rom.bytes.size := by omega
      rw [read_start rom d s ha]
      simp [Array.getD, hsize]
  pc := rfl
  index := rfl
  register x := Vector.getElem_replicate x.isLt
  slot k := Vector.getElem_replicate k.isLt
  depth := rfl
  delay := rfl
  sound := rfl
  dark c := Vector.getElem_replicate c.isLt
  up k := Vector.getElem_replicate k.isLt
  awaiting := rfl

variable {bytes : Array UInt8} {m m' : Machine}

/-- Font, program and the space around them make up the whole memory. -/
theorem PowerOn.read_eq (h : m.PowerOn bytes) (h' : m'.PowerOn bytes) (a : Address) :
    m.memory.read a = m'.memory.read a := by
  by_cases hfont : a.val < 80
  · rw [h.read_font a hfont, h'.read_font a hfont]
  · by_cases hprogram : 0x200 ≤ a.val ∧ a.val - 0x200 < bytes.size
    · have ha : a.val = 0x200 + (a.val - 0x200) := by omega
      rw [h.read_program a _ hprogram.2 ha, h'.read_program a _ hprogram.2 ha]
    · have hout : a.val < 0x200 ∨ 0x200 + bytes.size ≤ a.val := by omega
      rw [h.read_zero a (by omega) hout, h'.read_zero a (by omega) hout]

/-- A power-on state leaves nothing open but the dialect and the byte stream. -/
theorem PowerOn.eq_of_powerOn (h : m.PowerOn bytes) (h' : m'.PowerOn bytes) :
    m = { m' with dialect := m.dialect, stream := m.stream } := by
  have hmemory : m.memory = m'.memory := Vector.ext fun k hk => h.read_eq h' ⟨k, hk⟩
  have hregisters : m.registers = m'.registers := Vector.ext fun k hk =>
    (h.register ⟨k, hk⟩).trans (h'.register ⟨k, hk⟩).symm
  have hslots : m.stack.slots = m'.stack.slots := Vector.ext fun k hk =>
    (h.slot ⟨k, hk⟩).trans (h'.slot ⟨k, hk⟩).symm
  have hstack : m.stack = m'.stack := by
    rw [CallStack.mk.injEq, hslots, h.depth, h'.depth]
    exact ⟨rfl, rfl⟩
  have hcells : m.raster = m'.raster := congrArg Raster.mk <| Vector.ext fun k hk =>
    (h.dark ⟨k, hk⟩).trans (h'.dark ⟨k, hk⟩).symm
  have hkeypad : m.keypad = m'.keypad := Vector.ext fun k hk =>
    (h.up ⟨k, hk⟩).trans (h'.up ⟨k, hk⟩).symm
  rw [Machine.mk.injEq]
  exact ⟨h.pc.trans h'.pc.symm, h.index.trans h'.index.symm, hregisters, hmemory, hstack,
    h.delay.trans h'.delay.symm, h.sound.trans h'.sound.symm, hcells, hkeypad,
    h.awaiting.trans h'.awaiting.symm, rfl, rfl⟩

/-- A restart brings any machine into the power-on state of the program, which is that of a machine
made for it but for the dialect and the byte stream; these stay as they are, and the state leaves
nothing else open. A program of more than 3584 bytes is refused and the storage left as it was. -/
theorem restart_erases_history (m : Machine) (bytes : Array UInt8) :
    (bytes.size ≤ 3584 →
      ∃ rom m', Rom.ofBytes bytes = .ok rom ∧ (Operation.restart bytes).perform m = .ok m' ∧
        m.storage.perform (.restart bytes) = some (.ok (), m'.storage) ∧
        (∀ d s, m' = { start rom d s with dialect := m.dialect, stream := m.stream }) ∧
        m'.PowerOn bytes ∧
        ∀ other : Machine, other.PowerOn bytes →
          other = { m' with dialect := other.dialect, stream := other.stream }) ∧
      (3584 < bytes.size →
        (Operation.restart bytes).perform m = .error (.rom (.tooLarge bytes.size)) ∧
          m.storage.perform (.restart bytes) =
            some (.error (.rom (.tooLarge bytes.size)), m.storage)) := by
  have hstorage := m.restart_storage bytes
  constructor
  · intro hsize
    have hrom : Rom.ofBytes bytes = .ok ⟨bytes, hsize⟩ := dif_pos hsize
    have hperform : (Operation.restart bytes).perform m = .ok (m.restart ⟨bytes, hsize⟩) :=
      Operation.perform_restart_of_ok hrom
    have hpower : (m.restart ⟨bytes, hsize⟩).PowerOn bytes :=
      powerOn_start ⟨bytes, hsize⟩ m.dialect m.stream
    rw [hperform, Operation.after_restart_of_ok hrom] at hstorage
    exact ⟨_, _, hrom, hperform, hstorage, fun _ _ => rfl, hpower,
      fun other hother => hother.eq_of_powerOn hpower⟩
  · intro hsize
    have hrom : Rom.ofBytes bytes = .error (.tooLarge bytes.size) := dif_neg (Nat.not_le.2 hsize)
    have hperform : (Operation.restart bytes).perform m = .error (.rom (.tooLarge bytes.size)) :=
      Operation.perform_restart_of_error hrom
    rw [hperform, Operation.after_restart_of_error hrom] at hstorage
    exact ⟨hperform, hstorage⟩

end Machine

end Chip8
