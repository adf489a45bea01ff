import Chip8.Proofs.Footprint

/-!
# Saving and restoring registers

The instruction `FX55` writes the registers `V0` to `VX` to memory from the index on, and `FX65`
reads them back. At most sixteen bytes are written, so none of them falls on another, also where the
window goes round the end of memory. Registers that were saved can be restored by any machine that
finds this memory and points to the same address, whatever became of its registers; and registers
that were restored can be saved again without changing a byte.
-/
namespace Chip8

namespace Memory

theorem put_read (m : Memory) (a : Address) : m.put a (m.read a) = m :=
  Vector.set_getElem_self a.isLt

theorem window_succ (m : Memory) (a : Address) (n : Nat) :
    m.window a (n + 1) = m.read a :: m.window (a.advance 1) n := by
  simp [window, List.range_succ_eq_map, Address.advance_advance, Nat.add_comm]

theorem write_window (m : Memory) (a : Address) (n : Nat) : m.write a (m.window a n) = m := by
  induction n generalizing a with
  | zero => rfl
  | succ n ih => rw [window_succ, write, put_read, ih]

end Memory

namespace Machine

open Instruction (wordXB)

variable {m m' : Machine} {x : Register}

theorem length_take_registers (m : Machine) (x : Register) :
    (m.registers.toList.take (x.val + 1)).length = x.val + 1 := by
  have hx := x.isLt
  rw [List.length_take, Vector.length_toList]
  omega

theorem read_run_save (m : Machine) {z : Register} (h : z ≤ x) :
    (m.run (.save x)).memory.read (m.cursor.advance z.val) = m.register z := by
  have hlength := m.length_take_registers x
  have hx := x.isLt
  have hz : z.val < (m.registers.toList.take (x.val + 1)).length := by
    rw [hlength]
    exact Nat.lt_succ_of_le h
  have hread := Memory.read_write_of_inside (m := m.memory) (a := m.cursor) (by omega) hz
  rw [List.getElem_take, Vector.getElem_toList] at hread
  exact hread

theorem register_run_restore (m : Machine) (x z : Register) :
    (m.run (.restore x)).register z =
      if z ≤ x then m.memory.read (m.cursor.advance z.val) else m.register z := by
  have hle : z.val < x.val + 1 ↔ z ≤ x := Nat.lt_succ_iff
  have hregister := m.register_restore (x.val + 1) z
  simp only [hle] at hregister
  exact hregister

/-- Registers that hold the bytes from the index on are saved over these bytes. -/
theorem memory_run_save_of_window
    (h : ∀ z, z ≤ x → m.register z = m.memory.read (m.cursor.advance z.val)) :
    (m.run (.save x)).memory = m.memory := by
  have hbytes : m.registers.toList.take (x.val + 1) = m.memory.window m.cursor (x.val + 1) := by
    apply List.ext_getElem
    · rw [length_take_registers, Memory.window, List.length_map, List.length_range]
    · intro k hk _
      rw [length_take_registers] at hk
      have hx := x.isLt
      have hregister := h ⟨k, by omega⟩ (Nat.le_of_lt_succ hk)
      simpa [Memory.window, register] using hregister
  have hmemory : (m.run (.save x)).memory =
      m.memory.write m.cursor (m.registers.toList.take (x.val + 1)) := rfl
  rw [hmemory, hbytes, Memory.write_window]

theorem toNat_indexPast (m : Machine) (n : Nat) :
    (m.indexPast n).toNat =
      if m.dialect.movesIndex then (m.index.toNat + n) % 4096 else m.index.toNat := by
  unfold indexPast
  split
  · rw [Address.toNat_toWord, val_cursor_advance]
  · rfl

structure Resumes (m : Machine) (memory : Memory) (w : UInt16) (m' : Machine) : Prop where
  memory : m'.memory = memory
  index : m'.index.toNat % 4096 = m.index.toNat % 4096
  awaiting : m'.awaiting = none
  word : m'.word = w

theorem Resumes.cursor {memory : Memory} {w : UInt16} (h : m.Resumes memory w m') :
    m'.cursor = m.cursor := Fin.ext h.index

/-- A machine that does not wait saves the registers `V0` to `VX`. Whoever finds its memory and
points to the same address restores these registers as they were, keeps the others and the memory,
and has its index moved past them if its dialect says so. The other way round, the registers `V0` to
`VX` just restored from memory can be saved there, and memory is as it was. -/
theorem save_and_restore_are_inverse (hw : m.awaiting = none) (x : Register) :
    (m.word = wordXB 0xF x 0x55 →
        ∃ saved, m.step = .ok saved ∧
          ∀ m', m.Resumes saved.memory (wordXB 0xF x 0x65) m' →
            ∃ m'', m'.step = .ok m'' ∧ (∀ z, z ≤ x → m''.register z = m.register z) ∧
              (∀ z, x < z → m''.register z = m'.register z) ∧ m''.memory = m'.memory ∧
              m''.index.toNat =
                if m'.dialect.movesIndex then (m'.index.toNat + x.val + 1) % 4096
                else m'.index.toNat) ∧
      (m.word = wordXB 0xF x 0x65 →
        ∃ restored, m.step = .ok restored ∧
          ∀ m', m.Resumes restored.memory (wordXB 0xF x 0x55) m' →
            (∀ z, z ≤ x → m'.register z = restored.register z) →
            ∃ m'', m'.step = .ok m'' ∧ m''.memory = m.memory) := by
  constructor
  · intro hword
    refine ⟨m.run (.save x), step_of_encode (i := .save x) hw hword rfl, ?_⟩
    intro m' h
    refine ⟨m'.run (.restore x), step_of_encode (i := .restore x) h.awaiting h.word rfl, ?_, ?_,
      rfl, toNat_indexPast m' (x.val + 1)⟩
    · intro z hz
      rw [register_run_restore, if_pos hz, h.memory, h.cursor, read_run_save m hz]
    · intro z hz
      rw [register_run_restore, if_neg (Fin.not_le.2 hz)]
  · intro hword
    refine ⟨m.run (.restore x), step_of_encode (i := .restore x) hw hword rfl, ?_⟩
    intro m' h hregisters
    have hmemory : m'.memory = m.memory := h.memory
    refine ⟨m'.run (.save x), step_of_encode (i := .save x) h.awaiting h.word rfl, ?_⟩
    rw [memory_run_save_of_window, hmemory]
    intro z hz
    rw [hregisters z hz, register_run_restore, if_pos hz, hmemory, h.cursor]

/-- Two registers are saved to the last and the first byte of memory. They are restored after all
registers were cleared, and saved again. -/
theorem save_and_restore_are_inverse_across_end_of_memory :
    let rom : Rom := ⟨#[0xF1, 0x55, 0xF1, 0x65, 0xF1, 0x55], by decide⟩
    let fresh := start rom .modern (.seeded 0)
    let m := { (fresh.setRegister ⟨0, by decide⟩ 7).setRegister ⟨1, by decide⟩ 9 with
      index := 0xEFFF }
    ∃ saved restored again : Machine, m.step = .ok saved ∧
      { saved with registers := Vector.replicate 16 0, index := 0xFFF }.step = .ok restored ∧
      restored.register ⟨0, by decide⟩ = 7 ∧ restored.register ⟨1, by decide⟩ = 9 ∧
      restored.register ⟨2, by decide⟩ = 0 ∧ restored.index.toNat = 1 ∧
      { restored with index := 0xFFF }.step = .ok again ∧ again.memory = saved.memory := by
  intro rom fresh m
  let one : Register := ⟨1, by decide⟩
  let cleared : Machine :=
    { m.run (.save one) with registers := Vector.replicate 16 0, index := 0xFFF }
  have hword : m.word = wordXB 0xF one 0x55 := word_start rom .modern (.seeded 0)
  have hcursor : m.cursor = .ofNat 0xFFF := Fin.ext (by decide)
  have hread : ∀ (a : Address) (k : Nat), a.val = Rom.origin + k → a.val < 0xFFF →
      cleared.memory.read a = rom.bytes.getD k 0 := by
    intro a k ha hlt
    rw [← read_start rom .modern (.seeded 0) ha]
    apply Memory.read_write_of_outside
    intro j hj hout
    rw [length_take_registers] at hj
    rw [hcursor] at hout
    have hval : a.val = (0xFFF + j) % 4096 := congrArg Fin.val hout
    have htwo : j < 2 := hj
    simp only [Rom.origin] at ha
    omega
  have hcleared : cleared.word = wordXB 0xF one 0x65 := by
    rw [word, hread cleared.here 2 rfl (by decide),
      hread (cleared.here.advance 1) 3 rfl (by decide)]
    rfl
  obtain ⟨hsave, _⟩ := save_and_restore_are_inverse (m := m) rfl one
  obtain ⟨_, hrestore⟩ := save_and_restore_are_inverse (m := cleared) rfl one
  obtain ⟨saved, hsaved, hfinds⟩ := hsave hword
  obtain ⟨restored, hrestored, hagain⟩ := hrestore hcleared
  have hstep : m.step = .ok (m.run (.save one)) := step_of_encode (i := .save one) rfl hword rfl
  have hstep' : cleared.step = .ok (cleared.run (.restore one)) :=
    step_of_encode (i := .restore one) rfl hcleared rfl
  obtain rfl : m.run (.save one) = saved := Except.ok.inj (hstep.symm.trans hsaved)
  obtain rfl : cleared.run (.restore one) = restored :=
    Except.ok.inj (hstep'.symm.trans hrestored)
  obtain ⟨m', hm', hvalues, hothers, _, hindex⟩ := hfinds cleared ⟨rfl, by decide, rfl, hcleared⟩
  obtain rfl : cleared.run (.restore one) = m' := Except.ok.inj (hstep'.symm.trans hm')
  let back : Machine := { cleared.run (.restore one) with index := 0xFFF }
  have hback : back.word = wordXB 0xF one 0x55 := by
    have hmemory : back.memory = cleared.memory := rfl
    rw [word, hmemory, hread back.here 4 rfl (by decide),
      hread (back.here.advance 1) 5 rfl (by decide)]
    rfl
  obtain ⟨again, hstep'', hmemory⟩ := hagain back ⟨rfl, rfl, rfl, hback⟩ fun _ _ => rfl
  refine ⟨_, _, again, hsaved, hrestored, ?_, ?_, ?_, ?_, hstep'', hmemory⟩
  · exact hvalues ⟨0, by decide⟩ (by decide)
  · exact hvalues one (Fin.le_refl _)
  · exact hothers ⟨2, by decide⟩ (by decide)
  · exact hindex.trans (by decide)

end Machine

end Chip8
