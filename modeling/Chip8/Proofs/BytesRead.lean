import Mathlib.Data.Set.Defs
import Chip8.Proofs.SavedRegisters

/-!
# What a step reads

A step reads the two bytes of its word. Beyond these it looks only at the rows of a sprite that it
draws and at saved registers that it restores. Two machines that differ in other bytes of memory
cannot be told apart by a step: it reports the same of both and leaves them with the same
differences. Bytes that it writes are the same in both afterwards, and each machine keeps its own
bytes at all other addresses.
-/
namespace Chip8

namespace Memory

theorem window_eq_window_iff {m m' : Memory} {a : Address} {n : Nat} :
    m'.window a n = m.window a n ↔ ∀ k, k < n → m'.read (a.advance k) = m.read (a.advance k) := by
  simp only [window, List.map_inj_left, List.mem_range]

end Memory

namespace Instruction

/-- How many bytes from the index on an instruction looks at. -/
def span : Instruction → Nat
  | .draw _ _ n => n.val
  | .restore x => x.val + 1
  | _ => 0

def stores (w : UInt16) : List (String × Instruction) :=
  [("FX33", .decimal (Word.x w)), ("FX55", .save (Word.x w))]

theorem decode_of_store {w : UInt16} {form : String} {i : Instruction} (hm : (form, i) ∈ stores w)
    (h : Word.fits w form = true) : decode w = some i := by
  simp only [stores, List.mem_cons, Prod.mk.injEq, List.not_mem_nil, or_false] at hm
  rcases hm with ⟨rfl, rfl⟩ | ⟨rfl, rfl⟩
  all_goals
    simp [Word.fits, Word.digits, Hex.digit?] at h
    simp [decode, Word.family, Word.toNat_low, ← h, ofMiscCode?]

theorem last_of_decode_draw {w : UInt16} {x y : Register} {n : Fin 16}
    (h : decode w = some (.draw x y n)) : Word.last w = n := by
  rw [← encode_of_decode h]
  simp [encode, parts_wordXYN]

end Instruction

namespace Machine

open Instruction (decode span stores decode_of_store fits_of_form x_of_decode last_of_decode_draw)

def InWindow (m : Machine) (n : Nat) (a : Address) : Prop :=
  ∃ k, k < n ∧ a.val = (m.index.toNat + k) % 4096

inductive Reads (m : Machine) (a : Address) : Prop where
  | high (h : a.val = m.pc.toNat % 4096)
  | low (h : a.val = (m.pc.toNat % 4096 + 1) % 4096)
  | sprite (hform : Word.fits m.word "DXYN" = true) (h : m.InWindow (Word.last m.word).val a)
  | saved (hform : Word.fits m.word "FX65" = true) (h : m.InWindow ((Word.x m.word).val + 1) a)

inductive Writes (m : Machine) (a : Address) : Prop where
  | digits (hform : Word.fits m.word "FX33" = true) (h : m.InWindow 3 a)
  | registers (hform : Word.fits m.word "FX55" = true) (h : m.InWindow ((Word.x m.word).val + 1) a)

structure EqualBut (A : Set Address) (m m' : Machine) : Prop where
  rest : m' = { m with memory := m'.memory }
  read : ∀ a, a ∉ A → m'.memory.read a = m.memory.read a

def recalling (m : Machine) (memory : Memory) : Machine := { m with memory := memory }

def written (m : Machine) : Instruction → List UInt8
  | .decimal x => decimalDigits (m.register x)
  | .save x => m.registers.toList.take (x.val + 1)
  | _ => []

variable {m m' : Machine} {memory : Memory} {i : Instruction} {a : Address} {A : Set Address}

theorem inWindow_iff {n : Nat} : m.InWindow n a ↔ ∃ k, k < n ∧ a = m.cursor.advance k := by
  simp only [InWindow, Fin.ext_iff, val_cursor_advance]

theorem length_written_le (m : Machine) (i : Instruction) : (m.written i).length ≤ 4096 := by
  cases i with
  | save x =>
    have hx := x.isLt
    rw [written, length_take_registers]
    omega
  | decimal x => exact Nat.le_of_ble_eq_true rfl
  | _ => exact Nat.zero_le _

theorem fetch_recalling (hhigh : memory.read m.here = m.memory.read m.here)
    (hlow : memory.read (m.here.advance 1) = m.memory.read (m.here.advance 1)) :
    (m.recalling memory).fetch = m.fetch := by
  have hword : (m.recalling memory).word = m.word := by
    rw [word, word, ← hhigh, ← hlow]
    rfl
  have hfault : ∀ i, (m.recalling memory).fault? i = m.fault? i := by
    intro i
    cases i <;> rfl
  have hhere : (m.recalling memory).here = m.here := rfl
  simp only [fetch, hword, hfault, hhere]

theorem drawSprite_recalling {n : Nat}
    (h : memory.window m.cursor n = m.memory.window m.cursor n) (x y : Register) :
    (m.recalling memory).drawSprite x y n = (m.drawSprite x y n).recalling memory := by
  simp only [drawSprite, ← h]
  rfl

theorem restore_recalling {n : Nat}
    (h : memory.window m.cursor n = m.memory.window m.cursor n) :
    (m.recalling memory).restore n = (m.restore n).recalling memory := by
  have hregisters : ((m.recalling memory).restore n).registers = (m.restore n).registers := by
    apply Vector.ext
    intro k hk
    change ((m.recalling memory).restore n).register ⟨k, hk⟩ = (m.restore n).register ⟨k, hk⟩
    rw [register_restore, register_restore]
    by_cases hkn : k < n
    · rw [if_pos hkn, if_pos hkn]
      exact Memory.window_eq_window_iff.1 h k hkn
    · rw [if_neg hkn, if_neg hkn]
      rfl
  exact congrArg (fun registers => { (m.restore n).recalling memory with registers := registers })
    hregisters

/-- Memory with the same bytes where an instruction looks serves it as well, and takes the same
bytes that it writes. -/
theorem run_recalling (h : memory.window m.cursor i.span = m.memory.window m.cursor i.span) :
    (m.recalling memory).run i =
      (m.run i).recalling (memory.write m.cursor (m.written i)) := by
  cases i with
  | skipIf t => cases t <;> rfl
  | compute op x y =>
    simp only [run, effect, compute_eq]
    rfl
  | draw x y n =>
    have hdraw := drawSprite_recalling (n := n.val) h x y
    simp only [run, effect, hdraw]
    rfl
  | awaitKey x =>
    have hpressed : (m.recalling memory).pressed? = m.pressed? := rfl
    simp only [run, effect, hpressed]
    cases m.pressed? <;> rfl
  | restore x =>
    have hrestore := restore_recalling (n := x.val + 1) h
    simp only [run, effect, hrestore]
    rfl
  | _ => rfl

theorem memory_run (m : Machine) (i : Instruction) :
    (m.run i).memory = m.memory.write m.cursor (m.written i) := by
  have hown := run_recalling (Eq.refl (m.memory.window m.cursor i.span))
  exact congrArg Machine.memory hown

theorem reads_of_span (hd : decode m.word = some i) {k : Nat} (hk : k < i.span) :
    m.Reads (m.cursor.advance k) := by
  cases i with
  | draw x y n =>
    refine .sprite (fits_of_form hd rfl) (inWindow_iff.2 ⟨k, ?_, rfl⟩)
    rwa [last_of_decode_draw hd]
  | restore x =>
    refine .saved (fits_of_form hd rfl) (inWindow_iff.2 ⟨k, ?_, rfl⟩)
    rwa [x_of_decode hd rfl]
  | _ => cases hk

/-- A word that writes to memory is an instruction that never fails. -/
theorem Writes.exists_fetch (h : m.Writes a) :
    ∃ i, m.fetch = .ok i ∧ ∃ k, k < (m.written i).length ∧ a = m.cursor.advance k := by
  rcases h with ⟨hform, h⟩ | ⟨hform, h⟩
  · have hd := decode_of_store (i := .decimal (Word.x m.word)) (by simp [stores]) hform
    exact ⟨_, fetch_eq_ok_iff.2 ⟨hd, rfl⟩, inWindow_iff.1 h⟩
  · have hd := decode_of_store (i := .save (Word.x m.word)) (by simp [stores]) hform
    refine ⟨_, fetch_eq_ok_iff.2 ⟨hd, rfl⟩, ?_⟩
    rw [written, length_take_registers]
    exact inWindow_iff.1 h

theorem writes_iff (hd : decode m.word = some i) :
    m.Writes a ↔ ∃ k, k < (m.written i).length ∧ a = m.cursor.advance k := by
  constructor
  · intro h
    obtain ⟨j, hfetch, hwindow⟩ := h.exists_fetch
    have hj := (fetch_eq_ok_iff.1 hfetch).1
    rw [hd] at hj
    cases hj
    exact hwindow
  · rintro ⟨k, hk, ha⟩
    cases i with
    | decimal x => exact .digits (fits_of_form hd rfl) (inWindow_iff.2 ⟨k, hk, ha⟩)
    | save x =>
      rw [written, length_take_registers] at hk
      refine .registers (fits_of_form hd rfl) (inWindow_iff.2 ⟨k, ?_, ha⟩)
      rwa [x_of_decode hd rfl]
    | _ => cases hk

/-- Bytes that a step writes do not depend on the memory that they are written to. -/
theorem read_write_of_writes (hd : decode m.word = some i) (h : m.Writes a)
    (memory memory' : Memory) :
    (memory'.write m.cursor (m.written i)).read a =
      (memory.write m.cursor (m.written i)).read a := by
  obtain ⟨k, hk, rfl⟩ := (writes_iff hd).1 h
  rw [Memory.read_write_of_inside (length_written_le m i) hk,
    Memory.read_write_of_inside (length_written_le m i) hk]

theorem read_write_of_not_writes (hd : decode m.word = some i) (h : ¬ m.Writes a)
    (memory : Memory) : (memory.write m.cursor (m.written i)).read a = memory.read a := by
  apply Memory.read_write_of_outside
  intro k hk ha
  exact h ((writes_iff hd).2 ⟨k, hk, ha⟩)

theorem EqualBut.eq_recalling (h : m.EqualBut A m') : m' = m.recalling m'.memory := h.rest

theorem EqualBut.awaiting (h : m.EqualBut A m') : m'.awaiting = m.awaiting := by
  rw [h.eq_recalling]
  rfl

theorem EqualBut.fetch (h : m.EqualBut A m') (hA : ∀ a ∈ A, ¬ m.Reads a) : m'.fetch = m.fetch := by
  have hhigh : m.here ∉ A := fun ha => hA _ ha (.high rfl)
  have hlow : m.here.advance 1 ∉ A := fun ha => hA _ ha (.low rfl)
  rw [h.eq_recalling]
  exact fetch_recalling (h.read _ hhigh) (h.read _ hlow)

theorem EqualBut.run_eq (h : m.EqualBut A m') (hA : ∀ a ∈ A, ¬ m.Reads a)
    (hd : decode m.word = some i) :
    m'.run i = (m.run i).recalling (m'.memory.write m.cursor (m.written i)) := by
  have hwindow : m'.memory.window m.cursor i.span = m.memory.window m.cursor i.span :=
    Memory.window_eq_window_iff.2 fun k hk => h.read _ fun ha => hA _ ha (reads_of_span hd hk)
  rw [← run_recalling hwindow, ← h.eq_recalling]

/-- Outside of `A` a byte is written in both machines or kept in both. -/
theorem EqualBut.run (h : m.EqualBut A m') (hA : ∀ a ∈ A, ¬ m.Reads a)
    (hd : decode m.word = some i) : (m.run i).EqualBut A (m'.run i) := by
  rw [h.run_eq hA hd]
  refine ⟨rfl, fun a ha => ?_⟩
  rw [memory_run]
  by_cases hwrites : m.Writes a
  · exact read_write_of_writes hd hwrites _ _
  · exact (read_write_of_not_writes hd hwrites _).trans
      ((h.read a ha).trans (read_write_of_not_writes hd hwrites _).symm)

/-- Let `m` not wait, and let `m'` be equal to it but for bytes at addresses at which a step of `m`
does not look. Then a step reports the same of both and leaves them equal but for bytes at these
addresses. Of these bytes those that the step writes are the same in both, and the others are as
they were in each of them. -/
theorem step_reads_nothing_else (hw : m.awaiting = none) (hA : ∀ a ∈ A, ¬ m.Reads a)
    (h : m.EqualBut A m') :
    let n := Operation.step.after m
    let n' := Operation.step.after m'
    Operation.step.report m' = Operation.step.report m ∧ n.EqualBut A n' ∧
      ∀ a ∈ A, (m.Writes a → n'.memory.read a = n.memory.read a) ∧
        (¬ m.Writes a →
          n.memory.read a = m.memory.read a ∧ n'.memory.read a = m'.memory.read a) := by
  intro n n'
  have hidle := isWaiting_eq_false_iff.2 hw
  have hidle' := isWaiting_eq_false_iff.2 (h.awaiting.trans hw)
  have hfetch := h.fetch hA
  cases hf : m.fetch with
  | error f =>
    have hstep := step_eq_error_iff.2 ⟨hidle, hf⟩
    have hstep' := step_eq_error_iff.2 ⟨hidle', hfetch.trans hf⟩
    have hn : n = m := Operation.after_step_of_error hstep
    have hn' : n' = m' := Operation.after_step_of_error hstep'
    rw [hn, hn', Operation.report_step, Operation.report_step, hstep, hstep']
    refine ⟨rfl, h, fun a _ => ⟨fun hwrites => ?_, fun _ => ⟨rfl, rfl⟩⟩⟩
    -- Nothing is written by a step that fails.
    obtain ⟨i, hi, _⟩ := hwrites.exists_fetch
    rw [hf] at hi
    cases hi
  | ok i =>
    have hd := (fetch_eq_ok_iff.1 hf).1
    have hstep := step_eq_ok_iff.2 (.inr ⟨hidle, i, hf, rfl⟩)
    have hstep' := step_eq_ok_iff.2 (.inr ⟨hidle', i, hfetch.trans hf, rfl⟩)
    have hn : n = m.run i := Operation.after_step_of_ok hstep
    have hn' : n' = m'.run i := Operation.after_step_of_ok hstep'
    have hmemory' : (m'.run i).memory = m'.memory.write m.cursor (m.written i) :=
      congrArg Machine.memory (h.run_eq hA hd)
    rw [hn, hn', Operation.report_step, Operation.report_step, hstep, hstep']
    refine ⟨rfl, h.run hA hd, fun a _ => ?_⟩
    rw [hmemory', memory_run]
    exact ⟨fun hwrites => read_write_of_writes hd hwrites _ _, fun hkept =>
      ⟨read_write_of_not_writes hd hkept _, read_write_of_not_writes hd hkept _⟩⟩

/-- Two registers are saved at address zero. A byte that is overwritten does not matter, and one far
from the window stays different. -/
theorem step_reads_nothing_else_of_save :
    let m := start ⟨#[0xF1, 0x55], by decide⟩ .modern (.seeded 0)
    let m' := m.recalling ((m.memory.put (.ofNat 1) 0xAA).put (.ofNat 0x300) 0xBB)
    let n := Operation.step.after m
    let n' := Operation.step.after m'
    Operation.step.report m' = Operation.step.report m ∧
      n.EqualBut {a | a = .ofNat 1 ∨ a = .ofNat 0x300} n' ∧
      n'.memory.read (.ofNat 1) = n.memory.read (.ofNat 1) ∧
      n.memory.read (.ofNat 0x300) = m.memory.read (.ofNat 0x300) ∧
      n'.memory.read (.ofNat 0x300) = 0xBB := by
  intro m m' n n'
  have hword : m.word = 0xF155 := word_start _ _ _
  have hidle : m.awaiting = none := rfl
  have hpc : m.pc.toNat = 0x200 := rfl
  have hindex : m.index.toNat = 0 := rfl
  clear_value m
  have hfar : m'.memory.read (.ofNat 0x300) = 0xBB := by
    change (Memory.put _ _ _).read _ = _
    rw [Memory.read_put, if_pos rfl]
  let A : Set Address := {a | a = .ofNat 1 ∨ a = .ofNat 0x300}
  have hequal : m.EqualBut A m' := by
    refine ⟨rfl, fun a ha => ?_⟩
    change (Memory.put _ _ _).read a = _
    rw [Memory.read_put, if_neg fun h => ha (.inr h.symm), Memory.read_put,
      if_neg fun h => ha (.inl h.symm)]
  have hreads : ∀ a ∈ A, ¬ m.Reads a := by
    rintro a ha (hplace | hplace | ⟨hform, _⟩ | ⟨hform, _⟩)
    · rw [hpc] at hplace
      rcases ha with rfl | rfl <;> exact absurd hplace (by decide)
    · rw [hpc] at hplace
      rcases ha with rfl | rfl <;> exact absurd hplace (by decide)
    · rw [hword] at hform
      cases hform
    · rw [hword] at hform
      cases hform
  have hnear : m.Writes (.ofNat 1) := by
    refine .registers ?_ ⟨1, ?_, ?_⟩
    · rw [hword]
      decide
    · rw [hword]
      decide
    · rw [hindex]
      rfl
  have hkept : ¬ m.Writes (.ofNat 0x300) := by
    rintro (⟨hform, _⟩ | ⟨_, k, hk, hval⟩)
    · rw [hword] at hform
      cases hform
    · rw [hword] at hk
      rw [hindex] at hval
      have htwo : k < 2 := hk
      have hplace : 0x300 = (0 + k) % 4096 := hval
      omega
  obtain ⟨hreport, hafter, hbytes⟩ := step_reads_nothing_else hidle hreads hequal
  have hkeeps := (hbytes (.ofNat 0x300) (.inr rfl)).2 hkept
  exact ⟨hreport, hafter, (hbytes (.ofNat 1) (.inl rfl)).1 hnear, hkeeps.1, hkeeps.2.trans hfar⟩

end Machine

end Chip8
