import Chip8.Proofs.InstructionForms
import Chip8.Proofs.StorageRuns

/-!
# Faults

A step fails in three cases only: the word has none of the forms of an instruction, it is a return
and the stack is empty, or it is a call and the stack is full. A failure is reported before anything
is written, so the storage is what it was, and trying again fails in the same way for ever.
-/
namespace Chip8

open Storage

namespace Storage

theorem executeTimes_of_fixed {s : Storage} {result : Except Fault Unit}
    (h : s.execute = some (result, s)) (n : Nat) :
    s.executeTimes n = some (List.replicate n result, s) := by
  induction n with
  | zero => rfl
  | succ n ih =>
    simp only [executeTimes, h, bind, Option.bind, ih]
    rfl

end Storage

namespace Machine

theorem fault?_eq_some_iff {m : Machine} {i : Instruction} {f : Fault} :
    m.fault? i = some f ↔
      (i = .ret ∧ m.stack.depth = 0 ∧ f = .stackUnderflow m.here) ∨
        ((∃ a, i = .call a) ∧ m.stack.depth = 16 ∧ f = .stackOverflow m.here) := by
  cases i with
  | ret =>
    by_cases h : m.stack.depth = 0 <;> simp [fault?, h, eq_comm]
  | call a =>
    by_cases h : m.stack.depth = 16 <;> simp [fault?, CallStack.limit, h, eq_comm]
  | _ => simp [fault?]

theorem fetch_eq_error_iff_forms {m : Machine} {f : Fault} :
    m.fetch = .error f ↔
      ((∀ form ∈ Instruction.forms, Word.fits m.word form = false) ∧
          f = .invalidInstruction m.word m.here) ∨
        (m.word = 0x00EE ∧ m.stack.depth = 0 ∧ f = .stackUnderflow m.here) ∨
        (Word.fits m.word "2NNN" = true ∧ m.stack.depth = 16 ∧ f = .stackOverflow m.here) := by
  rw [fetch_eq_error_iff, Instruction.decode_eq_none_iff, ← Instruction.exists_decode_eq_call_iff,
    ← Instruction.decode_eq_ret_iff]
  apply or_congr Iff.rfl
  constructor
  · rintro ⟨i, hi, hf⟩
    rcases fault?_eq_some_iff.1 hf with ⟨rfl, hd, rfl⟩ | ⟨⟨a, rfl⟩, hd, rfl⟩
    · exact .inl ⟨hi, hd, rfl⟩
    · exact .inr ⟨⟨a, hi⟩, hd, rfl⟩
  · rintro (⟨hi, hd, rfl⟩ | ⟨⟨a, hi⟩, hd, rfl⟩)
    · exact ⟨_, hi, fault?_eq_some_iff.2 (.inl ⟨rfl, hd, rfl⟩)⟩
    · exact ⟨_, hi, fault?_eq_some_iff.2 (.inr ⟨⟨a, rfl⟩, hd, rfl⟩)⟩

theorem val_here (m : Machine) : m.here.val = (m.pc &&& 0xFFF).toNat := (toNat_mask m.pc).symm

theorem toNat_word (m : Machine) :
    m.word.toNat =
      256 * (m.memory.read m.here).toNat + (m.memory.read (.ofNat (m.here.val + 1))).toNat :=
  Word.toNat_ofBytes _ _

/-- A machine that does not wait for a key fails to step exactly if the word at its program counter
is no instruction, a return on an empty stack or a call on a full one. The storage is then left as
it was, and all further tries report the same fault. -/
theorem step_fault_iff_and_keeps_state {m : Machine} (hm : m.Reachable) :
    m.here.val = (m.pc &&& 0xFFF).toNat ∧
      m.word.toNat = 256 * (m.memory.read m.here).toNat +
        (m.memory.read (.ofNat (m.here.val + 1))).toNat ∧
      (∀ f, m.step = .error f ↔ m.awaiting = none ∧
        (((∀ form ∈ Instruction.forms, Word.fits m.word form = false) ∧
            f = .invalidInstruction m.word m.here) ∨
          (m.word = 0x00EE ∧ m.stack.depth = 0 ∧ f = .stackUnderflow m.here) ∨
          (Word.fits m.word "2NNN" = true ∧ m.stack.depth = 16 ∧
            f = .stackOverflow m.here))) ∧
      ∀ f, m.step = .error f → m.storage.execute = some (.error f, m.storage) ∧
        ∀ n, m.storage.executeTimes n = some (List.replicate n (.error f), m.storage) := by
  refine ⟨val_here m, toNat_word m, ?_, ?_⟩
  · intro f
    rw [step_eq_error_iff, isWaiting_eq_false_iff, fetch_eq_error_iff_forms]
  · intro f hf
    have he := execute_storage hm.sound_stack
    rw [Operation.after_step_of_error hf, hf] at he
    exact ⟨he, executeTimes_of_fixed he⟩

/-- A program that begins with a return fails on it each time it is stepped. -/
theorem step_fault_of_lone_return :
    let m := start ⟨#[0x00, 0xEE], by decide⟩ .modern (.seeded 0)
    m.Reachable ∧ m.step = .error (.stackUnderflow (.ofNat 512)) ∧
      m.storage.executeTimes 3 =
        some (List.replicate 3 (.error (.stackUnderflow (.ofNat 512))), m.storage) := by
  intro m
  have hm : m.Reachable := .start _ _ _
  have hw : m.word = 0x00EE := word_start _ _ _
  obtain ⟨_, _, hiff, hkeeps⟩ := step_fault_iff_and_keeps_state hm
  have hs : m.step = .error (.stackUnderflow (.ofNat 512)) :=
    (hiff _).2 ⟨rfl, .inr (.inl ⟨hw, rfl, rfl⟩)⟩
  exact ⟨hm, hs, (hkeeps _ hs).2 3⟩

end Machine

end Chip8
