import Chip8.Operation

/-!
# Machines that can be reached

A machine is reachable if it was just started or comes out of a reachable machine by an operation,
whether that succeeded or not. This module takes a step apart into its cases, says what each
operation does to the call stack, and derives that the stack of a reachable machine is sound: it
holds at most sixteen entries, and every slot, also one above the depth, is an address.
-/
namespace Chip8

namespace CallStack

structure Sound (s : CallStack) : Prop where
  depth_le : s.depth ≤ limit
  slot_lt : ∀ k : Fin 16, (s.slots.get k).toNat < 4096

theorem sound_empty : empty.Sound where
  depth_le := Nat.zero_le _
  slot_lt k := by
    have hk : empty.slots[k.val] = 0 := Vector.getElem_replicate k.isLt
    change empty.slots[k.val].toNat < 4096
    rw [hk]
    decide

theorem push_of_full {s : CallStack} (h : ¬ s.depth < 16) (w : UInt16) : s.push w = s :=
  dif_neg h

theorem get_slots_push {s : CallStack} (h : s.depth < 16) (w : UInt16) (k : Fin 16) :
    (s.push w).slots.get k = if s.depth = k.val then w else s.slots.get k := by
  have hpush : (s.push w).slots = s.slots.set s.depth w h := by simp [push, h]
  rw [hpush]
  exact Vector.getElem_set h k.isLt

theorem top_eq_get {s : CallStack} (h : s.depth - 1 < 16) :
    s.top = s.slots.get ⟨s.depth - 1, h⟩ := by
  rw [top, Vector.getElem?_eq_getElem h]
  rfl

theorem Sound.push {s : CallStack} (hs : s.Sound) (a : Address) : (s.push a.toWord).Sound := by
  by_cases h : s.depth < 16
  · refine ⟨?_, fun k => ?_⟩
    · rw [depth_push h]
      exact h
    · have ha := Address.toNat_toWord a
      rw [get_slots_push h]
      split
      · omega
      · exact hs.slot_lt k
  · rwa [push_of_full h]

theorem Sound.pop {s : CallStack} (hs : s.Sound) : s.pop.Sound where
  depth_le := Nat.le_trans (Nat.sub_le _ _) hs.depth_le
  slot_lt := hs.slot_lt

theorem Sound.top_lt {s : CallStack} (hs : s.Sound) : s.top.toNat < 4096 := by
  by_cases h : s.depth - 1 < 16
  · rw [top_eq_get h]
    exact hs.slot_lt _
  · simp [top, h]

end CallStack

namespace Machine

theorem isWaiting_eq_false_iff {m : Machine} : m.isWaiting = false ↔ m.awaiting = none := by
  simp [isWaiting]

theorem step_of_waiting {m : Machine} (h : m.isWaiting = true) : m.step = .ok m := if_pos h

theorem step_of_idle {m : Machine} (h : m.isWaiting = false) : m.step = m.fetch.map m.run := by
  simp [step, h]

theorem step_eq_error_iff {m : Machine} {f : Fault} :
    m.step = .error f ↔ m.isWaiting = false ∧ m.fetch = .error f := by
  cases hw : m.isWaiting with
  | true => simp [step_of_waiting hw]
  | false =>
    rw [step_of_idle hw]
    cases m.fetch <;> simp [Except.map]

/-- A successful step leaves a waiting machine alone and runs the instruction of any other. -/
theorem step_eq_ok_iff {m m' : Machine} :
    m.step = .ok m' ↔
      (m.isWaiting = true ∧ m' = m) ∨
        (m.isWaiting = false ∧ ∃ i, m.fetch = .ok i ∧ m' = m.run i) := by
  cases hw : m.isWaiting with
  | true => simp [step_of_waiting hw, eq_comm]
  | false =>
    rw [step_of_idle hw]
    cases m.fetch <;> simp [Except.map, eq_comm]

theorem fetch_eq_ok_iff {m : Machine} {i : Instruction} :
    m.fetch = .ok i ↔ Instruction.decode m.word = some i ∧ m.fault? i = none := by
  unfold fetch
  cases Instruction.decode m.word with
  | none => simp
  | some j =>
    cases hf : m.fault? j with
    | none =>
      simp only [hf, Except.ok.injEq, Option.some.injEq]
      constructor
      · rintro rfl
        exact ⟨rfl, hf⟩
      · exact fun h => h.1
    | some f =>
      simp only [hf, reduceCtorEq, Option.some.injEq, false_iff, not_and]
      rintro rfl
      simp [hf]

theorem step_of_decode {m : Machine} {i : Instruction} (hw : m.awaiting = none)
    (hd : Instruction.decode m.word = some i) (hf : m.fault? i = none) :
    m.step = .ok (m.run i) :=
  step_eq_ok_iff.2 (.inr ⟨isWaiting_eq_false_iff.2 hw, i, fetch_eq_ok_iff.2 ⟨hd, hf⟩, rfl⟩)

theorem step_of_encode {m : Machine} {i : Instruction} (hw : m.awaiting = none)
    (hword : m.word = i.encode) (hf : m.fault? i = none) : m.step = .ok (m.run i) := by
  apply step_of_decode hw _ hf
  rw [hword]
  exact Instruction.decode_encode i

theorem fetch_eq_error_iff {m : Machine} {f : Fault} :
    m.fetch = .error f ↔
      (Instruction.decode m.word = none ∧ f = .invalidInstruction m.word m.here) ∨
        ∃ i, Instruction.decode m.word = some i ∧ m.fault? i = some f := by
  unfold fetch
  cases Instruction.decode m.word with
  | none => simp [eq_comm]
  | some j => cases hf : m.fault? j <;> simp [hf]

theorem read_start (rom : Rom) (d : Dialect) (s : ByteStream) {a : Address} {k : Nat}
    (h : a.val = Rom.origin + k) : (start rom d s).memory.read a = rom.bytes.getD k 0 := by
  have hfont : ¬ a.val < 80 := by
    simp only [h, Rom.origin]
    omega
  have horigin : ¬ a.val < Rom.origin := by omega
  have hk : a.val - Rom.origin = k := by omega
  simp only [start, Rom.read_image, hfont, horigin, hk, dite_false, if_false]

theorem word_start (rom : Rom) (d : Dialect) (s : ByteStream) :
    (start rom d s).word = Word.ofBytes (rom.bytes.getD 0 0) (rom.bytes.getD 1 0) := by
  rw [word, read_start rom d s (k := 0) rfl, read_start rom d s (k := 1) rfl]

def computed (m : Machine) (op : Arithmetic) (x y : Register) : Vector UInt8 16 :=
  match op.eval m.dialect (m.register x) (m.register y) with
  | (v, none) => (m.setRegister x v).registers
  | (v, some f) => ((m.setRegister x v).setRegister flag f).registers

theorem compute_eq (m : Machine) (op : Arithmetic) (x y : Register) :
    m.compute op x y = { m with registers := m.computed op x y } := by
  unfold compute computed
  cases op.eval m.dialect (m.register x) (m.register y) with
  | mk v f => cases f <;> rfl

def stackAfter (m : Machine) : Instruction → CallStack
  | .ret => m.stack.pop
  | .call _ => m.stack.push m.here.toWord
  | _ => m.stack

theorem stack_compute (m : Machine) (op : Arithmetic) (x y : Register) :
    (m.compute op x y).stack = m.stack := by
  rw [compute_eq]

theorem stack_effect (m : Machine) (i : Instruction) : (m.effect i).stack = m.stackAfter i := by
  cases i with
  | compute op x y => exact stack_compute m op x y
  | awaitKey x =>
    simp only [effect]
    split <;> rfl
  | _ => rfl

theorem stack_run (m : Machine) (i : Instruction) : (m.run i).stack = m.stackAfter i :=
  stack_effect m i

/-- A key reaches the registers, the keypad and the wait for a key only. -/
theorem latch_eq (m : Machine) (key : UInt8) (down : Bool) :
    m.latch key down =
      { m with
        registers := (m.latch key down).registers
        keypad := (m.latch key down).keypad
        awaiting := (m.latch key down).awaiting } := by
  unfold latch deliver
  split
  · cases down with
    | false => rfl
    | true =>
      simp only [if_true]
      split <;> rfl
  · rfl

/-- What a key does depends on the registers, the keypad and the wait for a key only. -/
theorem latch_of_same {m m' : Machine} (hr : m'.registers = m.registers)
    (hk : m'.keypad = m.keypad) (ha : m'.awaiting = m.awaiting) (key : UInt8) (down : Bool) :
    (m'.latch key down).registers = (m.latch key down).registers ∧
      (m'.latch key down).keypad = (m.latch key down).keypad ∧
      (m'.latch key down).awaiting = (m.latch key down).awaiting := by
  unfold latch deliver
  split
  · cases down with
    | false => simp [markKey, hr, hk, ha]
    | true =>
      simp only [markKey, if_true, ha]
      cases m.awaiting <;> simp [setRegister, hr, hk]
  · exact ⟨hr, hk, ha⟩

theorem stack_latch (m : Machine) (key : UInt8) (down : Bool) :
    (m.latch key down).stack = m.stack := by
  rw [latch_eq]

end Machine

namespace Operation

theorem after_step_of_ok {m m' : Machine} (h : m.step = .ok m') : step.after m = m' := by
  simp only [after, perform, h]
  rfl

theorem after_step_of_error {m : Machine} {f : Fault} (h : m.step = .error f) :
    step.after m = m := by
  simp only [after, perform, h]
  rfl

theorem perform_restart_of_ok {m : Machine} {bytes : Array UInt8} {rom : Rom}
    (h : Rom.ofBytes bytes = .ok rom) : (restart bytes).perform m = .ok (m.restart rom) := by
  rw [perform, h]
  rfl

theorem perform_restart_of_error {m : Machine} {bytes : Array UInt8} {e : RomError}
    (h : Rom.ofBytes bytes = .error e) : (restart bytes).perform m = .error (.rom e) := by
  rw [perform, h]
  rfl

theorem after_restart_of_ok {m : Machine} {bytes : Array UInt8} {rom : Rom}
    (h : Rom.ofBytes bytes = .ok rom) : (restart bytes).after m = m.restart rom := by
  simp only [after, perform_restart_of_ok h]

theorem after_restart_of_error {m : Machine} {bytes : Array UInt8} {e : RomError}
    (h : Rom.ofBytes bytes = .error e) : (restart bytes).after m = m := by
  simp only [after, perform_restart_of_error h]

def report (m : Machine) (op : Operation) : Except Failure Unit := (op.perform m).map fun _ => ()

theorem report_step (m : Machine) :
    step.report m = (m.step.map fun _ => ()).mapError .fault := by
  rw [report, perform]
  cases m.step <;> rfl

/-- The machine on which the operation runs an instruction, if it does. -/
def ran (m : Machine) : Operation → List Machine
  | .step =>
      if m.isWaiting then []
      else
        match m.fetch with
        | .ok _ => [m]
        | .error _ => []
  | _ => []

theorem of_mem_ran {m r : Machine} {op : Operation} (h : r ∈ op.ran m) :
    op = .step ∧ m.isWaiting = false ∧ r = m := by
  unfold ran at h
  split at h
  · split at h
    · cases h
    · rename_i hw
      split at h
      · exact ⟨rfl, Bool.eq_false_iff.2 hw, List.mem_singleton.1 h⟩
      · cases h
  · cases h

theorem mem_ran_step {m m' : Machine} (hw : m.isWaiting = false) (h : m.step = .ok m') :
    m ∈ step.ran m := by
  rcases Machine.step_eq_ok_iff.1 h with ⟨hw', _⟩ | ⟨_, i, hfetch, _⟩
  · rw [hw] at hw'
    cases hw'
  · simp [ran, hw, hfetch]

theorem after_step_cases (m : Machine) :
    (step.ran m = [] ∧ step.after m = m) ∨
      (step.ran m = [m] ∧ ∃ i, m.fetch = .ok i ∧ step.after m = m.run i) := by
  cases hw : m.isWaiting with
  | true => exact .inl ⟨by simp [ran, hw], after_step_of_ok (Machine.step_of_waiting hw)⟩
  | false =>
    cases hf : m.fetch with
    | error f =>
      have hs := Machine.step_eq_error_iff.2 ⟨hw, hf⟩
      exact .inl ⟨by simp [ran, hw, hf], after_step_of_error hs⟩
    | ok i =>
      have hs := Machine.step_eq_ok_iff.2 (.inr ⟨hw, i, hf, rfl⟩)
      exact .inr ⟨by simp [ran, hw, hf], i, rfl, after_step_of_ok hs⟩

/-- An operation leaves the call stack alone, runs one instruction on it, or empties it. -/
theorem stack_after_cases (m : Machine) (op : Operation) :
    (op.ran m = [] ∧ (op.after m).stack = m.stack) ∨
      (op.ran m = [m] ∧ ∃ i, m.fetch = .ok i ∧ (op.after m).stack = m.stackAfter i) ∨
      ((∃ bytes, op = .restart bytes) ∧ (op.after m).stack = .empty) := by
  cases op with
  | step =>
    rcases after_step_cases m with ⟨hran, hafter⟩ | ⟨hran, i, hf, hafter⟩
    · exact .inl ⟨hran, by rw [hafter]⟩
    · exact .inr (.inl ⟨hran, i, hf, by rw [hafter, Machine.stack_run]⟩)
  | restart bytes =>
    cases h : Rom.ofBytes bytes with
    | error e => exact .inl ⟨rfl, by rw [after_restart_of_error h]⟩
    | ok rom =>
      rw [after_restart_of_ok h]
      exact .inr (.inr ⟨⟨bytes, rfl⟩, rfl⟩)
  | latch key down => exact .inl ⟨rfl, Machine.stack_latch m key down⟩
  | _ => exact .inl ⟨rfl, rfl⟩

end Operation

namespace Machine

inductive Reachable : Machine → Prop where
  | start (rom : Rom) (d : Dialect) (s : ByteStream) : Reachable (start rom d s)
  | after {m : Machine} (op : Operation) : Reachable m → Reachable (op.after m)

theorem afterAll_cons (m : Machine) (op : Operation) (ops : List Operation) :
    m.afterAll (op :: ops) = (op.after m).afterAll ops := rfl

theorem afterAll_append (m : Machine) (before after : List Operation) :
    m.afterAll (before ++ after) = (m.afterAll before).afterAll after := List.foldl_append

theorem Reachable.afterAll {m : Machine} (h : m.Reachable) (ops : List Operation) :
    (m.afterAll ops).Reachable := by
  induction ops generalizing m with
  | nil => exact h
  | cons op ops ih => exact ih (h.after op)

theorem sound_stackAfter {m : Machine} (h : m.stack.Sound) (i : Instruction) :
    (m.stackAfter i).Sound := by
  cases i with
  | ret => exact h.pop
  | call a => exact h.push _
  | _ => exact h

theorem sound_stack_after {m : Machine} (h : m.stack.Sound) (op : Operation) :
    (op.after m).stack.Sound := by
  rcases op.stack_after_cases m with ⟨_, he⟩ | ⟨_, i, _, he⟩ | ⟨_, he⟩
  · rwa [he]
  · rw [he]
    exact sound_stackAfter h i
  · rw [he]
    exact CallStack.sound_empty

theorem Reachable.sound_stack {m : Machine} (h : m.Reachable) : m.stack.Sound := by
  induction h with
  | start rom d s => exact CallStack.sound_empty
  | after op _ ih => exact sound_stack_after ih op

end Machine

end Chip8
