import Chip8.Proofs.StorageInstructions

/-!
# Runs in storage

Executing a stored machine is a step of the machine, reported faults and the state they leave
included, and the same holds of every other operation. So a run in storage, from a fresh machine
through any operations, passes every check and stays in step with the run of the machine; its stack
pointer, its stack slots and the register it awaits a key for stay within their bounds.
-/
namespace Chip8

open Storage

namespace Machine

variable {m : Machine}

theorem mask_pc (m : Machine) : mask m.storage.pc = m.here.toWord := mask_eq m.pc

theorem addWord_here (m : Machine) : addWord m.here.toWord 2 = some (m.here.toWord + 2) :=
  addWord_address m.here (by decide)

theorem execute_storage (h : m.stack.Sound) :
    m.storage.execute = some (m.step.map fun _ => (), (Operation.step.after m).storage) := by
  have hw : m.storage.awaiting.isSome = m.isWaiting := Option.isSome_map
  cases hi : m.isWaiting with
  | true =>
    rw [Operation.after_step_of_ok (step_of_waiting hi), step_of_waiting hi, execute, hw, hi]
    rfl
  | false =>
    have hp0 : place m.here.toWord 0 = some m.here.val := by
      rw [place_eq _ (by decide), Address.advance_zero, Address.ofWord_toWord]
    have hp1 : place m.here.toWord 1 = some (m.here.advance 1).val := by
      rw [place_eq _ (by decide), Address.ofWord_toWord]
    have hword : Word.ofBytes (m.memory.read m.here) (m.memory.read (m.here.advance 1)) = m.word :=
      rfl
    rw [execute, hw, hi]
    simp only [Bool.false_eq_true, if_false, mask_pc, hp0, hp1, bind, Option.bind,
      getElem?_storage_memory, addWord_here, hword]
    cases hf : m.fetch with
    | error f =>
      have hs : m.step = .error f := step_eq_error_iff.2 ⟨hi, hf⟩
      rw [Operation.after_step_of_error hs, hs]
      rcases fetch_eq_error_iff.1 hf with ⟨hd, rfl⟩ | ⟨i, hd, hx⟩
      · rw [hd, Address.ofWord_toWord]
        rfl
      · rw [hd]
        simp only [act_of_fault _ hx]
        rfl
    | ok i =>
      have hs : m.step = .ok (m.run i) := step_eq_ok_iff.2 (.inr ⟨hi, i, hf, rfl⟩)
      obtain ⟨hd, hx⟩ := fetch_eq_ok_iff.1 hf
      obtain ⟨w, hmask, hact⟩ := act_storage h hx
      rw [Operation.after_step_of_ok hs, hs, hd]
      simp only [hact, hmask]
      rfl

end Machine

namespace Storage

theorem copyAt_eq (s : Storage) {k : Nat} {bytes : Array UInt8} (h : k + bytes.size ≤ 4096) :
    s.copyAt k bytes = some { s with
      memory := Vector.ofFn fun a =>
        if k ≤ a.val ∧ a.val < k + bytes.size then bytes.getD (a.val - k) 0
        else s.memory.read a } := by
  have hg : (guard (k + bytes.size ≤ 4096) : Option Unit) = some () := if_pos h
  rw [copyAt, addIndex_eq (by omega)]
  change (guard (k + bytes.size ≤ 4096) : Option Unit).bind _ = _
  rw [hg]
  rfl

/-- Font and program are copied to the places where the image has them. -/
theorem image_eq (rom : Rom) :
    (Vector.ofFn fun a : Address =>
      if 512 ≤ a.val ∧ a.val < 512 + rom.bytes.size then rom.bytes.getD (a.val - 512) 0
      else Memory.read (Vector.ofFn fun b =>
        if 0 ≤ b.val ∧ b.val < 0 + font.toArray.size then font.toArray.getD (b.val - 0) 0
        else Memory.read (Vector.replicate 4096 0) b) a) = rom.image := by
  have hfont : font.toArray.size = 80 := rfl
  apply Vector.ext
  intro a ha
  simp only [Rom.image, Rom.origin, Memory.read, Vector.getElem_ofFn, Fin.getElem_fin, hfont]
  by_cases h1 : a < 80
  · have hlow : ¬ 512 ≤ a := by omega
    have hf : font.toArray.getD a 0 = font[a] := by simp [Array.getD, h1]
    simp [h1, hlow, hf]
  · by_cases h2 : a < 512
    · have hlow : ¬ 512 ≤ a := by omega
      simp [h1, h2, hlow]
    · have hhigh : 512 ≤ a := by omega
      by_cases h3 : a < 512 + rom.bytes.size
      · simp [h1, h2, h3, hhigh]
      · have hout : ¬ a - 512 < rom.bytes.size := by omega
        simp [h1, h2, h3, Array.getD, hout]

theorem load_eq (s : Storage) (rom : Rom) :
    s.load rom.bytes = some (Machine.start rom s.dialect s.stream).storage := by
  have hsize := rom.size_le
  simp only [Rom.capacity] at hsize
  unfold load
  rw [copyAt_eq _ (by decide)]
  simp only [bind, Option.bind]
  rw [copyAt_eq _ (by omega)]
  simp only [cleared, image_eq]
  rfl

theorem start_eq (rom : Rom) (d : Dialect) (stream : ByteStream) :
    Storage.start rom d stream = some (Machine.start rom d stream).storage := by
  unfold Storage.start
  rw [show (#[] : Array UInt8) = Rom.empty.bytes from rfl, load_eq]
  simp only [bind, Option.bind]
  rw [load_eq]
  rfl

end Storage

namespace Machine

theorem latch_storage (m : Machine) (key : UInt8) (down : Bool) :
    m.storage.latch key down = some (m.latch key down).storage := by
  unfold Storage.latch Machine.latch
  by_cases h : key.toNat < 16
  · rw [if_neg (by omega), dif_pos h]
    have hp : put m.storage.keypad key.toNat down = some (m.keypad.set key.toNat down) :=
      put_eq h _
    simp only [hp, bind, Option.bind]
    cases down with
    | false => rfl
    | true =>
      cases ha : m.awaiting with
      | none => simp [storage, deliver, markKey, ha]
      | some x =>
        have hk : UInt8.ofNat key.toNat = key := UInt8.ofNat_toNat
        have hm := assign_storage
          { m with keypad := m.keypad.set key.toNat true, awaiting := none } x key
        simp only [storage, deliver, markKey, ha, hk, Option.map_some, if_true]
        exact hm
  · rw [if_pos (by omega), dif_neg h]

theorem stepOver_storage (m : Machine) : m.storage.stepOver = some m.stepOver.storage := by
  simp only [Storage.stepOver, mask_pc, addWord_here, bind, Option.bind, mask_toWord_add]
  rfl

theorem restart_storage (m : Machine) (bytes : Array UInt8) :
    m.storage.perform (.restart bytes) =
      some (((Operation.restart bytes).perform m).map fun _ => (),
        ((Operation.restart bytes).after m).storage) := by
  by_cases hs : bytes.size ≤ Rom.capacity
  · have hr : Rom.ofBytes bytes = .ok ⟨bytes, hs⟩ := dif_pos hs
    have hlt : ¬ 3584 < bytes.size := Nat.not_lt.2 hs
    have hl : m.storage.load bytes = some (m.restart ⟨bytes, hs⟩).storage :=
      load_eq m.storage ⟨bytes, hs⟩
    simp only [Storage.perform, if_neg hlt, hl, Operation.after_restart_of_ok hr,
      Operation.perform, hr]
    rfl
  · have hr : Rom.ofBytes bytes = .error (.tooLarge bytes.size) := dif_neg hs
    have hlt : 3584 < bytes.size := Nat.not_le.1 hs
    simp only [Storage.perform, if_pos hlt, Operation.after_restart_of_error hr,
      Operation.perform, hr]
    rfl

/-- Carried out in storage, an operation succeeds or fails as it does on the machine, and leaves
what it leaves there. -/
theorem perform_storage {m : Machine} (h : m.stack.Sound) (op : Operation) :
    m.storage.perform op = some ((op.perform m).map fun _ => (), (op.after m).storage) := by
  cases op with
  | step =>
    simp only [Storage.perform, execute_storage h, bind, Option.bind, Operation.perform]
    cases m.step <;> rfl
  | stepOver =>
    simp only [Storage.perform, stepOver_storage]
    rfl
  | latch key down =>
    simp only [Storage.perform, latch_storage]
    rfl
  | restart bytes => exact restart_storage m bytes
  | setRegister x b =>
    simp only [Storage.perform, assign_storage]
    rfl
  | setMemory a b =>
    simp only [Storage.perform, put_storage_memory]
    rfl
  | _ => rfl

theorem performAll_storage {m : Machine} (h : m.stack.Sound) (ops : List Operation) :
    m.storage.performAll ops = some (m.afterAll ops).storage := by
  induction ops generalizing m with
  | nil => rfl
  | cons op ops ih =>
    simp only [performAll, perform_storage h, bind, Option.bind]
    exact ih (sound_stack_after h op)

theorem awaiting_lt {m : Machine} {x : Nat} (h : m.storage.awaiting = some x) : x < 16 := by
  obtain ⟨r, _, rfl⟩ := Option.map_eq_some_iff.1 h
  exact r.isLt

end Machine

namespace Storage

/-- A run in storage, from a fresh machine through any operations, never fails a check. It reaches
the machine that the operations lead to; at most sixteen addresses are on the stack, every slot
holds an address, a key is awaited for one of the sixteen registers, and the next execution passes
its checks as well: it is the next step of the machine. -/
theorem runs_pass_every_check (rom : Rom) (d : Dialect) (stream : ByteStream)
    (ops : List Operation) :
    ∃ s, (Storage.start rom d stream).bind (fun s => s.performAll ops) = some s ∧
      s.depth ≤ 16 ∧ (∀ k : Fin 16, (s.slots.get k).toNat < 0x1000) ∧
      (∀ x, s.awaiting = some x → x < 16) ∧
      let m := (Machine.start rom d stream).afterAll ops
      s = m.storage ∧
        s.execute = some (m.step.map fun _ => (), (Operation.step.after m).storage) := by
  have hm := (Machine.Reachable.start rom d stream).afterAll ops
  have hs := hm.sound_stack
  refine ⟨_, ?_, hs.depth_le, hs.slot_lt, fun x => Machine.awaiting_lt, rfl,
    Machine.execute_storage hs⟩
  rw [start_eq]
  exact Machine.performAll_storage CallStack.sound_empty ops

end Storage

end Chip8
