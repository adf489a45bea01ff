import Chip8.Proofs.ControlFlow

/-!
# Aligned machines

A machine is aligned if its program counter and all addresses on its call stack are even. Going on
with the next word, skipping one and returning from a call add an even number to an even address,
and the end of memory is even too, so none of them breaks the alignment. What can break it is the
landing of a jump or a call. Unless the program counter is overwritten from outside, a machine is
therefore aligned all along a run if and only if every jump and call that is run leads to an even
address.
-/
namespace Chip8

namespace Address

theorem even_advance {a : Address} {k : Nat} (ha : 2 ∣ a.val) (hk : 2 ∣ k) :
    2 ∣ (a.advance k).val := by
  rw [val_advance]
  omega

theorem even_ofWord {w : UInt16} (h : 2 ∣ w.toNat) : 2 ∣ (ofWord w).val := by
  simp only [ofWord, ofNat]
  omega

end Address

namespace CallStack

def Aligned (s : CallStack) : Prop :=
  ∀ k : Fin 16, k.val < s.depth → 2 ∣ (s.slots.get k).toNat

theorem aligned_empty : empty.Aligned := fun k hk => absurd hk (Nat.not_lt_zero k.val)

variable {s : CallStack}

theorem Aligned.push (h : s.Aligned) (hlt : s.depth < 16) {w : UInt16} (hw : 2 ∣ w.toNat) :
    (s.push w).Aligned := by
  intro k hk
  rw [depth_push hlt] at hk
  rw [get_slots_push hlt]
  split
  · exact hw
  · exact h k (by omega)

theorem Aligned.pop (h : s.Aligned) : s.pop.Aligned :=
  fun k hk => h k (Nat.lt_of_lt_of_le hk (Nat.sub_le _ _))

theorem Aligned.even_top (h : s.Aligned) (hle : s.depth ≤ limit) (hpos : 0 < s.depth) :
    2 ∣ s.top.toNat := by
  simp only [limit] at hle
  rw [top_eq_get (by omega)]
  exact h _ (by simp only; omega)

end CallStack

def Instruction.jumps : Instruction → Bool
  | .jump _ | .call _ | .jumpFrom _ => true
  | _ => false

namespace Machine

open Instruction (decode form branches decode_of_branch fits_of_form fitsAny_of_form
  target_of_decode)

structure Aligned (m : Machine) : Prop where
  pc : 2 ∣ m.pc.toNat
  stack : m.stack.Aligned

structure JumpsEvenly (m : Machine) : Prop where
  target : Word.fitsAny m.word ["1NNN", "2NNN"] = true → 2 ∣ m.word.toNat % 4096
  sum : Word.fits m.word "BNNN" = true →
    2 ∣ m.word.toNat % 4096 + (m.register ⟨0, by decide⟩).toNat

variable {m : Machine} {i : Instruction}

theorem Aligned.even_here (h : m.Aligned) : 2 ∣ m.here.val := Address.even_ofWord h.pc

/-- The forms of words tell the jumps and calls, and the low twelve bits their targets. -/
theorem jumpsEvenly_iff (hd : decode m.word = some i) :
    m.JumpsEvenly ↔ (i.jumps = true → 2 ∣ (m.next i).val) := by
  have hval {a : Address} (ha : i.address? = some a) : m.word.toNat % 4096 = a.val :=
    congrArg Fin.val (target_of_decode hd ha)
  constructor
  · intro h hj
    cases i with
    | jump a | call a =>
      have htarget := h.target (fitsAny_of_form hd (by simp [form]))
      rw [hval rfl] at htarget
      exact htarget
    | jumpFrom a =>
      -- The landing is the sum modulo 4096, which has the parity of the sum.
      have hsum := h.sum (fits_of_form hd rfl)
      rw [hval rfl] at hsum
      simp only [next, Address.val_advance]
      omega
    | _ => cases hj
  · intro h
    have hread {form : String} (j : Instruction) (hfit : Word.fits m.word form = true)
        (hj : (form, j) ∈ branches m.word) : i = j :=
      Option.some.inj (hd.symm.trans (decode_of_branch hj hfit))
    refine ⟨fun hfits => ?_, fun hfit => ?_⟩
    · obtain ⟨form, hform, hfit⟩ := List.any_eq_true.1 hfits
      simp only [List.mem_cons, List.not_mem_nil, or_false] at hform
      rcases hform with rfl | rfl
      · cases hread (.jump (Word.target m.word)) hfit (by simp [branches])
        exact h rfl
      · cases hread (.call (Word.target m.word)) hfit (by simp [branches])
        exact h rfl
    · cases hread (.jumpFrom (Word.target m.word)) hfit (by simp [branches])
      have hnext := h rfl
      simp only [next, Address.val_advance, ← hval rfl] at hnext
      omega

/-- Any other instruction of an aligned machine goes on at an even address. -/
theorem Aligned.even_next (hm : m.Aligned) (hs : m.stack.Sound) (hf : m.fetch = .ok i)
    (hj : i.jumps = false) : 2 ∣ (m.next i).val := by
  cases i with
  | jump | call | jumpFrom => cases hj
  | ret =>
    have htop := hm.stack.even_top hs.depth_le (depth_pos_of_fetch_ret hf)
    exact Address.even_advance (Address.even_ofWord htop) (by decide)
  | skipIf t =>
    apply Address.even_advance hm.even_here
    split <;> decide
  | _ => exact Address.even_advance hm.even_here (by decide)

theorem aligned_stackAfter (hm : m.Aligned) (hs : m.stack.Sound) (hf : m.fetch = .ok i) :
    (m.stackAfter i).Aligned := by
  cases i with
  | ret => exact hm.stack.pop
  | call a =>
    apply hm.stack.push (depth_lt_of_fetch_call hs hf)
    rw [Address.toNat_toWord]
    exact hm.even_here
  | _ => exact hm.stack

theorem aligned_run_iff (hm : m.Aligned) (hs : m.stack.Sound) (hf : m.fetch = .ok i) :
    (m.run i).Aligned ↔ m.JumpsEvenly := by
  have hpc : (m.run i).pc.toNat = (m.next i).val := Address.toNat_toWord _
  rw [jumpsEvenly_iff (fetch_eq_ok_iff.1 hf).1, ← hpc]
  constructor
  · intro h _
    exact h.pc
  · intro h
    refine ⟨?_, ?_⟩
    · cases hj : i.jumps with
      | true => exact h hj
      | false =>
        rw [hpc]
        exact hm.even_next hs hf hj
    · rw [stack_run]
      exact aligned_stackAfter hm hs hf

theorem aligned_start (rom : Rom) (d : Dialect) (s : ByteStream) : (start rom d s).Aligned where
  pc := ⟨0x100, rfl⟩
  stack := CallStack.aligned_empty

theorem Aligned.stepOver (hm : m.Aligned) : m.stepOver.Aligned where
  pc := by
    rw [Machine.stepOver, Address.toNat_toWord]
    exact Address.even_advance hm.even_here (by decide)
  stack := hm.stack

theorem Aligned.latch (hm : m.Aligned) (key : UInt8) (down : Bool) :
    (m.latch key down).Aligned := by
  rw [latch_eq]
  exact ⟨hm.pc, hm.stack⟩

/-- An operation other than one on the program counter keeps a machine aligned exactly if it runs
no instruction that lands on an odd address. -/
theorem aligned_after_iff (hm : m.Aligned) (hs : m.stack.Sound) {op : Operation}
    (hop : ∀ w, op ≠ .setPc w) :
    (op.after m).Aligned ↔ ∀ r ∈ op.ran m, r.JumpsEvenly := by
  have hkept (hran : op.ran m = []) (h : (op.after m).Aligned) :
      (op.after m).Aligned ↔ ∀ r ∈ op.ran m, r.JumpsEvenly := by
    simp [hran, h]
  cases op with
  | step =>
    rcases Operation.after_step_cases m with ⟨hran, hafter⟩ | ⟨hran, i, hf, hafter⟩
    · exact hkept hran (by rwa [hafter])
    · rw [hran, hafter, aligned_run_iff hm hs hf]
      simp
  | stepOver => exact hkept rfl hm.stepOver
  | latch key down => exact hkept rfl (hm.latch key down)
  | restart bytes =>
    apply hkept rfl
    cases h : Rom.ofBytes bytes with
    | error e => rwa [Operation.after_restart_of_error h]
    | ok rom =>
      rw [Operation.after_restart_of_ok h]
      exact aligned_start rom m.dialect m.stream
  | setPc w => exact absurd rfl (hop w)
  | _ => exact hkept rfl ⟨hm.pc, hm.stack⟩

theorem aligned_afterAll_iff (hm : m.Aligned) (hs : m.stack.Sound) {ops : List Operation}
    (hops : ∀ w, .setPc w ∉ ops) :
    (∀ n, (m.afterAll (ops.take n)).Aligned) ↔ ∀ r ∈ m.ranAll ops, r.JumpsEvenly := by
  induction ops generalizing m with
  | nil => simp [afterAll, ranAll, hm]
  | cons op ops ih =>
    have hop : ∀ w, op ≠ .setPc w := by
      rintro w rfl
      exact hops w List.mem_cons_self
    have hrest : ∀ w, .setPc w ∉ ops := fun w hw => hops w (List.mem_cons_of_mem _ hw)
    -- The rest of the run is judged from the state after `op`, once that is known to be aligned.
    have hfirst := aligned_after_iff hm hs hop
    have hlater (ha : (op.after m).Aligned) := ih ha (sound_stack_after hs op) hrest
    rw [ranAll, List.forall_mem_append]
    constructor
    · intro h
      have ha : (op.after m).Aligned := h 1
      exact ⟨hfirst.1 ha, (hlater ha).1 fun n => h (n + 1)⟩
    · rintro ⟨hran, hranAll⟩ n
      have ha := hfirst.2 hran
      cases n with
      | zero => exact hm
      | succ n => exact (hlater ha).2 hranAll n

/-- In the course of any operations on a machine just started that leave the program counter to it,
the program counter and the addresses on the stack are even in every state if and only if every
`1NNN` and `2NNN` that is run has an even target and every `BNNN` an even sum. -/
theorem stays_aligned_iff (rom : Rom) (d : Dialect) (s : ByteStream) {ops : List Operation}
    (hops : ∀ w, .setPc w ∉ ops) :
    (∀ n, ((start rom d s).afterAll (ops.take n)).Aligned) ↔
      ∀ r ∈ (start rom d s).ranAll ops, r.JumpsEvenly :=
  aligned_afterAll_iff (aligned_start rom d s) CallStack.sound_empty hops

/-- A jump to the last word of memory, a step that fails there and stepping over it, which leads to
the start of memory, are aligned throughout. -/
theorem stays_aligned_iff_across_end_of_memory :
    let m := start ⟨#[0x1F, 0xFE], by decide⟩ .modern (.seeded 0)
    let ops : List Operation := [.step, .step, .stepOver]
    (∀ w, .setPc w ∉ ops) ∧ (∀ n, (m.afterAll (ops.take n)).Aligned) ∧
      (m.afterAll ops).pc = 0 := by
  intro m ops
  have hops : ∀ w, .setPc w ∉ ops := by simp [ops]
  let m₁ := m.run (.jump (.ofNat 0xFFE))
  have hword : m.word = 0x1FFE := word_start _ _ _
  have hstep : m.step = .ok m₁ := step_of_encode rfl hword rfl
  have hword₁ : m₁.word = 0 := by
    change Word.ofBytes (m.memory.read (.ofNat 0xFFE)) (m.memory.read (.ofNat 0xFFF)) = 0
    rw [read_start _ _ _ (k := 0xDFE) rfl, read_start _ _ _ (k := 0xDFF) rfl]
    rfl
  have hfail : m₁.step = .error (.invalidInstruction m₁.word m₁.here) :=
    step_eq_error_iff.2 ⟨rfl, fetch_eq_error_iff.2 (.inl ⟨by rw [hword₁]; rfl, rfl⟩)⟩
  have hwords : ∀ r ∈ m.ranAll ops, r.word = 0x1FFE ∨ r.word = 0 := by
    simp only [ops, ranAll, Operation.after_step_of_ok hstep, Operation.after_step_of_error hfail,
      List.mem_append]
    rintro r (hr | hr | hr | hr)
    · rw [(Operation.of_mem_ran hr).2.2]
      exact .inl hword
    · rw [(Operation.of_mem_ran hr).2.2]
      exact .inr hword₁
    · cases hr
    · cases hr
  have heven : ∀ r ∈ m.ranAll ops, r.JumpsEvenly := by
    intro r hr
    rcases hwords r hr with h | h
    all_goals exact ⟨fun _ => by rw [h]; decide, fun hfit => by rw [h] at hfit; cases hfit⟩
  have hlast : m.afterAll ops = m₁.stepOver := by
    simp only [ops, afterAll_cons, Operation.after_step_of_ok hstep,
      Operation.after_step_of_error hfail]
    rfl
  have hhere : m₁.here = .ofNat 0xFFE := Address.ofWord_toWord _
  refine ⟨hops, (stays_aligned_iff _ _ _ hops).2 heven, ?_⟩
  rw [hlast, stepOver, hhere]
  rfl

end Machine

end Chip8
