import Chip8.Proofs.InstructionForms
import Chip8.Proofs.Reachability

/-!
# Calls and returns

A call writes the slot at the depth it finds and a return writes none, so what lies below the depth
stays there while the depth does not fall to it. Along operations that do not restart the machine,
the depth is that of the beginning with the calls added and the returns taken off, and a return
that comes back to the depth of a call goes on behind that call, however much was run, failed or
was overwritten in between.
-/
namespace Chip8

namespace Machine

def ranAll (m : Machine) : List Operation → List Machine
  | [] => []
  | op :: ops => op.ran m ++ (op.after m).ranAll ops

theorem ranAll_append (m : Machine) (before after : List Operation) :
    m.ranAll (before ++ after) = m.ranAll before ++ (m.afterAll before).ranAll after := by
  induction before generalizing m with
  | nil => rfl
  | cons op ops ih =>
    rw [List.cons_append, ranAll, ih, afterAll_cons, ranAll, List.append_assoc]

def isCall (m : Machine) : Bool := Word.fits m.word "2NNN"

def isReturn (m : Machine) : Bool := m.word == 0x00EE

def calls (m : Machine) (ops : List Operation) : Nat := (m.ranAll ops).countP isCall

def returns (m : Machine) (ops : List Operation) : Nat := (m.ranAll ops).countP isReturn

theorem calls_cons (m : Machine) (op : Operation) (ops : List Operation) :
    m.calls (op :: ops) = (op.ran m).countP isCall + (op.after m).calls ops := by
  simp [calls, ranAll]

theorem returns_cons (m : Machine) (op : Operation) (ops : List Operation) :
    m.returns (op :: ops) = (op.ran m).countP isReturn + (op.after m).returns ops := by
  simp [returns, ranAll]

theorem isCall_iff {m : Machine} {i : Instruction} (h : m.fetch = .ok i) :
    m.isCall = true ↔ ∃ a, i = .call a := by
  obtain ⟨hd, _⟩ := fetch_eq_ok_iff.1 h
  rw [isCall, ← Instruction.exists_decode_eq_call_iff, hd]
  simp

theorem isReturn_iff {m : Machine} {i : Instruction} (h : m.fetch = .ok i) :
    m.isReturn = true ↔ i = .ret := by
  obtain ⟨hd, _⟩ := fetch_eq_ok_iff.1 h
  rw [isReturn, beq_iff_eq, ← Instruction.decode_eq_ret_iff, hd]
  simp

theorem depth_lt_of_fetch_call {m : Machine} (hs : m.stack.Sound) {a : Address}
    (h : m.fetch = .ok (.call a)) : m.stack.depth < 16 := by
  obtain ⟨_, hf⟩ := fetch_eq_ok_iff.1 h
  have hle : m.stack.depth ≤ 16 := hs.depth_le
  have hne : m.stack.depth ≠ 16 := by
    intro he
    simp [fault?, CallStack.limit, he] at hf
  omega

theorem depth_pos_of_fetch_ret {m : Machine} (h : m.fetch = .ok .ret) : 0 < m.stack.depth := by
  obtain ⟨_, hf⟩ := fetch_eq_ok_iff.1 h
  apply Nat.pos_of_ne_zero
  intro he
  simp [fault?, he] at hf

/-- An instruction keeps the slots below the depth, and only a call or a return moves the depth. -/
theorem stackAfter_of_fetch {m : Machine} (hs : m.stack.Sound) {i : Instruction}
    (h : m.fetch = .ok i) :
    (m.stackAfter i).depth + [m].countP isReturn = m.stack.depth + [m].countP isCall ∧
      ∀ k : Fin 16, k.val < m.stack.depth → (m.stackAfter i).slots.get k = m.stack.slots.get k := by
  have hcall := isCall_iff h
  have hret := isReturn_iff h
  cases i with
  | ret =>
    have hpos := depth_pos_of_fetch_ret h
    have hdepth : (m.stackAfter .ret).depth = m.stack.depth - 1 := rfl
    have hreturns : [m].countP isReturn = 1 := by simp [hret]
    have hcalls : [m].countP isCall = 0 := by simp [hcall]
    exact ⟨by omega, fun _ _ => rfl⟩
  | call a =>
    have hlt := depth_lt_of_fetch_call hs h
    refine ⟨?_, fun k hk => ?_⟩
    · simp [hcall, hret, stackAfter, CallStack.depth_push hlt]
    · rw [stackAfter, CallStack.get_slots_push hlt, if_neg (Nat.ne_of_gt hk)]
  | _ => exact ⟨by simp [hcall, hret, stackAfter], fun _ _ => rfl⟩

theorem stack_after_of_no_restart {m : Machine} (hs : m.stack.Sound) {op : Operation}
    (hop : ∀ bytes, op ≠ .restart bytes) :
    (op.after m).stack.depth + (op.ran m).countP isReturn =
        m.stack.depth + (op.ran m).countP isCall ∧
      ∀ k : Fin 16, k.val < m.stack.depth →
        (op.after m).stack.slots.get k = m.stack.slots.get k := by
  rcases op.stack_after_cases m with ⟨hran, he⟩ | ⟨hran, i, hi, he⟩ | ⟨⟨bytes, hb⟩, _⟩
  · rw [hran, he]
    exact ⟨rfl, fun _ _ => rfl⟩
  · rw [hran, he]
    exact stackAfter_of_fetch hs hi
  · exact absurd hb (hop bytes)

/-- While the depth stays above `d`, the slots up to `d` keep their values, and the depth follows
the calls and returns. -/
theorem stack_afterAll_of_no_restart {m : Machine} (hs : m.stack.Sound) {d : Nat}
    {ops : List Operation} (hops : ∀ bytes, .restart bytes ∉ ops)
    (hdeep : ∀ n, d < (m.afterAll (ops.take n)).stack.depth) :
    (m.afterAll ops).stack.depth + m.returns ops = m.stack.depth + m.calls ops ∧
      ∀ k : Fin 16, k.val ≤ d → (m.afterAll ops).stack.slots.get k = m.stack.slots.get k := by
  -- The slots kept by one operation are those below the depth, and `d` is always among them.
  induction ops generalizing m with
  | nil => exact ⟨rfl, fun _ _ => rfl⟩
  | cons op ops ih =>
    have hop : ∀ bytes, op ≠ .restart bytes := by
      rintro bytes rfl
      exact hops bytes List.mem_cons_self
    have hrest : ∀ bytes, .restart bytes ∉ ops :=
      fun bytes hb => hops bytes (List.mem_cons_of_mem _ hb)
    have hd : d < m.stack.depth := hdeep 0
    obtain ⟨hdepth, hslots⟩ := stack_after_of_no_restart hs hop
    obtain ⟨ihdepth, ihslots⟩ := ih (sound_stack_after hs op) hrest fun n => hdeep (n + 1)
    rw [afterAll_cons, calls_cons, returns_cons]
    refine ⟨by omega, fun k hk => ?_⟩
    rw [ihslots k hk, hslots k (by omega)]

theorem step_of_call {m : Machine} (hw : m.awaiting = none) (hd : m.stack.depth < 16)
    (hc : Word.fits m.word "2NNN" = true) : ∃ a, m.step = .ok (m.run (.call a)) := by
  obtain ⟨a, ha⟩ := Instruction.exists_decode_eq_call_iff.2 hc
  have hf : m.fault? (.call a) = none := if_neg (Nat.ne_of_lt hd)
  exact ⟨a, step_of_decode hw ha hf⟩

theorem step_of_return {m : Machine} (hw : m.awaiting = none) (hd : 0 < m.stack.depth)
    (hr : m.word = 0x00EE) : m.step = .ok (m.run .ret) := by
  have hf : m.fault? .ret = none := if_neg (Nat.ne_of_gt hd)
  exact step_of_decode hw (Instruction.decode_eq_ret_iff.2 hr) hf

theorem toNat_pc_run_ret {m : Machine} {a : Address} (h : m.stack.top = a.toWord) :
    (m.run .ret).pc.toNat = (a.val + 2) % 4096 := by
  have hpc : (m.run .ret).pc = (a.advance 2).toWord := by
    simp only [run, next, h, Address.ofWord_toWord]
  rw [hpc, Address.toNat_toWord, Address.val_advance]

/-- After a call at depth `d`, as long as there is no restart and the depth stays above `d`, the
slots up to `d` are as the call left them and the depth counts the calls and returns. A return
that is run at depth `d + 1` leads back to depth `d` and behind the call. -/
theorem call_then_return {m : Machine} (hm : m.Reachable) (hw : m.awaiting = none) {d : Nat}
    (hd : m.stack.depth = d) (hlt : d < 16) (hc : Word.fits m.word "2NNN" = true) :
    ∃ m₁, m.step = .ok m₁ ∧ m₁.stack = m.stack.push m.here.toWord ∧
      ∀ ops : List Operation, (∀ bytes, .restart bytes ∉ ops) →
        (∀ n, d + 1 ≤ (m₁.afterAll (ops.take n)).stack.depth) →
        (∀ k : Fin 16, k.val ≤ d → (m₁.afterAll ops).stack.slots.get k = m₁.stack.slots.get k) ∧
          (m₁.afterAll ops).stack.depth + m₁.returns ops = d + 1 + m₁.calls ops ∧
          ((m₁.afterAll ops).stack.depth = d + 1 → (m₁.afterAll ops).awaiting = none →
            (m₁.afterAll ops).word = 0x00EE →
            ∃ m₃, (m₁.afterAll ops).step = .ok m₃ ∧ m₃.stack.depth = d ∧
              m₃.pc.toNat = (m.here.val + 2) % 4096) := by
  subst hd
  obtain ⟨a, hs⟩ := step_of_call hw hlt hc
  have hstack : (m.run (.call a)).stack = m.stack.push m.here.toWord := stack_run m _
  refine ⟨_, hs, hstack, ?_⟩
  generalize m.run (.call a) = m₁ at hs hstack
  intro ops hops hdeep
  have hsound : m₁.stack.Sound := by
    rw [hstack]
    exact hm.sound_stack.push m.here
  have hdepth : m₁.stack.depth = m.stack.depth + 1 := by rw [hstack, CallStack.depth_push hlt]
  obtain ⟨hcount, hslots⟩ := stack_afterAll_of_no_restart hsound hops hdeep
  refine ⟨hslots, by rw [hcount, hdepth], ?_⟩
  intro hd hw hr
  have htop : (m₁.afterAll ops).stack.top = m.here.toWord := by
    have hi : (m₁.afterAll ops).stack.depth - 1 = m.stack.depth := by omega
    rw [CallStack.top_eq_get (by omega), hslots _ (Nat.le_of_eq hi), hstack,
      CallStack.get_slots_push hlt, if_pos hi.symm]
  refine ⟨_, step_of_return hw (by omega) hr, ?_, toNat_pc_run_ret htop⟩
  rw [stack_run]
  simp only [stackAfter, CallStack.pop, hd, Nat.add_sub_cancel]

/-- A routine of one return leads back behind its call, with the timers moving meanwhile. -/
theorem call_then_return_of_short_routine :
    let m := start ⟨#[0x22, 0x04, 0x00, 0x00, 0x00, 0xEE], by decide⟩ .modern (.seeded 0)
    ∃ m₁ m₃, m.step = .ok m₁ ∧ (m₁.afterAll [.setDelay 7, .countDown]).step = .ok m₃ ∧
      m₃.stack.depth = 0 ∧ m₃.pc.toNat = 514 := by
  intro m
  have hword : m.word = 0x2204 := word_start _ _ _
  obtain ⟨m₁, hs, _, hops⟩ :=
    call_then_return (m := m) (d := 0) (.start _ _ _) rfl rfl (by decide) (by rw [hword]; decide)
  have hf : m.fetch = .ok (.call (.ofNat 516)) := fetch_eq_ok_iff.2 ⟨by rw [hword]; rfl, rfl⟩
  have hm₁ : m₁ = m.run (.call (.ofNat 516)) := by
    rw [step_of_idle rfl, hf] at hs
    exact (Except.ok.inj hs).symm
  subst hm₁
  have hdeep : ∀ n, 0 + 1 ≤ ((m.run (.call (.ofNat 516))).afterAll
      (([.setDelay 7, .countDown] : List Operation).take n)).stack.depth
    | 0 => Nat.le_refl 1
    | 1 => Nat.le_refl 1
    | n + 2 => by
      rw [List.take_of_length_le (by simp)]
      exact Nat.le_refl 1
  obtain ⟨_, _, hret⟩ := hops [.setDelay 7, .countDown] (by simp) hdeep
  have hreturn : ((m.run (.call (.ofNat 516))).afterAll [.setDelay 7, .countDown]).word =
      0x00EE := by
    change Word.ofBytes (m.memory.read (.ofNat 516)) (m.memory.read (.ofNat 517)) = 0x00EE
    rw [read_start _ _ _ (k := 4) rfl, read_start _ _ _ (k := 5) rfl]
    rfl
  obtain ⟨m₃, hs₃, hd, hpc⟩ := hret rfl rfl hreturn
  exact ⟨_, m₃, hs, hs₃, hd, hpc⟩

end Machine

end Chip8
