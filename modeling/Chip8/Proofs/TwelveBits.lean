import Chip8.Proofs.Reachability

/-!
# Twelve bits of the program counter and the index

The program counter and the index are sixteen bits wide, and a host may put any word into them. Two
machines are alike if they differ only in what these registers hold above their low twelve bits.
Whatever is done to both, alike machines report the same and stay alike, and after an instruction
both go on at the same address, which is then held without any higher bits.
-/
namespace Chip8

namespace Machine

/-- Equal but for the program counter and the index, which point to the same addresses. -/
structure Alike (m m' : Machine) : Prop where
  pc : m'.pc.toNat % 4096 = m.pc.toNat % 4096
  index : m'.index.toNat % 4096 = m.index.toNat % 4096
  registers : m'.registers = m.registers
  memory : m'.memory = m.memory
  stack : m'.stack = m.stack
  delay : m'.delay = m.delay
  sound : m'.sound = m.sound
  raster : m'.raster = m.raster
  keypad : m'.keypad = m.keypad
  awaiting : m'.awaiting = m.awaiting
  dialect : m'.dialect = m.dialect
  stream : m'.stream = m.stream

theorem Alike.refl (m : Machine) : m.Alike m :=
  ⟨rfl, rfl, rfl, rfl, rfl, rfl, rfl, rfl, rfl, rfl, rfl, rfl⟩

/-- The machine with other words in the program counter and the index. -/
def pointed (m : Machine) (p j : UInt16) : Machine := { m with pc := p, index := j }

variable {m m' : Machine} {p j : UInt16}

theorem Alike.exists_pointed (h : m.Alike m') :
    ∃ p j, m' = m.pointed p j ∧ (m.pointed p j).here = m.here ∧
      (m.pointed p j).cursor = m.cursor := by
  refine ⟨m'.pc, m'.index, ?_, Fin.ext h.pc, Fin.ext h.index⟩
  rw [pointed, Machine.mk.injEq]
  exact ⟨rfl, rfl, h.registers, h.memory, h.stack, h.delay, h.sound, h.raster, h.keypad,
    h.awaiting, h.dialect, h.stream⟩

theorem alike_pointed (m : Machine) (hp : (m.pointed p j).here = m.here)
    (hj : (m.pointed p j).cursor = m.cursor) : m.Alike (m.pointed p j) :=
  { Alike.refl m with pc := congrArg Fin.val hp, index := congrArg Fin.val hj }

theorem fetch_pointed (hp : (m.pointed p j).here = m.here) : (m.pointed p j).fetch = m.fetch := by
  have hword : (m.pointed p j).word = m.word := by
    rw [word, hp]
    rfl
  have hfault : ∀ i, (m.pointed p j).fault? i = m.fault? i := by
    intro i
    cases i with
    | ret | call =>
      rw [fault?, hp]
      rfl
    | _ => rfl
  simp only [fetch, hword, hfault, hp]

theorem next_pointed (hp : (m.pointed p j).here = m.here) (i : Instruction) :
    (m.pointed p j).next i = m.next i := by
  cases i with
  | ret | jump | call | jumpFrom => rfl
  | skipIf t =>
    have hholds : (m.pointed p j).holds t = m.holds t := by cases t <;> rfl
    rw [next, hholds, hp]
    rfl
  | _ => exact congrArg (·.advance 2) hp

theorem indexPast_pointed (hj : (m.pointed p j).cursor = m.cursor) (n : Nat) :
    ((m.pointed p j).indexPast n).toNat % 4096 = (m.indexPast n).toNat % 4096 := by
  have hindex : j.toNat % 4096 = m.index.toNat % 4096 := congrArg Fin.val hj
  unfold indexPast
  rw [hj]
  cases hd : m.dialect.movesIndex <;> simp [pointed, hd, hindex]

theorem alike_effect (hp : (m.pointed p j).here = m.here)
    (hj : (m.pointed p j).cursor = m.cursor) (i : Instruction) :
    (m.effect i).Alike ((m.pointed p j).effect i) := by
  have hbits := alike_pointed m hp hj
  cases i with
  | call a =>
    refine { hbits with stack := ?_ }
    simp only [effect, hp]
    rfl
  | compute op x y =>
    simp only [effect, compute_eq]
    exact alike_pointed { m with registers := m.computed op x y } hp hj
  | setIndex a | glyph x => exact { hbits with index := rfl }
  | draw x y n =>
    have hdraw : (m.pointed p j).drawSprite x y n = (m.drawSprite x y n).pointed p j := by
      simp only [drawSprite, hj]
      rfl
    simp only [effect, hdraw]
    exact alike_pointed (m.drawSprite x y n) hp hj
  | awaitKey x =>
    have hpressed : (m.pointed p j).pressed? = m.pressed? := rfl
    simp only [effect, hpressed]
    cases m.pressed? with
    | none => exact alike_pointed { m with awaiting := some x } hp hj
    | some k => exact alike_pointed (m.setRegister x (UInt8.ofNat k.val)) hp hj
  | addIndex x =>
    refine { hbits with index := ?_ }
    simp only [effect, hj]
    rfl
  | decimal x =>
    refine { hbits with memory := ?_ }
    simp only [effect, hj]
    rfl
  | save x =>
    refine { hbits with memory := ?_, index := indexPast_pointed hj _ }
    simp only [effect, save, hj]
    rfl
  | restore x =>
    refine { hbits with registers := ?_, index := indexPast_pointed hj _ }
    simp only [effect, restore, hj]
    rfl
  | _ => exact alike_pointed _ hp hj

/-- An instruction leaves alike machines alike, with the same word in the program counter. -/
theorem Alike.run (h : m.Alike m') (i : Instruction) :
    (m.run i).Alike (m'.run i) ∧ (m'.run i).pc = (m.run i).pc := by
  obtain ⟨p, j, rfl, hp, hj⟩ := h.exists_pointed
  have hpc : ((m.pointed p j).run i).pc = (m.run i).pc :=
    congrArg Address.toWord (next_pointed hp i)
  exact ⟨{ alike_effect hp hj i with pc := congrArg (·.toNat % 4096) hpc }, hpc⟩

theorem toNat_pc_run_lt (m : Machine) (i : Instruction) : (m.run i).pc.toNat < 4096 := by
  have hpc : (m.run i).pc.toNat = (m.next i).val := Address.toNat_toWord _
  have hlt := (m.next i).isLt
  omega

/-- Alike machines meet the same fault, or both make a step. -/
theorem Alike.step_cases (h : m.Alike m') :
    (∃ f, m.step = .error f ∧ m'.step = .error f) ∨
      ∃ a a', m.step = .ok a ∧ m'.step = .ok a' ∧ a.Alike a' ∧
        (m.isWaiting = false → a'.pc = a.pc ∧ a.pc.toNat < 4096) := by
  have hawait : m'.isWaiting = m.isWaiting := congrArg Option.isSome h.awaiting
  have hfetch : m'.fetch = m.fetch := by
    obtain ⟨p, j, rfl, hp, _⟩ := h.exists_pointed
    exact fetch_pointed hp
  cases hw : m.isWaiting with
  | true =>
    refine .inr ⟨m, m', step_of_waiting hw, step_of_waiting (hawait.trans hw), h, ?_⟩
    intro hidle
    cases hidle
  | false =>
    rw [step_of_idle hw, step_of_idle (hawait.trans hw), hfetch]
    cases m.fetch with
    | error f => exact .inl ⟨f, rfl, rfl⟩
    | ok i =>
      obtain ⟨hrun, hpc⟩ := h.run i
      exact .inr ⟨_, _, rfl, rfl, hrun, fun _ => ⟨hpc, toNat_pc_run_lt m i⟩⟩

theorem Alike.report (h : m.Alike m') (op : Operation) : op.report m' = op.report m := by
  cases op with
  | step =>
    rw [Operation.report_step, Operation.report_step]
    rcases h.step_cases with ⟨f, hm, hm'⟩ | ⟨a, a', hm, hm', _⟩
    · rw [hm, hm']
    · rw [hm, hm']
      rfl
  | restart bytes =>
    simp only [Operation.report, Operation.perform]
    cases Rom.ofBytes bytes <;> rfl
  | _ => rfl

theorem Alike.after (h : m.Alike m') (op : Operation) : (op.after m).Alike (op.after m') := by
  cases op with
  | step =>
    rcases h.step_cases with ⟨f, hm, hm'⟩ | ⟨a, a', hm, hm', halike, _⟩
    · rwa [Operation.after_step_of_error hm, Operation.after_step_of_error hm']
    · rwa [Operation.after_step_of_ok hm, Operation.after_step_of_ok hm']
  | stepOver =>
    obtain ⟨p, j, rfl, hp, _⟩ := h.exists_pointed
    refine { h with pc := ?_ }
    simp only [Operation.after, Operation.perform, stepOver, hp]
  | latch key down =>
    obtain ⟨hr, hk, ha⟩ := latch_of_same h.registers h.keypad h.awaiting key down
    change (m.latch key down).Alike (m'.latch key down)
    rw [latch_eq m, latch_eq m']
    exact { h with registers := hr, keypad := hk, awaiting := ha }
  | restart bytes =>
    cases hrom : Rom.ofBytes bytes with
    | error e =>
      rwa [Operation.after_restart_of_error hrom, Operation.after_restart_of_error hrom]
    | ok rom =>
      rw [Operation.after_restart_of_ok hrom, Operation.after_restart_of_ok hrom, restart, restart,
        h.dialect, h.stream]
      exact .refl _
  | setPc w => exact { h with pc := rfl }
  | setIndex w => exact { h with index := rfl }
  | _ =>
    obtain ⟨p, j, rfl, hp, hj⟩ := h.exists_pointed
    exact alike_pointed _ hp hj

theorem Alike.afterAll (h : m.Alike m') (ops : List Operation) :
    (m.afterAll ops).Alike (m'.afterAll ops) := by
  induction ops generalizing m m' with
  | nil => exact h
  | cons op ops ih => exact ih (h.after op)

/-- Whatever was done to two machines that are alike, the next operation reports the same of both
and leaves them alike. A step that runs an instruction leaves the same word in both program
counters, and that word is an address. -/
theorem high_bits_have_no_effect (h : m.Alike m') (ops : List Operation) (op : Operation) :
    let a := m.afterAll ops
    let a' := m'.afterAll ops
    op.report a' = op.report a ∧ (op.after a).Alike (op.after a') ∧
      (op = .step → a.isWaiting = false → op.report a = .ok () →
        (op.after a').pc = (op.after a).pc ∧ (op.after a).pc.toNat < 4096) := by
  intro a a'
  have halike : a.Alike a' := h.afterAll ops
  refine ⟨halike.report op, halike.after op, ?_⟩
  rintro rfl hidle hok
  rcases halike.step_cases with ⟨f, hm, _⟩ | ⟨b, b', hm, hm', _, hpc⟩
  · rw [Operation.report_step, hm] at hok
    cases hok
  · rw [Operation.after_step_of_ok hm, Operation.after_step_of_ok hm']
    exact hpc hidle

/-- Two registers are saved in a dialect that leaves the index alone, once with words in the program
counter and the index that are no addresses. -/
theorem high_bits_have_no_effect_on_save :
    let m := start ⟨#[0xF1, 0x55], by decide⟩ ⟨false, false, false⟩ (.seeded 0)
    let m' := m.pointed 0xF200 0xE000
    m.Alike m' ∧ Operation.step.report m' = .ok () ∧
      (Operation.step.after m).Alike (Operation.step.after m') ∧
      (Operation.step.after m').pc = (Operation.step.after m).pc ∧
      (Operation.step.after m).pc.toNat < 4096 := by
  intro m m'
  have hword : m.word = 0xF155 := word_start _ _ _
  have hidle : m.isWaiting = false := rfl
  have hfault : m.fault? (.save ⟨1, by decide⟩) = none := rfl
  have hhere : m'.here = m.here := Fin.ext (by decide)
  have hcursor : m'.cursor = m.cursor := Fin.ext (by decide)
  have halike : m.Alike m' := alike_pointed m hhere hcursor
  clear_value m
  have hfetch : m.fetch = .ok (.save ⟨1, by decide⟩) :=
    fetch_eq_ok_iff.2 ⟨by rw [hword]; rfl, hfault⟩
  have hok : Operation.step.report m = .ok () := by
    rw [Operation.report_step, step_of_idle hidle, hfetch]
    rfl
  obtain ⟨hreport, hafter, hpc⟩ := high_bits_have_no_effect halike [] .step
  exact ⟨halike, hreport.trans hok, hafter, hpc rfl hidle hok⟩

end Machine

end Chip8
