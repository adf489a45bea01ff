import Chip8.Proofs.Reachability

/-!
# Waiting for a key

A machine begins to wait only when no key is down, and a key that goes down ends the wait, so a
reachable machine that waits has all keys up. As long as no key is pressed, nothing a host does to a
waiting machine touches more than its program counter, timers, dialect and byte stream; a step is
the identity. The first key pressed goes into the awaited register and the keypad, and changes
nothing else.
-/
namespace Chip8

namespace Machine

theorem pressed?_eq_none_iff {m : Machine} :
    m.pressed? = none ↔ ∀ k, m.isDown k = false := by
  simp [pressed?, List.find?_eq_none]

theorem keypad_awaiting_compute (m : Machine) (op : Arithmetic) (x y : Register) :
    (m.compute op x y).keypad = m.keypad ∧ (m.compute op x y).awaiting = m.awaiting := by
  unfold compute
  split <;> exact ⟨rfl, rfl⟩

theorem keypad_effect (m : Machine) (i : Instruction) : (m.effect i).keypad = m.keypad := by
  cases i with
  | compute op x y => exact (keypad_awaiting_compute m op x y).1
  | awaitKey x =>
    simp only [effect]
    split <;> rfl
  | _ => rfl

theorem awaiting_effect_awaitKey {m : Machine} (h : m.pressed? = none) (x : Register) :
    (m.effect (.awaitKey x)).awaiting = some x := by
  simp only [effect, h]

/-- Only the instruction that asks for a key makes a machine wait, and only if none is down. -/
theorem awaiting_effect_cases (m : Machine) (i : Instruction) :
    (m.effect i).awaiting = m.awaiting ∨
      m.pressed? = none ∧ ∃ x, i = .awaitKey x ∧ (m.effect i).awaiting = some x := by
  cases i with
  | compute op x y => exact .inl (keypad_awaiting_compute m op x y).2
  | awaitKey x =>
    cases hp : m.pressed? with
    | none => exact .inr ⟨rfl, x, rfl, awaiting_effect_awaitKey hp x⟩
    | some k =>
      simp only [effect, hp]
      exact .inl rfl
  | _ => exact .inl rfl

theorem latch_of_no_key (m : Machine) {key : UInt8} (h : ¬ key.toNat < 16) (down : Bool) :
    m.latch key down = m := dif_neg h

theorem latch_release (m : Machine) {key : UInt8} (h : key.toNat < 16) :
    m.latch key false = { m with keypad := m.keypad.set key.toNat false } := by
  simp [latch, h, markKey]

theorem latch_press_of_idle {m : Machine} (hw : m.awaiting = none) {key : UInt8}
    (h : key.toNat < 16) :
    m.latch key true = { m with keypad := m.keypad.set key.toNat true } := by
  simp [latch, h, markKey, deliver, hw]

theorem latch_press_of_waiting {m : Machine} {x : Register} (hw : m.awaiting = some x)
    {key : UInt8} (h : key.toNat < 16) :
    m.latch key true =
      { m with
        registers := m.registers.set x key
        keypad := m.keypad.set key.toNat true
        awaiting := none } := by
  simp [latch, h, markKey, deliver, hw, setRegister]

def KeysUp (m : Machine) : Prop := m.isWaiting = true → ∀ k, m.isDown k = false

theorem keysUp_of_idle {m : Machine} (h : m.awaiting = none) : m.KeysUp := by
  intro hw
  simp [isWaiting, h] at hw

theorem keysUp_run {m : Machine} (hw : m.isWaiting = false) (i : Instruction) :
    (m.run i).KeysUp := by
  have hpad : (m.run i).keypad = m.keypad := keypad_effect m i
  have hawait : (m.run i).awaiting = (m.effect i).awaiting := rfl
  rcases awaiting_effect_cases m i with he | ⟨hp, _⟩
  · apply keysUp_of_idle
    rw [hawait, he]
    exact isWaiting_eq_false_iff.1 hw
  · intro _ k
    have hk := pressed?_eq_none_iff.1 hp k
    simpa only [isDown, hpad] using hk

theorem isDown_release {m : Machine} (h : ∀ k, m.isDown k = false) {key : UInt8}
    (hkey : key.toNat < 16) (k : Fin 16) : (m.latch key false).isDown k = false := by
  rw [latch_release m hkey]
  have hk : m.keypad[k.val] = false := h k
  simp [isDown, Vector.getElem_set, hk]

theorem keysUp_latch {m : Machine} (h : m.KeysUp) (key : UInt8) (down : Bool) :
    (m.latch key down).KeysUp := by
  by_cases hkey : key.toNat < 16
  · cases down with
    | false =>
      intro hw
      have hm : m.isWaiting = true := by simpa only [latch_release m hkey, isWaiting] using hw
      exact isDown_release (h hm) hkey
    | true =>
      -- Whether the machine waited or not, it does not wait after the press.
      apply keysUp_of_idle
      cases ha : m.awaiting with
      | none => rw [latch_press_of_idle ha hkey]; exact ha
      | some x => rw [latch_press_of_waiting ha hkey]
  · rwa [latch_of_no_key m hkey]

theorem keysUp_after {m : Machine} (h : m.KeysUp) (op : Operation) : (op.after m).KeysUp := by
  cases op with
  | step =>
    cases hs : m.step with
    | error f => rwa [Operation.after_step_of_error hs]
    | ok m' =>
      rw [Operation.after_step_of_ok hs]
      rcases step_eq_ok_iff.1 hs with ⟨_, rfl⟩ | ⟨hw, i, _, rfl⟩
      · exact h
      · exact keysUp_run hw i
  | restart bytes =>
    cases hr : Rom.ofBytes bytes with
    | error e => rwa [Operation.after_restart_of_error hr]
    | ok rom =>
      rw [Operation.after_restart_of_ok hr]
      exact keysUp_of_idle rfl
  | latch key down => exact keysUp_latch h key down
  | _ => exact h

theorem Reachable.keysUp {m : Machine} (h : m.Reachable) : m.KeysUp := by
  induction h with
  | start rom d s => exact keysUp_of_idle rfl
  | after op _ ih => exact keysUp_after ih op

end Machine

namespace Operation

def sparesWait : Operation → Bool
  | .step | .stepOver | .countDown | .setDialect _ | .setStream _ => true
  | .latch key down => !down || 16 ≤ key.toNat
  | _ => false

end Operation

namespace Machine

structure Standstill (m m' : Machine) : Prop where
  awaiting : m'.awaiting = m.awaiting
  registers : m'.registers = m.registers
  index : m'.index = m.index
  memory : m'.memory = m.memory
  stack : m'.stack = m.stack
  keypad : m'.keypad = m.keypad
  raster : m'.raster = m.raster

theorem Standstill.refl (m : Machine) : m.Standstill m := ⟨rfl, rfl, rfl, rfl, rfl, rfl, rfl⟩

theorem Standstill.trans {m₁ m₂ m₃ : Machine} (h : m₁.Standstill m₂) (h' : m₂.Standstill m₃) :
    m₁.Standstill m₃ where
  awaiting := h'.awaiting.trans h.awaiting
  registers := h'.registers.trans h.registers
  index := h'.index.trans h.index
  memory := h'.memory.trans h.memory
  stack := h'.stack.trans h.stack
  keypad := h'.keypad.trans h.keypad
  raster := h'.raster.trans h.raster

theorem Standstill.isWaiting {m m' : Machine} (h : m.Standstill m') (hw : m.isWaiting = true) :
    m'.isWaiting = true := by
  rwa [Machine.isWaiting, h.awaiting]

/-- A key that is up stays up when it is released, so the keypad is the same. -/
theorem latch_release_of_up {m : Machine} (h : ∀ k, m.isDown k = false) (key : UInt8) :
    m.latch key false = m := by
  by_cases hkey : key.toNat < 16
  · have hpad : m.keypad.set key.toNat false = m.keypad := by
      have hk : m.keypad[key.toNat] = false := h ⟨key.toNat, hkey⟩
      rw [← hk, Vector.set_getElem_self]
    rw [latch_release m hkey, hpad]
  · exact latch_of_no_key m hkey false

theorem standstill_after {m : Machine} (hm : m.KeysUp) (hw : m.isWaiting = true) {op : Operation}
    (hop : op.sparesWait = true) : m.Standstill (op.after m) := by
  cases op with
  | step =>
    rw [Operation.after_step_of_ok (step_of_waiting hw)]
    exact .refl m
  | latch key down =>
    have hlatch : m.latch key down = m := by
      cases down with
      | false => exact latch_release_of_up (hm hw) key
      | true =>
        have hkey : 16 ≤ key.toNat := by simpa [Operation.sparesWait] using hop
        exact latch_of_no_key m (by omega) true
    change m.Standstill (m.latch key down)
    rw [hlatch]
    exact .refl m
  | stepOver | countDown | setDialect | setStream => exact ⟨rfl, rfl, rfl, rfl, rfl, rfl, rfl⟩
  | _ => cases hop

theorem standstill_afterAll {m : Machine} (hm : m.KeysUp) (hw : m.isWaiting = true)
    {ops : List Operation} (hops : ∀ op ∈ ops, op.sparesWait = true) :
    m.Standstill (m.afterAll ops) := by
  induction ops generalizing m with
  | nil => exact .refl m
  | cons op ops ih =>
    have hone := standstill_after hm hw (hops op List.mem_cons_self)
    have hrest : ∀ op' ∈ ops, op'.sparesWait = true :=
      fun op' h => hops op' (List.mem_cons_of_mem op h)
    exact hone.trans (ih (keysUp_after hm op) (hone.isWaiting hw) hrest)

/-- A reachable machine that waits for a key has all keys up. It stands still through any
operations that press no key, and each step among them is the identity. The first key pressed after
them goes into the awaited register and the keypad, ends the wait and changes nothing else. -/
theorem key_wait_protocol {m : Machine} (hm : m.Reachable) :
    (m.isWaiting = true → ∀ k, m.isDown k = false) ∧
      ∀ x, m.awaiting = some x → ∀ ops : List Operation, (∀ op ∈ ops, op.sparesWait = true) →
        (m.afterAll ops).awaiting = some x ∧
          m.Standstill (m.afterAll ops) ∧
          (∀ before after, ops = before ++ .step :: after →
            (m.afterAll before).step = .ok (m.afterAll before)) ∧
          ∀ (key : UInt8) (hkey : key.toNat < 16),
            (m.afterAll ops).latch key true =
              { m.afterAll ops with
                registers := (m.afterAll ops).registers.set x key
                keypad := (m.afterAll ops).keypad.set key.toNat true hkey
                awaiting := none } := by
  refine ⟨hm.keysUp, ?_⟩
  intro x hx ops hops
  have hw : m.isWaiting = true := by simp [isWaiting, hx]
  have hstill := standstill_afterAll hm.keysUp hw hops
  have hawait : (m.afterAll ops).awaiting = some x := hstill.awaiting.trans hx
  refine ⟨hawait, hstill, ?_, fun key hkey => latch_press_of_waiting hawait hkey⟩
  rintro before after rfl
  have hbefore : ∀ op ∈ before, op.sparesWait = true :=
    fun op h => hops op (List.mem_append_left _ h)
  exact step_of_waiting ((standstill_afterAll hm.keysUp hw hbefore).isWaiting hw)

/-- A program that asks for a key at once gets the one that is pressed after a release, a number
that is no key, a tick and a step. -/
theorem key_wait_protocol_of_first_instruction :
    let m := start ⟨#[0xF0, 0x0A], by decide⟩ .modern (.seeded 0)
    let asked := Operation.step.after m
    let waited := asked.afterAll [.latch 3 false, .latch 200 true, .countDown, .step]
    asked.awaiting = some ⟨0, by decide⟩ ∧ waited.step = .ok waited ∧
      (waited.latch 7 true).awaiting = none ∧
      (waited.latch 7 true).registers = waited.registers.set 0 7 := by
  intro m asked waited
  have hword : m.word = 0xF00A := word_start _ _ _
  have hfetch : m.fetch = .ok (.awaitKey ⟨0, by decide⟩) :=
    fetch_eq_ok_iff.2 ⟨by rw [hword]; rfl, rfl⟩
  have hstep : m.step = .ok (m.run (.awaitKey ⟨0, by decide⟩)) :=
    step_eq_ok_iff.2 (.inr ⟨rfl, _, hfetch, rfl⟩)
  have hpressed : m.pressed? = none := by
    rw [pressed?_eq_none_iff]
    decide
  have hasked : asked.awaiting = some ⟨0, by decide⟩ := by
    rw [show asked = m.run _ from Operation.after_step_of_ok hstep]
    exact awaiting_effect_awaitKey hpressed _
  have hreach : asked.Reachable := .after .step (.start _ _ _)
  clear_value asked
  obtain ⟨_, hops⟩ := key_wait_protocol hreach
  obtain ⟨hawait, _, _, hpress⟩ :=
    hops _ hasked [.latch 3 false, .latch 200 true, .countDown, .step] (by decide)
  refine ⟨hasked, step_of_waiting (by simp [isWaiting, waited, hawait]), ?_, ?_⟩
  · rw [hpress 7 (by decide)]
  · rw [hpress 7 (by decide)]

end Machine

end Chip8
