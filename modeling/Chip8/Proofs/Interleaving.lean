import Chip8.Proofs.Footprint

/-!
# Host inputs around a step

A host mixes three streams of operations: steps, ticks of the timers and keys. A tick can be
exchanged with a step unless its instruction reads or sets a timer, and a key with a step unless its
instruction asks for keys. The instruction that waits for a key is no exception if no key is down: a
key pressed before the step is found by it, one pressed after it ends the wait, and both come to the
same machine.
-/
namespace Chip8

namespace Operation

structure Interchange (m : Machine) (p q : Operation) : Prop where
  report_first : p.report (q.after m) = p.report m
  report_second : q.report (p.after m) = q.report m
  after_both : q.after (p.after m) = p.after (q.after m)

end Operation

namespace Instruction

def timerForms : List String := ["FX07", "FX15", "FX18"]

def keyForms : List String := ["EX9E", "EXA1", "FX0A"]

end Instruction

namespace Machine

open Instruction (decode form timerForms keyForms form_not_mem_of_decode decode_of_fits_awaitKey)

variable {m : Machine}

/-- What a host does to a machine commutes with a step if it commutes with the instruction and does
not touch the fetch. -/
theorem step_of_run_eq (host : Machine → Machine)
    (hwait : (host m).isWaiting = m.isWaiting) (hfetch : (host m).fetch = m.fetch)
    (hrun : ∀ i, decode m.word = some i → (host m).run i = host (m.run i)) :
    (host m).step = m.step.map host := by
  cases hw : m.isWaiting with
  | true =>
    rw [step_of_waiting hw, step_of_waiting (hwait.trans hw)]
    rfl
  | false =>
    rw [step_of_idle hw, step_of_idle (hwait.trans hw), hfetch]
    cases hf : m.fetch with
    | error f => rfl
    | ok i => exact congrArg Except.ok (hrun i (fetch_eq_ok_iff.1 hf).1)

/-- An operation that never fails can be exchanged with a step that it commutes with. -/
theorem interchange_step {op : Operation} {host : Machine → Machine}
    (hop : ∀ m, op.perform m = .ok (host m)) (h : (host m).step = m.step.map host) :
    op.Interchange m .step := by
  have hafter : ∀ m, op.after m = host m := by
    intro m
    simp only [Operation.after, hop]
  have hreport : ∀ m, op.report m = .ok () := by
    intro m
    simp only [Operation.report, hop]
    rfl
  refine ⟨by rw [hreport, hreport], ?_, ?_⟩
  · rw [hafter, Operation.report_step, Operation.report_step, h]
    cases m.step <;> rfl
  · rw [hafter, hafter]
    cases hs : m.step with
    | error f =>
      rw [hs] at h
      rw [Operation.after_step_of_error hs, Operation.after_step_of_error h]
    | ok m' =>
      rw [hs] at h
      rw [Operation.after_step_of_ok hs, Operation.after_step_of_ok h]

theorem run_countDown {i : Instruction} (h : i.form ∉ timerForms) (m : Machine) :
    m.countDown.run i = (m.run i).countDown := by
  cases i with
  | readDelay | setDelay | setSound => simp [form, timerForms] at h
  | skipIf t => cases t <;> rfl
  | compute op x y =>
    simp only [run, effect, compute_eq]
    rfl
  | awaitKey x =>
    have hpressed : m.countDown.pressed? = m.pressed? := rfl
    simp only [run, effect, hpressed]
    cases m.pressed? <;> rfl
  | _ => rfl

def holding (m : Machine) (keys : Vector Bool 16) : Machine := { m with keypad := keys }

theorem run_holding {i : Instruction} (h : i.form ∉ keyForms) (m : Machine)
    (keys : Vector Bool 16) : (m.holding keys).run i = (m.run i).holding keys := by
  cases i with
  | awaitKey => simp [form, keyForms] at h
  | skipIf t =>
    cases t with
    | keyDown | keyUp => simp [form, keyForms] at h
    | _ => rfl
  | compute op x y =>
    simp only [run, effect, compute_eq]
    rfl
  | _ => rfl

theorem latch_of_idle (hw : m.awaiting = none) {key : UInt8} (h : key.toNat < 16) (down : Bool) :
    m.latch key down = m.holding (m.keypad.set key.toNat down) := by
  cases down with
  | false => exact latch_release m h
  | true => exact latch_press_of_idle hw h

theorem run_latch {i : Instruction} (hw : m.awaiting = none) (h : i.form ∉ keyForms)
    (key : UInt8) (down : Bool) : (m.latch key down).run i = (m.run i).latch key down := by
  by_cases hkey : key.toNat < 16
  · have hidle : (m.run i).awaiting = none := by
      rcases awaiting_effect_cases m i with he | ⟨_, x, rfl, _⟩
      · exact he.trans hw
      · simp [form, keyForms] at h
    have hkeypad : (m.run i).keypad = m.keypad := keypad_effect m i
    rw [latch_of_idle hw hkey, run_holding h, latch_of_idle hidle hkey, hkeypad]
  · rw [latch_of_no_key m hkey, latch_of_no_key (m.run i) hkey]

theorem isDown_holding_set (h : ∀ k, m.isDown k = false) (key k : Fin 16) :
    (m.holding (m.keypad.set key.val true key.isLt)).isDown k = true ↔ k = key := by
  have hk : m.keypad[k.val] = false := h k
  simp [isDown, holding, Vector.getElem_set, hk, Fin.ext_iff, eq_comm]

/-- The only key that is down is the one that is found. -/
theorem pressed?_holding_set (h : ∀ k, m.isDown k = false) (key : Fin 16) :
    (m.holding (m.keypad.set key.val true key.isLt)).pressed? = some key := by
  cases hp : (m.holding (m.keypad.set key.val true key.isLt)).pressed? with
  | none =>
    have hup := pressed?_eq_none_iff.1 hp key
    rw [(isDown_holding_set h key key).2 rfl] at hup
    cases hup
  | some k => rw [(isDown_holding_set h key k).1 (List.find?_some hp)]

/-- A key pressed just before it is asked for goes into the same register as one pressed just
after. -/
theorem run_awaitKey_latch (hw : m.awaiting = none) (h : ∀ k, m.isDown k = false) (x : Register)
    (key : UInt8) :
    (m.latch key true).run (.awaitKey x) = (m.run (.awaitKey x)).latch key true := by
  by_cases hkey : key.toNat < 16
  · have hwaits : (m.run (.awaitKey x)).awaiting = some x :=
      awaiting_effect_awaitKey (pressed?_eq_none_iff.2 h) x
    rw [latch_press_of_waiting hwaits hkey, latch_of_idle hw hkey]
    have hpressed := pressed?_holding_set h ⟨key.toNat, hkey⟩
    simp only at hpressed
    simp only [run, effect, hpressed, pressed?_eq_none_iff.2 h, UInt8.ofNat_toNat]
    -- No key is awaited before the step, and none after both.
    rw [← hw]
    rfl
  · rw [latch_of_no_key m hkey, latch_of_no_key (m.run (.awaitKey x)) hkey]

theorem fetch_latch (m : Machine) (key : UInt8) (down : Bool) :
    (m.latch key down).fetch = m.fetch := by
  rw [latch_eq]
  rfl

theorem isWaiting_latch_of_idle (hw : m.awaiting = none) (key : UInt8) (down : Bool) :
    (m.latch key down).isWaiting = m.isWaiting := by
  by_cases hkey : key.toNat < 16
  · rw [latch_of_idle hw hkey]
    rfl
  · rw [latch_of_no_key m hkey]

theorem step_latch (hw : m.awaiting = none) {key : UInt8} {down : Bool}
    (hrun : ∀ i, decode m.word = some i →
      (m.latch key down).run i = (m.run i).latch key down) :
    (m.latch key down).step = m.step.map (·.latch key down) :=
  step_of_run_eq (·.latch key down) (isWaiting_latch_of_idle hw key down)
    (fetch_latch m key down) hrun

/-- A tick of the timers can be exchanged with a step, whether it succeeds or not, unless the word
is of a form that reads or sets a timer. A key can be exchanged with a step of a machine that does
not wait unless the word is of a form that looks at the keypad. If it asks for a key and none is
down, any key may as well be pressed before the step as after it. -/
theorem host_inputs_interchange (m : Machine) :
    (Word.fitsAny m.word timerForms = false → Operation.Interchange m .countDown .step) ∧
      (m.awaiting = none → Word.fitsAny m.word keyForms = false →
        ∀ key down, Operation.Interchange m (.latch key down) .step) ∧
      (m.awaiting = none → (∀ k, m.isDown k = false) → Word.fits m.word "FX0A" = true →
        ∀ key, Operation.Interchange m (.latch key true) .step) := by
  refine ⟨?_, ?_, ?_⟩
  · intro hforms
    refine interchange_step (fun _ => rfl) (step_of_run_eq countDown rfl rfl ?_)
    intro i hd
    exact run_countDown (form_not_mem_of_decode hforms hd) m
  · intro hw hforms key down
    refine interchange_step (fun _ => rfl) (step_latch hw ?_)
    intro i hd
    exact run_latch hw (form_not_mem_of_decode hforms hd) key down
  · intro hw hup hform key
    refine interchange_step (fun _ => rfl) (step_latch hw ?_)
    intro i hd
    rw [decode_of_fits_awaitKey hform] at hd
    cases hd
    exact run_awaitKey_latch hw hup _ key

/-- A program that asks for a key at once, and one that does not. -/
theorem host_inputs_interchange_at_first_instruction :
    let asking := start ⟨#[0xF0, 0x0A], by decide⟩ .modern (.seeded 0)
    let other := start ⟨#[0x60, 0x05], by decide⟩ .modern (.seeded 0)
    Operation.Interchange asking .countDown .step ∧
      Operation.Interchange asking (.latch 7 true) .step ∧
      Operation.Interchange other (.latch 7 true) .step := by
  intro asking other
  have hasking : asking.word = 0xF00A := word_start _ _ _
  have hother : other.word = 0x6005 := word_start _ _ _
  have hidle : asking.awaiting = none := rfl
  have hidle' : other.awaiting = none := rfl
  have hup : ∀ k, asking.isDown k = false := fun k => Vector.getElem_replicate k.isLt
  clear_value asking other
  obtain ⟨htick, _, hwait⟩ := host_inputs_interchange asking
  obtain ⟨_, hkey, _⟩ := host_inputs_interchange other
  refine ⟨htick ?_, hwait hidle hup ?_ 7, hkey hidle' ?_ 7 true⟩
  · rw [hasking]
    decide
  · rw [hasking]
    decide
  · rw [hother]
    decide

end Machine

end Chip8
