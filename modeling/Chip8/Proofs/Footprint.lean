import Chip8.Proofs.InstructionForms
import Chip8.Proofs.KeyWait

/-!
# What a step writes

For each part of a machine, a few forms of instruction words can change it, and of memory, stack
slots and registers only some places. `Footprint` lists them all; the program counter, which every
instruction moves, is left out. A step of a machine stays within the footprint of its word, and a
step of a machine that waits for a key writes nothing.
-/
namespace Chip8

namespace Memory

theorem read_write_of_outside {m : Memory} {a b : Address} {bytes : List UInt8}
    (h : ∀ k, k < bytes.length → b ≠ a.advance k) : (m.write a bytes).read b = m.read b := by
  induction bytes generalizing m a with
  | nil => rfl
  | cons c bytes ih =>
    have hne : ¬ a = b := by
      intro hab
      exact h 0 (Nat.zero_lt_succ _) (by rw [Address.advance_zero, hab])
    have hrest : ∀ k, k < bytes.length → b ≠ (a.advance 1).advance k := by
      intro k hk
      rw [Address.advance_advance, Nat.add_comm]
      exact h (k + 1) (Nat.succ_lt_succ hk)
    rw [write, ih hrest, read_put, if_neg hne]

theorem exists_of_read_write_ne {m : Memory} {a b : Address} {bytes : List UInt8}
    (h : (m.write a bytes).read b ≠ m.read b) : ∃ k, k < bytes.length ∧ b = a.advance k := by
  apply Classical.byContradiction
  intro hout
  exact h (read_write_of_outside fun k hk hb => hout ⟨k, hk, hb⟩)

/-- No byte of a list that fits into memory is overwritten by a later one. -/
theorem read_write_of_inside {m : Memory} {a : Address} {bytes : List UInt8}
    (h : bytes.length ≤ 4096) {k : Nat} (hk : k < bytes.length) :
    (m.write a bytes).read (a.advance k) = bytes[k] := by
  induction bytes generalizing m a k with
  | nil => cases hk
  | cons c bytes ih =>
    rw [List.length_cons] at h
    cases k with
    | zero =>
      -- The other bytes do not come all the way round to the first address.
      have hrest : ∀ j, j < bytes.length → a ≠ (a.advance 1).advance j := by
        intro j hj ha
        have hval := congrArg Fin.val ha
        have hlt := a.isLt
        simp only [Address.val_advance] at hval
        omega
      rw [Address.advance_zero, write, read_write_of_outside hrest, read_put, if_pos rfl]
      rfl
    | succ k =>
      have hplace : a.advance (k + 1) = (a.advance 1).advance k := by
        rw [Address.advance_advance, Nat.add_comm]
      rw [write, hplace, List.getElem_cons_succ]
      exact ih (Nat.le_of_succ_le h) (Nat.lt_of_succ_lt_succ hk)

end Memory

theorem CallStack.eq_depth_of_slots_push_ne {s : CallStack} {w : UInt16} {k : Fin 16}
    (h : (s.push w).slots.get k ≠ s.slots.get k) : k.val = s.depth := by
  by_cases hd : s.depth < 16
  · rw [get_slots_push hd] at h
    by_cases hk : s.depth = k.val
    · exact hk.symm
    · exact absurd (if_neg hk) h
  · rw [push_of_full hd] at h
    exact absurd rfl h

/-- The forms that put a value into the register `X`, and into no other but the flag. -/
def Instruction.valueForms : List String :=
  ["6XNN", "7XNN", "8XY0", "8XY1", "8XY2", "8XY3", "8XY4", "8XY5", "8XY6", "8XY7", "8XYE", "CXNN",
    "FX07", "FX0A"]

/-- An arithmetic instruction that writes the flag always does so, or because the dialect asks the
bitwise operations to clear it. -/
theorem Arithmetic.form_of_eval_flag {d : Dialect} {op : Arithmetic} {vx vy v f : UInt8}
    (h : op.eval d vx vy = (v, some f)) (x y : Register) :
    (Instruction.compute op x y).form ∈ ["DXYN", "8XY4", "8XY5", "8XY6", "8XY7", "8XYE"] ∨
      d.clearsFlag = true ∧ (Instruction.compute op x y).form ∈ ["8XY1", "8XY2", "8XY3"] := by
  cases op with
  | copy => cases h
  | or | and | xor =>
    right
    cases hc : d.clearsFlag with
    | false => simp [eval, hc] at h
    | true => exact ⟨rfl, by simp [Instruction.form]⟩
  | _ => simp [Instruction.form]

namespace Machine

open Instruction (decode form valueForms fits_of_form fitsAny_of_form x_of_decode)

structure Footprint (w : UInt16) (m m' : Machine) : Prop where
  memory : ∀ a, m'.memory.read a ≠ m.memory.read a →
    (Word.fits w "FX33" = true ∧ ∃ k, k ≤ 2 ∧ a.val = (m.index.toNat + k) % 4096) ∨
      (Word.fits w "FX55" = true ∧
        ∃ k, k ≤ (Word.x w).val ∧ a.val = (m.index.toNat + k) % 4096)
  raster : m'.raster ≠ m.raster → Word.fitsAny w ["00E0", "DXYN"] = true
  slot : ∀ k : Fin 16, m'.stack.slots.get k ≠ m.stack.slots.get k →
    Word.fits w "2NNN" = true ∧ k.val = m.stack.depth
  depth : m'.stack.depth ≠ m.stack.depth → Word.fitsAny w ["2NNN", "00EE"] = true
  delay : m'.delay ≠ m.delay → Word.fits w "FX15" = true
  sound : m'.sound ≠ m.sound → Word.fits w "FX18" = true
  index : m'.index ≠ m.index →
    Word.fitsAny w ["ANNN", "FX1E", "FX29"] = true ∨
      (m.dialect.movesIndex = true ∧ Word.fitsAny w ["FX55", "FX65"] = true)
  awaiting : m'.awaiting ≠ m.awaiting → Word.fits w "FX0A" = true
  stream : m'.stream ≠ m.stream → Word.fits w "CXNN" = true
  register : ∀ r, m'.register r ≠ m.register r →
    (r = Word.x w ∧ Word.fitsAny w Instruction.valueForms = true) ∨
    (r = flag ∧ Word.fitsAny w ["DXYN", "8XY4", "8XY5", "8XY6", "8XY7", "8XYE"] = true) ∨
    (r = flag ∧ m.dialect.clearsFlag = true ∧ Word.fitsAny w ["8XY1", "8XY2", "8XY3"] = true) ∨
    (r ≤ Word.x w ∧ Word.fits w "FX65" = true)
  keypad : m'.keypad = m.keypad
  dialect : m'.dialect = m.dialect

theorem Footprint.refl (w : UInt16) (m : Machine) : m.Footprint w m where
  memory _ h := absurd rfl h
  raster h := absurd rfl h
  slot _ h := absurd rfl h
  depth h := absurd rfl h
  delay h := absurd rfl h
  sound h := absurd rfl h
  index h := absurd rfl h
  awaiting h := absurd rfl h
  stream h := absurd rfl h
  register _ h := absurd rfl h
  keypad := rfl
  dialect := rfl

theorem register_setRegister (m : Machine) (x r : Register) (b : UInt8) :
    (m.setRegister x b).register r = if x = r then b else m.register r := by
  simp only [register, setRegister, Fin.getElem_fin, Vector.getElem_set, Fin.ext_iff]

theorem eq_of_register_setRegister_ne {m : Machine} {x r : Register} {b : UInt8}
    (h : (m.setRegister x b).register r ≠ m.register r) : r = x := by
  rw [register_setRegister] at h
  split at h
  · rename_i hx
    exact hx.symm
  · exact absurd rfl h

theorem register_restore (m : Machine) (n : Nat) (r : Register) :
    (m.restore n).register r =
      if r.val < n then m.memory.read (m.cursor.advance r.val) else m.register r := by
  simp [register, restore]

theorem movesIndex_of_indexPast_ne {m : Machine} {n : Nat} (h : m.indexPast n ≠ m.index) :
    m.dialect.movesIndex = true := by
  cases hd : m.dialect.movesIndex with
  | true => rfl
  | false => simp [indexPast, hd] at h

theorem val_cursor_advance (m : Machine) (k : Nat) :
    (m.cursor.advance k).val = (m.index.toNat + k) % 4096 := by
  simp [Address.val_advance, cursor, Address.ofWord, Address.ofNat]

/-- Bytes written from the index on land in the window of their number. -/
theorem exists_of_write_cursor_ne {m : Machine} {a : Address} {bytes : List UInt8}
    (h : (m.memory.write m.cursor bytes).read a ≠ m.memory.read a) :
    ∃ k, k < bytes.length ∧ a.val = (m.index.toNat + k) % 4096 := by
  obtain ⟨k, hk, rfl⟩ := Memory.exists_of_read_write_ne h
  exact ⟨k, hk, m.val_cursor_advance k⟩

variable {w : UInt16} {x y : Register}

theorem footprint_setRegister {i : Instruction} (hd : decode w = some i) (hx : i.first? = some x)
    (hf : i.form ∈ valueForms) (m : Machine) (b : UInt8) : m.Footprint w (m.setRegister x b) := by
  refine { Footprint.refl w m with register := ?_ }
  intro r hr
  rw [x_of_decode hd hx]
  exact .inl ⟨eq_of_register_setRegister_ne hr, fitsAny_of_form hd hf⟩

theorem footprint_compute {op : Arithmetic} (hd : decode w = some (.compute op x y))
    (m : Machine) : m.Footprint w (m.compute op x y) := by
  have hform : form (.compute op x y) ∈ valueForms := by cases op <;> simp [form, valueForms]
  unfold compute
  split
  · exact footprint_setRegister hd rfl hform m _
  · rename_i v f heval
    have hvalue := footprint_setRegister hd rfl hform m v
    refine { hvalue with register := ?_ }
    intro r hr
    by_cases hflag : r = flag
    · rcases Arithmetic.form_of_eval_flag heval x y with hf | ⟨hc, hf⟩
      · exact .inr (.inl ⟨hflag, fitsAny_of_form hd hf⟩)
      · exact .inr (.inr (.inl ⟨hflag, hc, fitsAny_of_form hd hf⟩))
    · -- A register other than the flag is as the value left it.
      rw [register_setRegister, if_neg (Ne.symm hflag)] at hr
      exact hvalue.register r hr

theorem footprint_effect {i : Instruction} (hd : decode w = some i) (m : Machine) :
    m.Footprint w (m.effect i) := by
  have hsame := Footprint.refl w m
  cases i with
  | clear => exact { hsame with raster := fun _ => fitsAny_of_form hd (by simp [form]) }
  | ret => exact { hsame with depth := fun _ => fitsAny_of_form hd (by simp [form]) }
  | jump a | skipIf t | jumpFrom a => exact hsame
  | call a =>
    exact { hsame with
      slot := fun k hk => ⟨fits_of_form hd rfl, CallStack.eq_depth_of_slots_push_ne hk⟩
      depth := fun _ => fitsAny_of_form hd (by simp [form]) }
  | setByte x b | addByte x b | readDelay x =>
    exact footprint_setRegister hd rfl (by simp [form, valueForms]) m _
  | compute op x y => exact footprint_compute hd m
  | setIndex a | addIndex x | glyph x =>
    exact { hsame with index := fun _ => .inl (fitsAny_of_form hd (by simp [form])) }
  | random x b =>
    exact { footprint_setRegister hd rfl (by simp [form, valueForms]) m _ with
      stream := fun _ => fits_of_form hd rfl }
  | draw x y n =>
    refine { hsame with
      raster := fun _ => fitsAny_of_form hd (by simp [form])
      register := ?_ }
    intro r hr
    change (m.setRegister flag _).register r ≠ m.register r at hr
    exact .inr (.inl ⟨eq_of_register_setRegister_ne hr, fitsAny_of_form hd (by simp [form])⟩)
  | awaitKey x =>
    simp only [effect]
    cases m.pressed? with
    | none => exact { hsame with awaiting := fun _ => fits_of_form hd rfl }
    | some k => exact footprint_setRegister hd rfl (by simp [form, valueForms]) m _
  | setDelay x => exact { hsame with delay := fun _ => fits_of_form hd rfl }
  | setSound x => exact { hsame with sound := fun _ => fits_of_form hd rfl }
  | decimal x =>
    refine { hsame with memory := ?_ }
    intro a ha
    obtain ⟨k, hk, hval⟩ := exists_of_write_cursor_ne ha
    exact .inl ⟨fits_of_form hd rfl, k, Nat.le_of_lt_succ hk, hval⟩
  | save x =>
    refine { hsame with
      memory := ?_
      index := fun hi => .inr ⟨movesIndex_of_indexPast_ne hi, fitsAny_of_form hd (by simp [form])⟩ }
    intro a ha
    obtain ⟨k, hk, hval⟩ := exists_of_write_cursor_ne ha
    rw [List.length_take] at hk
    rw [x_of_decode hd rfl]
    exact .inr ⟨fits_of_form hd rfl, k, by omega, hval⟩
  | restore x =>
    refine { hsame with
      index := fun hi => .inr ⟨movesIndex_of_indexPast_ne hi, fitsAny_of_form hd (by simp [form])⟩
      register := ?_ }
    intro r hr
    change (m.restore (x.val + 1)).register r ≠ m.register r at hr
    rw [register_restore] at hr
    rw [x_of_decode hd rfl]
    by_cases hle : r.val < x.val + 1
    · exact .inr (.inr (.inr ⟨Nat.le_of_lt_succ hle, fits_of_form hd rfl⟩))
    · exact absurd (if_neg hle) hr

/-- A step that succeeds changes the machine within the footprint of its word only, and leaves a
machine that waits for a key exactly as it is. -/
theorem step_stays_in_footprint {m m' : Machine} (h : m.step = .ok m') :
    m.Footprint m.word m' ∧ (m.isWaiting = true → m' = m) := by
  rcases step_eq_ok_iff.1 h with ⟨_, rfl⟩ | ⟨hidle, i, hfetch, rfl⟩
  · exact ⟨.refl _ _, fun _ => rfl⟩
  · obtain ⟨hd, _⟩ := fetch_eq_ok_iff.1 hfetch
    refine ⟨{ footprint_effect hd m with }, ?_⟩
    intro hwaiting
    rw [hidle] at hwaiting
    cases hwaiting

/-- Two registers are saved at address zero, and nothing is written from address two on. -/
theorem step_stays_in_footprint_of_save :
    let m := start ⟨#[0xF1, 0x55], by decide⟩ .modern (.seeded 0)
    ∃ m', m.step = .ok m' ∧ (∀ a : Address, 2 ≤ a.val → m'.memory.read a = m.memory.read a) ∧
      m'.raster = m.raster ∧ m'.keypad = m.keypad := by
  intro m
  have hword : m.word = 0xF155 := word_start _ _ _
  have hidle : m.isWaiting = false := rfl
  have hindex : m.index = 0 := rfl
  have hfault : m.fault? (.save ⟨1, by decide⟩) = none := rfl
  clear_value m
  have hfetch : m.fetch = .ok (.save ⟨1, by decide⟩) :=
    fetch_eq_ok_iff.2 ⟨by rw [hword]; rfl, hfault⟩
  have hstep := step_eq_ok_iff.2 (.inr ⟨hidle, _, hfetch, rfl⟩)
  obtain ⟨hprint, _⟩ := step_stays_in_footprint hstep
  rw [hword] at hprint
  refine ⟨_, hstep, ?_, ?_, hprint.keypad⟩
  · intro a ha
    apply Classical.byContradiction
    intro hne
    rcases hprint.memory a hne with ⟨hfit, _⟩ | ⟨_, k, hk, hval⟩
    · cases hfit
    · have hx : (Word.x 0xF155).val = 1 := rfl
      have hzero : m.index.toNat = 0 := by rw [hindex]; rfl
      omega
  · apply Classical.byContradiction
    intro hne
    cases hprint.raster hne

end Machine

end Chip8
