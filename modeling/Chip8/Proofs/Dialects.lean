import Chip8.Proofs.Footprint
import Chip8.Proofs.StackDiscipline

/-!
# Where the dialects part

A dialect settles three points, and each concerns a few forms of instruction words: whether the
bitwise operations clear the flag, which register a shift takes its bits from, and whether saving
and restoring registers moves the index. Two machines in one state that speak different dialects
meet the same faults, and after a step they differ only where the word of the step and the point on
which the dialects disagree allow it. As long as no instruction of these forms is run, nothing tells
them apart but the dialect itself.
-/
namespace Chip8

def Instruction.dialectForms : List String :=
  ["8XY1", "8XY2", "8XY3", "8XY6", "8XYE", "FX55", "FX65"]

/-- Dialects that compute different results disagree on the flag after a bitwise operation, whose
value is the same, or on the source of a shift. -/
theorem Arithmetic.eval_ne_cases {d e : Dialect} {op : Arithmetic} {vx vy : UInt8}
    (h : op.eval d vx vy ≠ op.eval e vx vy) (x y : Register) :
    ((Instruction.compute op x y).form ∈ ["8XY1", "8XY2", "8XY3"] ∧
        d.clearsFlag ≠ e.clearsFlag ∧ (op.eval d vx vy).1 = (op.eval e vx vy).1) ∨
      ((Instruction.compute op x y).form ∈ ["8XY6", "8XYE"] ∧
        d.shiftsSecond ≠ e.shiftsSecond ∧ vx ≠ vy) := by
  cases op with
  | or | and | xor =>
    refine .inl ⟨by simp [Instruction.form], ?_, rfl⟩
    intro hc
    exact h (by simp only [eval, hc])
  | shiftRight | shiftLeft =>
    refine .inr ⟨by simp [Instruction.form], ?_, ?_⟩
    · intro hs
      exact h (by simp only [eval, hs])
    · intro hv
      exact h (by simp only [eval, hv, ite_self])
  | _ => exact absurd rfl h

namespace Machine

open Instruction (decode form dialectForms fitsAny_of_form x_of_decode y_of_decode)

def speaking (m : Machine) (d : Dialect) : Machine := { m with dialect := d }

/-- What may tell `a` from `b` after a step of the word `w` that one of them made in the dialect `d`
and the other in the dialect `e`. -/
structure Divergence (w : UInt16) (d e : Dialect) (a b : Machine) : Prop where
  index : b.index ≠ a.index →
    Word.fitsAny w ["FX55", "FX65"] = true ∧ d.movesIndex ≠ e.movesIndex
  register : ∀ r, b.register r ≠ a.register r →
    (Word.fitsAny w ["8XY1", "8XY2", "8XY3"] = true ∧ d.clearsFlag ≠ e.clearsFlag ∧ r = flag) ∨
      (Word.fitsAny w ["8XY6", "8XYE"] = true ∧ d.shiftsSecond ≠ e.shiftsSecond ∧
        Word.x w ≠ Word.y w ∧ (r = Word.x w ∨ r = flag))
  pc : b.pc = a.pc
  memory : b.memory = a.memory
  stack : b.stack = a.stack
  delay : b.delay = a.delay
  sound : b.sound = a.sound
  raster : b.raster = a.raster
  keypad : b.keypad = a.keypad
  awaiting : b.awaiting = a.awaiting
  stream : b.stream = a.stream
  dialects : a.dialect = d ∧ b.dialect = e

variable {w : UInt16} {d e : Dialect}

theorem divergence_speaking (w : UInt16) (d e : Dialect) (m : Machine) :
    Divergence w d e (m.speaking d) (m.speaking e) where
  index h := absurd rfl h
  register _ h := absurd rfl h
  pc := rfl
  memory := rfl
  stack := rfl
  delay := rfl
  sound := rfl
  raster := rfl
  keypad := rfl
  awaiting := rfl
  stream := rfl
  dialects := ⟨rfl, rfl⟩

theorem word_speaking (m : Machine) (d : Dialect) : (m.speaking d).word = m.word := rfl

theorem step_speaking_of_fetch {m : Machine} {i : Instruction} (hw : m.isWaiting = false)
    (hf : m.fetch = .ok i) (d : Dialect) : (m.speaking d).step = .ok ((m.speaking d).run i) :=
  step_eq_ok_iff.2 (.inr ⟨hw, i, hf, rfl⟩)

theorem next_speaking (m : Machine) (d : Dialect) (i : Instruction) :
    (m.speaking d).next i = m.next i := by
  cases i with
  | skipIf t => cases t <;> rfl
  | _ => rfl

theorem register_compute_of_ne_flag (m : Machine) (op : Arithmetic) (x y : Register)
    {r : Register} (hr : r ≠ flag) :
    (m.compute op x y).register r =
      if x = r then (op.eval m.dialect (m.register x) (m.register y)).1 else m.register r := by
  unfold compute
  split
  · rename_i v heval
    rw [register_setRegister, heval]
  · rename_i v f heval
    rw [register_setRegister, if_neg (Ne.symm hr), register_setRegister, heval]

theorem eval_ne_of_register_compute_ne {m : Machine} {op : Arithmetic} {x y r : Register}
    (h : ((m.speaking e).compute op x y).register r ≠ ((m.speaking d).compute op x y).register r) :
    op.eval d (m.register x) (m.register y) ≠ op.eval e (m.register x) (m.register y) := by
  intro heval
  have heval' : op.eval (m.speaking e).dialect ((m.speaking e).register x)
      ((m.speaking e).register y) = op.eval (m.speaking d).dialect ((m.speaking d).register x)
      ((m.speaking d).register y) := heval.symm
  have hcomputed : (m.speaking e).computed op x y = (m.speaking d).computed op x y := by
    rw [computed, heval']
    rfl
  rw [compute_eq, compute_eq] at h
  exact h (congrArg (·[r]) hcomputed)

theorem value_ne_of_register_compute_ne {m : Machine} {op : Arithmetic} {x y r : Register}
    (h : ((m.speaking e).compute op x y).register r ≠ ((m.speaking d).compute op x y).register r)
    (hflag : r ≠ flag) :
    r = x ∧ (op.eval d (m.register x) (m.register y)).1 ≠
      (op.eval e (m.register x) (m.register y)).1 := by
  simp only [register_compute_of_ne_flag _ op x y hflag] at h
  by_cases hx : x = r
  · rw [if_pos hx, if_pos hx] at h
    exact ⟨hx.symm, Ne.symm h⟩
  · rw [if_neg hx, if_neg hx] at h
    exact absurd rfl h

theorem divergence_compute {op : Arithmetic} {x y : Register}
    (hd : decode w = some (.compute op x y)) (m : Machine) :
    Divergence w d e ((m.speaking d).compute op x y) ((m.speaking e).compute op x y) := by
  rw [compute_eq, compute_eq]
  refine { divergence_speaking w d e m with register := ?_ }
  intro r hne
  have hr : ((m.speaking e).compute op x y).register r ≠
      ((m.speaking d).compute op x y).register r := by
    rw [compute_eq, compute_eq]
    exact hne
  rcases Arithmetic.eval_ne_cases (eval_ne_of_register_compute_ne hr) x y with
    ⟨hf, hc, hsame⟩ | ⟨hf, hs, hxy⟩
  · refine .inl ⟨fitsAny_of_form hd hf, hc, ?_⟩
    apply Classical.byContradiction
    intro hflag
    exact (value_ne_of_register_compute_ne hr hflag).2 hsame
  · rw [x_of_decode hd rfl, y_of_decode hd rfl]
    refine .inr ⟨fitsAny_of_form hd hf, hs, fun he => hxy (congrArg m.register he), ?_⟩
    by_cases hflag : r = flag
    · exact .inr hflag
    · exact .inl (value_ne_of_register_compute_ne hr hflag).1

theorem movesIndex_ne_of_indexPast_ne {m : Machine} {n : Nat}
    (h : (m.speaking e).indexPast n ≠ (m.speaking d).indexPast n) :
    d.movesIndex ≠ e.movesIndex := by
  intro hmoves
  apply h
  simp only [indexPast, speaking, hmoves]
  rfl

theorem divergence_effect {i : Instruction} (hd : decode w = some i) (m : Machine) :
    Divergence w d e ((m.speaking d).effect i) ((m.speaking e).effect i) := by
  have hplain := divergence_speaking w d e (m.effect i)
  cases i with
  | compute op x y => exact divergence_compute hd m
  | awaitKey x =>
    have hpressed : ∀ d, (m.speaking d).pressed? = m.pressed? := fun _ => rfl
    simp only [effect, hpressed]
    cases m.pressed? with
    | none => exact divergence_speaking w d e { m with awaiting := some x }
    | some k => exact divergence_speaking w d e (m.setRegister x (UInt8.ofNat k.val))
  | save x | restore x =>
    exact { hplain with
      index := fun h =>
        ⟨fitsAny_of_form hd (by simp [form]), movesIndex_ne_of_indexPast_ne h⟩ }
  | _ => exact hplain

theorem divergence_run {i : Instruction} (hd : decode w = some i) (m : Machine) :
    Divergence w d e ((m.speaking d).run i) ((m.speaking e).run i) :=
  { divergence_effect hd m with
    pc := congrArg Address.toWord ((next_speaking m e i).trans (next_speaking m d i).symm) }

/-- In both dialects a step meets the same fault, or both make it and part where they may. -/
theorem step_speaking_cases (m : Machine) (d e : Dialect) :
    (∃ f, (m.speaking d).step = .error f ∧ (m.speaking e).step = .error f) ∨
      ∃ a b, (m.speaking d).step = .ok a ∧ (m.speaking e).step = .ok b ∧
        Divergence m.word d e a b := by
  cases hw : m.isWaiting with
  | true => exact .inr ⟨_, _, step_of_waiting hw, step_of_waiting hw, divergence_speaking _ d e m⟩
  | false =>
    cases hf : m.fetch with
    | error f =>
      exact .inl ⟨f, step_eq_error_iff.2 ⟨hw, hf⟩, step_eq_error_iff.2 ⟨hw, hf⟩⟩
    | ok i =>
      exact .inr ⟨_, _, step_speaking_of_fetch hw hf d, step_speaking_of_fetch hw hf e,
        divergence_run (fetch_eq_ok_iff.1 hf).1 m⟩

theorem fitsAny_dialectForms {forms : List String} (hsub : ∀ form ∈ forms, form ∈ dialectForms)
    (h : Word.fitsAny w forms = true) : Word.fitsAny w dialectForms = true := by
  obtain ⟨form, hm, hfit⟩ := List.any_eq_true.1 h
  exact List.any_eq_true.2 ⟨form, hsub form hm, hfit⟩

theorem Divergence.eq_speaking {a b : Machine} (h : Divergence w d e a b)
    (hw : Word.fitsAny w dialectForms = false) : b = a.speaking e := by
  have hforms : ∀ forms : List String, (∀ form ∈ forms, form ∈ dialectForms) →
      Word.fitsAny w forms ≠ true := by
    intro forms hsub hfit
    rw [fitsAny_dialectForms hsub hfit] at hw
    cases hw
  have hindex : b.index = a.index := by
    apply Classical.byContradiction
    intro hne
    exact hforms _ (by simp [dialectForms]) (h.index hne).1
  have hregisters : b.registers = a.registers := by
    apply Vector.ext
    intro k hk
    apply Classical.byContradiction
    intro hne
    rcases h.register ⟨k, hk⟩ hne with ⟨hfit, _⟩ | ⟨hfit, _⟩
    · exact hforms _ (by simp [dialectForms]) hfit
    · exact hforms _ (by simp [dialectForms]) hfit
  rw [speaking, Machine.mk.injEq]
  exact ⟨h.pc, hindex, hregisters, h.memory, h.stack, h.delay, h.sound, h.raster, h.keypad,
    h.awaiting, h.dialects.2, h.stream⟩

theorem latch_speaking (m : Machine) (e : Dialect) (key : UInt8) (down : Bool) :
    (m.speaking e).latch key down = (m.latch key down).speaking e := by
  have hregisters : (m.speaking e).registers = m.registers := rfl
  obtain ⟨hr, hk, ha⟩ := latch_of_same hregisters rfl rfl key down
  rw [latch_eq (m.speaking e), hr, hk, ha, latch_eq m]
  rfl

/-- A step of a machine in another dialect, unless its word is one on which dialects disagree. -/
theorem step_speaking {m : Machine} (e : Dialect)
    (h : ∀ r ∈ Operation.step.ran m, Word.fitsAny r.word dialectForms = false) :
    (m.speaking e).step = m.step.map (·.speaking e) := by
  cases hw : m.isWaiting with
  | true =>
    rw [step_of_waiting (m := m.speaking e) hw, step_of_waiting hw]
    rfl
  | false =>
    rcases step_speaking_cases m m.dialect e with ⟨f, hm, he⟩ | ⟨a, b, hm, he, hab⟩
    · rw [he, show m.step = .error f from hm]
      rfl
    · have hstep : m.step = .ok a := hm
      rw [he, hstep, hab.eq_speaking (h m (Operation.mem_ran_step hw hstep))]
      rfl

theorem after_speaking {m : Machine} {op : Operation}
    (h : ∀ r ∈ op.ran m, Word.fitsAny r.word dialectForms = false) (e : Dialect) :
    op.report (m.speaking e) = op.report m ∧
      ∃ e', op.after (m.speaking e) = (op.after m).speaking e' := by
  cases op with
  | step =>
    have hstep := step_speaking e h
    rw [Operation.report_step, Operation.report_step]
    cases hm : m.step with
    | error f =>
      rw [hm] at hstep
      rw [hstep, Operation.after_step_of_error hm, Operation.after_step_of_error hstep]
      exact ⟨rfl, e, rfl⟩
    | ok a =>
      rw [hm] at hstep
      rw [hstep, Operation.after_step_of_ok hm, Operation.after_step_of_ok hstep]
      exact ⟨rfl, e, rfl⟩
  | latch key down => exact ⟨rfl, e, latch_speaking m e key down⟩
  | restart bytes =>
    simp only [Operation.report, Operation.perform]
    cases hrom : Rom.ofBytes bytes with
    | error f =>
      rw [Operation.after_restart_of_error hrom, Operation.after_restart_of_error hrom]
      exact ⟨rfl, e, rfl⟩
    | ok rom =>
      rw [Operation.after_restart_of_ok hrom, Operation.after_restart_of_ok hrom]
      exact ⟨rfl, e, rfl⟩
  | setDialect d => exact ⟨rfl, d, rfl⟩
  | _ => exact ⟨rfl, e, rfl⟩

theorem afterAll_speaking {m : Machine} {ops : List Operation}
    (h : ∀ r ∈ m.ranAll ops, Word.fitsAny r.word dialectForms = false) (e : Dialect) :
    ∃ e', (m.speaking e).afterAll ops = (m.afterAll ops).speaking e' := by
  induction ops generalizing m e with
  | nil => exact ⟨e, rfl⟩
  | cons op ops ih =>
    have hfirst : ∀ r ∈ op.ran m, Word.fitsAny r.word dialectForms = false :=
      fun r hr => h r (List.mem_append_left _ hr)
    have hrest : ∀ r ∈ (op.after m).ranAll ops, Word.fitsAny r.word dialectForms = false :=
      fun r hr => h r (List.mem_append_right _ hr)
    obtain ⟨_, e₁, hafter⟩ := after_speaking hfirst e
    rw [afterAll_cons, afterAll_cons, hafter]
    exact ih hrest e₁

/-- Two machines that differ in their dialects `d` and `e` only meet the same fault at a step, or
make it and differ afterwards where its word lets these dialects disagree; at any other word they
differ in the dialect only. So they do through any operations in which no instruction on which
dialects disagree is run: each operation reports the same of both and leaves them equal but for the
dialect. -/
theorem dialects_part_at_seven_forms (m : Machine) (d e : Dialect) :
    Operation.step.report (m.speaking e) = Operation.step.report (m.speaking d) ∧
      (∀ a b, (m.speaking d).step = .ok a → (m.speaking e).step = .ok b →
        Divergence m.word d e a b ∧
          (Word.fitsAny m.word dialectForms = false → b = a.speaking e)) ∧
      ∀ ops, (∀ r ∈ (m.speaking d).ranAll ops, Word.fitsAny r.word dialectForms = false) →
        ∀ before op after, ops = before ++ op :: after →
          let a := (m.speaking d).afterAll before
          let b := (m.speaking e).afterAll before
          op.report b = op.report a ∧ ∃ e', op.after b = (op.after a).speaking e' := by
  refine ⟨?_, ?_, ?_⟩
  · rw [Operation.report_step, Operation.report_step]
    rcases step_speaking_cases m d e with ⟨f, hd, he⟩ | ⟨a, b, hd, he, _⟩
    · rw [hd, he]
    · rw [hd, he]
      rfl
  · intro a b ha hb
    rcases step_speaking_cases m d e with ⟨f, hd, _⟩ | ⟨a', b', hd, he, hab⟩
    · rw [hd] at ha
      cases ha
    · rw [hd] at ha
      rw [he] at hb
      cases ha
      cases hb
      exact ⟨hab, hab.eq_speaking⟩
  · rintro ops hran before op after rfl a b
    rw [ranAll_append, ranAll] at hran
    obtain ⟨e₁, hbefore⟩ := afterAll_speaking (fun r hr => hran r (List.mem_append_left _ hr)) e
    have hb : b = a.speaking e₁ := hbefore
    rw [hb]
    exact after_speaking
      (fun r hr => hran r (List.mem_append_right _ (List.mem_append_left _ hr))) e₁

/-- A shift of two registers can come out differently in these two and the flag only; putting a byte
into a register cannot come out differently at all. -/
theorem dialects_part_at_shift :
    let m := start ⟨#[0x81, 0x26], by decide⟩ .modern (.seeded 0)
    let n := start ⟨#[0x61, 0x05], by decide⟩ .modern (.seeded 0)
    (∃ a b, (m.speaking .modern).step = .ok a ∧ (m.speaking .cosmac).step = .ok b ∧
      ∀ r : Register, r.val ≠ 1 → r ≠ flag → b.register r = a.register r) ∧
    ∃ e', Operation.step.after (n.speaking .cosmac) =
      (Operation.step.after (n.speaking .modern)).speaking e' := by
  intro m n
  have hm : m.word = 0x8126 := word_start _ _ _
  have hn : n.word = 0x6105 := word_start _ _ _
  have hidle : m.isWaiting = false := rfl
  have hfault : ∀ op x y, m.fault? (.compute op x y) = none := fun _ _ _ => rfl
  clear_value m n
  constructor
  · have hfetch : m.fetch = .ok (.compute .shiftRight ⟨1, by decide⟩ ⟨2, by decide⟩) :=
      fetch_eq_ok_iff.2 ⟨by rw [hm]; rfl, hfault _ _ _⟩
    have hd := step_speaking_of_fetch hidle hfetch .modern
    have he := step_speaking_of_fetch hidle hfetch .cosmac
    obtain ⟨_, hstep, _⟩ := dialects_part_at_seven_forms m .modern .cosmac
    refine ⟨_, _, hd, he, ?_⟩
    intro r hx hflag
    apply Classical.byContradiction
    intro hne
    rcases (hstep _ _ hd he).1.register r hne with ⟨_, _, h⟩ | ⟨_, _, _, h | h⟩
    · exact hflag h
    · rw [hm] at h
      exact hx (congrArg Fin.val h)
    · exact hflag h
  · obtain ⟨_, _, hrun⟩ := dialects_part_at_seven_forms n .modern .cosmac
    have hran : ∀ r ∈ (n.speaking .modern).ranAll [.step],
        Word.fitsAny r.word dialectForms = false := by
      intro r hr
      rw [ranAll, ranAll, List.append_nil] at hr
      obtain ⟨_, _, rfl⟩ := Operation.of_mem_ran hr
      rw [word_speaking, hn]
      decide
    exact (hrun [.step] hran [] .step [] rfl).2

end Machine

end Chip8
