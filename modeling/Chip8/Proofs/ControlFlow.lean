import Chip8.Proofs.StackDiscipline

/-!
# Where a step goes on

After most instructions a machine goes on with the next word, two bytes further. Ten forms of words
may lead elsewhere: the two jumps, the call and the return, and the six tests that skip a word.
`Flow` says for each of them, by the parts of the word and the state before the step, which address
the program counter holds afterwards. All sums are taken modulo 4096, so a step near the end of
memory goes on at its start.
-/
namespace Chip8

namespace Instruction

/-- The forms of the instructions that may not go on with the next word. -/
def branchForms : List String :=
  ["00EE", "1NNN", "2NNN", "3XNN", "4XNN", "5XY0", "9XY0", "BNNN", "EX9E", "EXA1"]

def branches (w : UInt16) : List (String × Instruction) :=
  [("1NNN", .jump (Word.target w)), ("2NNN", .call (Word.target w)),
    ("BNNN", .jumpFrom (Word.target w)),
    ("3XNN", .skipIf (.eqByte (Word.x w) (Word.low w))),
    ("4XNN", .skipIf (.neByte (Word.x w) (Word.low w))),
    ("5XY0", .skipIf (.eqRegister (Word.x w) (Word.y w))),
    ("9XY0", .skipIf (.neRegister (Word.x w) (Word.y w))),
    ("EX9E", .skipIf (.keyDown (Word.x w))), ("EXA1", .skipIf (.keyUp (Word.x w)))]

theorem decode_of_branch {w : UInt16} {form : String} {i : Instruction}
    (hm : (form, i) ∈ branches w) (h : Word.fits w form = true) : decode w = some i := by
  have hlast : (Word.last w).val = w.toNat % 16 := rfl
  simp only [branches, List.mem_cons, Prod.mk.injEq, List.not_mem_nil, or_false] at hm
  rcases hm with ⟨rfl, rfl⟩ | ⟨rfl, rfl⟩ | ⟨rfl, rfl⟩ | ⟨rfl, rfl⟩ | ⟨rfl, rfl⟩ | ⟨rfl, rfl⟩ |
    ⟨rfl, rfl⟩ | ⟨rfl, rfl⟩ | ⟨rfl, rfl⟩
  all_goals
    simp [Word.fits, Word.digits, Hex.digit?] at h
    simp [decode, Word.family, hlast, Word.toNat_low, ← h, ofKeyCode?]

end Instruction

namespace Machine

open Instruction (decode branchForms branches decode_of_branch form_not_mem_of_decode form)

def conditions (m : Machine) : List (String × Bool) :=
  let vx := m.register (Word.x m.word)
  let vy := m.register (Word.y m.word)
  [("3XNN", vx == Word.low m.word), ("4XNN", vx != Word.low m.word), ("5XY0", vx == vy),
    ("9XY0", vx != vy), ("EX9E", m.isDown (keyOf vx)), ("EXA1", !m.isDown (keyOf vx))]

structure Flow (m m' : Machine) : Prop where
  jump : Word.fitsAny m.word ["1NNN", "2NNN"] = true → m'.pc.toNat = m.word.toNat % 4096
  jumpFrom : Word.fits m.word "BNNN" = true →
    m'.pc.toNat = (m.word.toNat % 4096 + (m.register ⟨0, by decide⟩).toNat) % 4096
  ret : m.word = 0x00EE → ∃ k : Fin 16, m.stack.depth = k.val + 1 ∧
    m'.pc.toNat = ((m.stack.slots.get k).toNat + 2) % 4096
  skip : ∀ form met, (form, met) ∈ m.conditions → Word.fits m.word form = true →
    m'.pc.toNat = (m.here.val + if met then 4 else 2) % 4096
  onward : Word.fitsAny m.word branchForms = false → m'.pc.toNat = (m.here.val + 2) % 4096

theorem next_of_form {i : Instruction} (h : i.form ∉ branchForms) (m : Machine) :
    m.next i = m.here.advance 2 := by
  cases i with
  | skipIf t => cases t <;> simp [form, branchForms] at h
  | ret | jump | call | jumpFrom => simp [form, branchForms] at h
  | _ => rfl

variable {m m' : Machine}

theorem exists_decode_of_step (hw : m.awaiting = none) (h : m.step = .ok m') :
    ∃ i, m.fetch = .ok i ∧ decode m.word = some i ∧ m'.pc.toNat = (m.next i).val := by
  rcases step_eq_ok_iff.1 h with ⟨hwaiting, _⟩ | ⟨_, i, hfetch, rfl⟩
  · rw [isWaiting_eq_false_iff.2 hw] at hwaiting
    cases hwaiting
  · exact ⟨i, hfetch, (fetch_eq_ok_iff.1 hfetch).1, Address.toNat_toWord _⟩

/-- A step goes on at the successor of the instruction that the parts of a branching word make
up. -/
theorem pc_of_branch (hw : m.awaiting = none) (h : m.step = .ok m') {form : String}
    {i : Instruction} (hi : (form, i) ∈ branches m.word) (hfit : Word.fits m.word form = true) :
    m'.pc.toNat = (m.next i).val := by
  obtain ⟨j, _, hd, hpc⟩ := exists_decode_of_step hw h
  rw [decode_of_branch hi hfit] at hd
  cases hd
  exact hpc

theorem pc_of_return (hm : m.Reachable) (hw : m.awaiting = none) (h : m.step = .ok m')
    (hword : m.word = 0x00EE) :
    ∃ k : Fin 16, m.stack.depth = k.val + 1 ∧
      m'.pc.toNat = ((m.stack.slots.get k).toNat + 2) % 4096 := by
  obtain ⟨i, hfetch, hd, hpc⟩ := exists_decode_of_step hw h
  rw [Instruction.decode_eq_ret_iff.2 hword] at hd
  cases hd
  have hpos := depth_pos_of_fetch_ret hfetch
  have hle : m.stack.depth ≤ 16 := hm.sound_stack.depth_le
  refine ⟨⟨m.stack.depth - 1, by omega⟩, by simp only; omega, ?_⟩
  have htop := CallStack.top_eq_get (s := m.stack) (by omega)
  rw [hpc, ← htop]
  simp only [next, Address.val_advance, Address.ofWord, Address.ofNat]
  omega

theorem pc_of_skip (hw : m.awaiting = none) (h : m.step = .ok m') {form : String} {met : Bool}
    (hc : (form, met) ∈ m.conditions) (hfit : Word.fits m.word form = true) :
    m'.pc.toNat = (m.here.val + if met then 4 else 2) % 4096 := by
  have hskip : ∀ t, (form, Instruction.skipIf t) ∈ branches m.word → m.holds t = met →
      m'.pc.toNat = (m.here.val + if met then 4 else 2) % 4096 := by
    rintro t ht rfl
    exact pc_of_branch hw h ht hfit
  simp only [conditions, List.mem_cons, Prod.mk.injEq, List.not_mem_nil, or_false] at hc
  rcases hc with ⟨rfl, rfl⟩ | ⟨rfl, rfl⟩ | ⟨rfl, rfl⟩ | ⟨rfl, rfl⟩ | ⟨rfl, rfl⟩ | ⟨rfl, rfl⟩
  · exact hskip (.eqByte _ _) (by simp [branches]) rfl
  · exact hskip (.neByte _ _) (by simp [branches]) rfl
  · exact hskip (.eqRegister _ _) (by simp [branches]) rfl
  · exact hskip (.neRegister _ _) (by simp [branches]) rfl
  · exact hskip (.keyDown _) (by simp [branches]) rfl
  · exact hskip (.keyUp _) (by simp [branches]) rfl

theorem pc_of_other (hw : m.awaiting = none) (h : m.step = .ok m')
    (hform : Word.fitsAny m.word branchForms = false) :
    m'.pc.toNat = (m.here.val + 2) % 4096 := by
  obtain ⟨i, _, hd, hpc⟩ := exists_decode_of_step hw h
  rw [hpc, next_of_form (form_not_mem_of_decode hform hd)]
  rfl

/-- A reachable machine that does not wait and makes a step goes on where the form of its word says,
wherever the word lies and whatever the step does to it. -/
theorem step_flow (hm : m.Reachable) (hw : m.awaiting = none) (h : m.step = .ok m') :
    m.Flow m' where
  jump hfit := by
    obtain ⟨form, hform, hfit⟩ := List.any_eq_true.1 hfit
    simp only [List.mem_cons, List.not_mem_nil, or_false] at hform
    rcases hform with rfl | rfl
    · exact pc_of_branch hw h (i := .jump (Word.target m.word)) (by simp [branches]) hfit
    · exact pc_of_branch hw h (i := .call (Word.target m.word)) (by simp [branches]) hfit
  jumpFrom hfit :=
    pc_of_branch hw h (i := .jumpFrom (Word.target m.word)) (by simp [branches]) hfit
  ret hword := pc_of_return hm hw h hword
  skip _ _ hc hfit := pc_of_skip hw h hc hfit
  onward hform := pc_of_other hw h hform

/-- A test whose bytes are the last and the first of memory skips the word behind it. -/
theorem step_flow_across_end_of_memory :
    let m := (blank .modern (.seeded 0)).afterAll
      [.setMemory (.ofNat 0xFFF) 0x30, .setRegister ⟨0, by decide⟩ 0xF0, .setPc 0xFFF]
    ∃ m', m.step = .ok m' ∧ m'.pc.toNat = 3 := by
  intro m
  have hm : m.Reachable := Reachable.afterAll (.start _ _ _) _
  have hhere : m.here = .ofNat 0xFFF := rfl
  have hmemory : m.memory = Rom.empty.image.put (.ofNat 0xFFF) 0x30 := rfl
  have hregister : m.register ⟨0, by decide⟩ = 0xF0 := rfl
  have hidle : m.awaiting = none := rfl
  have hhigh : m.memory.read (.ofNat 0xFFF) = 0x30 := by
    rw [hmemory, Memory.read_put, if_pos rfl]
  have hlow : m.memory.read (.ofNat 0) = 0xF0 := by
    rw [hmemory, Memory.read_put, if_neg (by decide), Rom.read_image]
    rfl
  clear_value m
  have hword : m.word = 0x30F0 := by
    rw [word, hhere, hhigh]
    change Word.ofBytes 0x30 (m.memory.read (.ofNat 0)) = 0x30F0
    rw [hlow]
    rfl
  have hequal : (m.register (Word.x m.word) == Word.low m.word) = true := by
    rw [hword]
    exact beq_iff_eq.2 hregister
  have hmet : ("3XNN", true) ∈ m.conditions := by simp [conditions, hequal]
  have hstep := step_of_encode (i := .skipIf (.eqByte ⟨0, by decide⟩ 0xF0)) hidle hword rfl
  have hpc := (step_flow hm hidle hstep).skip _ _ hmet (by rw [hword]; decide)
  rw [hhere] at hpc
  exact ⟨_, hstep, hpc⟩

end Machine

end Chip8
