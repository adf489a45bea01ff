import Chip8.Proofs.Reachability
import Chip8.Proofs.StorageExecution

/-!
# Instructions in storage

Each instruction is followed through its checked accesses and sums. On the storage of a machine
with a sound call stack no check fails, and what the instruction leaves is the storage of the
machine that `Machine.effect` makes. Only calls and returns need the stack to be sound: its depth
keeps the access inside the sixteen slots, and its slots leave room for the sum behind a return.
-/
namespace Chip8

namespace Memory

theorem write_append (m : Memory) (a : Address) (bs : List UInt8) (b : UInt8) :
    m.write a (bs ++ [b]) = (m.write a bs).put (a.advance bs.length) b := by
  induction bs generalizing m a with
  | nil => simp [write]
  | cons c bs ih =>
    simp only [List.cons_append, write, ih, Address.advance_advance, List.length_cons]
    rw [Nat.add_comm]

end Memory

namespace Storage

theorem mapM_eq_some_map {α β : Type} {f : α → Option β} {g : α → β} (l : List α)
    (h : ∀ a ∈ l, f a = some (g a)) : l.mapM f = some (l.map g) := by
  induction l with
  | nil => rfl
  | cons a l ih =>
    rw [List.mapM_cons, h a (List.mem_cons_self ..), ih fun b hb => h b (List.mem_cons_of_mem _ hb)]
    rfl

theorem foldlM_range_succ {σ : Type} (f : σ → Nat → Option σ) (s : σ) (n : Nat) :
    (List.range (n + 1)).foldlM f s = ((List.range n).foldlM f s).bind fun t => f t n := by
  rw [List.range_succ, List.foldlM_append]
  simp

theorem toggleAt_eq (x y : Nat) (r : Raster) (hit : Bool) :
    toggleAt x y (r.cells, hit) =
      some ((r.toggle (Raster.cell x y)).cells, hit || r.isLit (Raster.cell x y)) := by
  have hk : y % 32 * 64 + x % 64 = (Raster.cell x y).val := by
    simp only [Raster.cell]
    omega
  have hlt := (Raster.cell x y).isLt
  unfold toggleAt
  rw [mulIndex_eq (by omega)]
  simp only [bind, Option.bind]
  rw [addIndex_eq (by omega), hk]
  simp only [put_eq hlt]
  simp [Raster.toggle, Raster.isLit]

theorem paintRow_eq {x y : Nat} (columns : List Nat) (hx : x < 256) (hc : ∀ k ∈ columns, k < 8)
    (r : Raster) (hit : Bool) :
    paintRow x y columns (r.cells, hit) =
      (let p := Raster.toggleAll (columns.map fun k => Raster.cell (x + k) y) (r, hit)
       some (p.1.cells, p.2)) := by
  induction columns generalizing r hit with
  | nil => rfl
  | cons k columns ih =>
    have hk := hc k (List.mem_cons_self ..)
    unfold paintRow
    rw [addIndex_eq (by omega)]
    simp only [bind, Option.bind, toggleAt_eq]
    exact ih (fun j hj => hc j (List.mem_cons_of_mem _ hj)) _ _

theorem lt_of_mem_columns {bits : UInt8} {k : Nat} (h : k ∈ Raster.columns bits) : k < 8 :=
  List.mem_range.1 (List.mem_filter.1 h).1

/-- Painting checks every sum of coordinates and toggles the cells of the footprint. -/
theorem paint_eq {x y : Nat} (hx : x < 256) (hy : y < 256) (rows : List UInt8) (j : Nat)
    (hj : j + rows.length ≤ 256) (r : Raster) (hit : Bool) :
    paint x y j rows (r.cells, hit) =
      (let p := Raster.toggleAll (Raster.footprint x (y + j) rows) (r, hit)
       some (p.1.cells, p.2)) := by
  induction rows generalizing j r hit with
  | nil => rfl
  | cons bits rows ih =>
    rw [List.length_cons] at hj
    unfold paint
    rw [addIndex_eq (by omega)]
    simp only [bind, Option.bind, paintRow_eq _ hx (fun k => lt_of_mem_columns)]
    rw [ih (j + 1) (by omega)]
    simp only [Raster.footprint, Raster.toggleAll_append, Nat.add_assoc]

end Storage

open Storage

namespace Machine

variable (m : Machine)

theorem getElem?_registers (x : Register) :
    m.storage.registers[x.val]? = some (m.register x) := by
  simp [storage, register]

theorem assign_storage (x : Register) (b : UInt8) :
    m.storage.assign x b = some (m.setRegister x b).storage := by
  simp only [assign, put_eq x.isLt]
  rfl

theorem assign_flag (b : UInt8) :
    m.storage.assign 15 b = some (m.setRegister flag b).storage := assign_storage m flag b

theorem place_index {k : Nat} (hk : k < 16) :
    place m.storage.index k = some (m.cursor.advance k).val := place_eq _ hk

theorem getElem?_storage_memory (a : Address) :
    m.storage.memory[a.val]? = some (m.memory.read a) := getElem?_memory _ a

theorem put_storage_memory (a : Address) (b : UInt8) :
    put m.storage.memory a.val b = some (m.memory.put a b) := put_memory _ a b

theorem write_storage {k : Nat} (hk : k < 16) (b : UInt8) :
    m.storage.write k b =
      some { m with memory := m.memory.put (m.cursor.advance k) b }.storage := by
  simp only [Storage.write, place_index m hk, bind, Option.bind, put_storage_memory]
  rfl

theorem holds_storage (t : Test) : m.storage.holds t = some (m.holds t) := by
  have hk (x : Register) : m.storage.keypad[(m.register x).toNat % 16]? =
      some (m.isDown (keyOf (m.register x))) := by
    simp [storage, isDown, keyOf]
  cases t with
  | keyDown x =>
    simp only [Storage.holds, getElem?_registers, bind, Option.bind, hk]
    rfl
  | keyUp x =>
    simp only [Storage.holds, getElem?_registers, bind, Option.bind, hk]
    rfl
  | _ =>
    simp only [Storage.holds, getElem?_registers]
    rfl

theorem compute_storage (op : Arithmetic) (x y : Register) :
    m.storage.compute op x y = some (m.compute op x y).storage := by
  have hd : m.storage.dialect = m.dialect := rfl
  simp only [Storage.compute, getElem?_registers, bind, Option.bind, hd, Machine.compute]
  cases op.eval m.dialect (m.register x) (m.register y) with
  | mk v f =>
    cases f with
    | none => exact assign_storage m x v
    | some f =>
      simp only [assign_storage]
      exact assign_flag _ f

theorem mapM_window {n : Nat} (hn : n ≤ 16) :
    ((List.range n).mapM fun k => do m.storage.memory[← place m.storage.index k]?) =
      some (m.memory.window m.cursor n) := by
  apply mapM_eq_some_map
  intro k hk
  have hlt : k < 16 := Nat.lt_of_lt_of_le (List.mem_range.1 hk) hn
  simp only [place_index m hlt, bind, Option.bind]
  exact getElem?_storage_memory m _

theorem drawSprite_storage (x y : Register) (n : Fin 16) :
    m.storage.drawSprite x y n = some (m.drawSprite x y n.val).storage := by
  have hn := n.isLt
  have hl : (m.memory.window m.cursor n.val).length = n.val := by simp [Memory.window]
  have hp := paint_eq (m.register x).toNat_lt (m.register y).toNat_lt
    (m.memory.window m.cursor n.val) 0 (by omega) m.raster false
  have hc : m.storage.cells = m.raster.cells := rfl
  have hg : (guard (n.val ≤ 15) : Option Unit) = some () := if_pos (by omega)
  unfold Storage.drawSprite
  rw [mapM_window m (Nat.le_of_lt hn), hg]
  simp only [bind, Option.bind, getElem?_registers, hc, hp, assign_flag]
  rfl

theorem saveOne_storage (k : Fin 16) :
    saveOne m.storage k.val =
      some { m with memory := m.memory.put (m.cursor.advance k.val) (m.register k) }.storage := by
  simp only [saveOne, place_index m k.isLt, bind, Option.bind, getElem?_registers,
    put_storage_memory]
  rfl

theorem foldlM_saveOne {n : Nat} (hn : n ≤ 16) :
    (List.range n).foldlM saveOne m.storage =
      some { m with memory := m.memory.write m.cursor (m.registers.toList.take n) }.storage := by
  induction n with
  | zero => rfl
  | succ n ih =>
    have hlt : n < m.registers.toList.length := by
      rw [Vector.length_toList]
      exact hn
    have ht : m.registers.toList.take (n + 1) =
        m.registers.toList.take n ++ [m.register ⟨n, hn⟩] := by
      rw [List.take_succ_eq_append_getElem hlt]
      simp [register]
    have hl : (m.registers.toList.take n).length = n := by
      rw [List.length_take]
      omega
    rw [foldlM_range_succ, ih (by omega), ht, Memory.write_append, hl]
    exact saveOne_storage _ ⟨n, hn⟩

theorem restoreOne_storage (k : Fin 16) :
    restoreOne m.storage k.val =
      some (m.setRegister k (m.memory.read (m.cursor.advance k.val))).storage := by
  simp only [restoreOne, place_index m k.isLt, bind, Option.bind, getElem?_storage_memory]
  exact assign_storage _ _ _

/-- The registers of which the first `n` are read back from memory. -/
def restored (n : Nat) : Vector UInt8 16 :=
  Vector.ofFn fun r => if r.val < n then m.memory.read (m.cursor.advance r.val) else m.register r

theorem restored_zero : m.restored 0 = m.registers := by
  apply Vector.ext
  intro k hk
  simp [restored, register]

theorem restored_succ {n : Nat} (hn : n < 16) :
    m.restored (n + 1) = (m.restored n).set n (m.memory.read (m.cursor.advance n)) := by
  apply Vector.ext
  intro k hk
  rw [Vector.getElem_set]
  simp only [restored, Vector.getElem_ofFn]
  by_cases h : n = k
  · subst h
    simp
  · have hlt : k < n + 1 ↔ k < n := by omega
    simp only [if_neg h, hlt]

theorem foldlM_restoreOne {n : Nat} (hn : n ≤ 16) :
    (List.range n).foldlM restoreOne m.storage =
      some { m with registers := m.restored n }.storage := by
  induction n with
  | zero =>
    rw [restored_zero]
    rfl
  | succ n ih =>
    rw [foldlM_range_succ, ih (by omega), restored_succ m hn]
    exact restoreOne_storage _ ⟨n, hn⟩

theorem mask_index : mask m.storage.index = m.cursor.toWord := mask_eq m.index

theorem moveIndex_storage (x : Register) :
    m.storage.moveIndex x = some { m with index := m.indexPast (x.val + 1) }.storage := by
  have hx := x.isLt
  have ha := m.cursor.isLt
  have hxn : (UInt16.ofNat x.val).toNat = x.val := by
    rw [UInt16.toNat_ofNat']
    omega
  have hone : (UInt16.ofNat x.val + 1).toNat = x.val + 1 := by
    rw [UInt16.toNat_add, hxn, show (1 : UInt16).toNat = 1 from rfl]
    omega
  have hfirst : addWord m.cursor.toWord (UInt16.ofNat x.val) =
      some (m.cursor.toWord + UInt16.ofNat x.val) := addWord_address _ (by omega)
  have hsecond : addWord (m.cursor.toWord + UInt16.ofNat x.val) 1 =
      some (m.cursor.toWord + UInt16.ofNat x.val + 1) := by
    apply addWord_eq
    rw [UInt16.toNat_add, Address.toNat_toWord, hxn, show (1 : UInt16).toNat = 1 from rfl]
    omega
  unfold moveIndex indexPast
  rw [show m.storage.dialect = m.dialect from rfl]
  cases m.dialect.movesIndex with
  | false => rfl
  | true =>
    simp only [if_true, mask_index, bind, Option.bind, hfirst, hsecond]
    rw [UInt16.add_assoc, mask_toWord_add, hone]
    rfl

section

variable {m}

theorem act_ret (h : m.stack.Sound) (pc next : UInt16) (hd : m.stack.depth ≠ 0) :
    m.storage.act pc next .ret =
      some (.ok (m.stack.top + 2), { m with stack := m.stack.pop }.storage) := by
  have hle := h.depth_le
  simp only [CallStack.limit] at hle
  have hsub : subIndex m.storage.depth 1 = some (m.stack.depth - 1) :=
    if_pos (Nat.one_le_iff_ne_zero.2 hd)
  have htop : m.storage.slots[m.stack.depth - 1]? = some m.stack.top := by
    have hlt : m.stack.depth - 1 < 16 := by omega
    simp [storage, CallStack.top, hlt]
  have hadd : addWord m.stack.top 2 = some (m.stack.top + 2) := by
    have ht := h.top_lt
    apply addWord_eq
    rw [show (2 : UInt16).toNat = 2 from rfl]
    omega
  have hz : ¬ m.storage.depth = 0 := hd
  simp only [act, if_neg hz, hsub, bind, Option.bind, htop, hadd]
  rfl

-- Without a sound stack the check of the slot can fail.
example (pc next : UInt16) : { m.storage with depth := 17 }.act pc next .ret = none := rfl

theorem act_call (h : m.stack.Sound) (next : UInt16) (a : Address)
    (hd : m.stack.depth ≠ CallStack.limit) :
    m.storage.act m.here.toWord next (.call a) =
      some (.ok a.toWord, { m with stack := m.stack.push m.here.toWord }.storage) := by
  have hlt : m.stack.depth < 16 := Nat.lt_of_le_of_ne h.depth_le hd
  have hput : put m.storage.slots m.storage.depth m.here.toWord =
      some (m.stack.slots.set m.stack.depth m.here.toWord) := put_eq hlt _
  have hadd : addIndex m.storage.depth 1 = some (m.stack.depth + 1) :=
    addIndex_eq (show m.stack.depth + 1 < 4294967296 by omega)
  have hz : ¬ m.storage.depth = CallStack.limit := hd
  simp only [act, if_neg hz, hput, bind, Option.bind, hadd, CallStack.push, dif_pos hlt]
  rfl

theorem act_skipIf (t : Test) :
    m.storage.act m.here.toWord (m.here.toWord + 2) (.skipIf t) =
      some (.ok (if m.holds t then m.here.toWord + 2 + 2 else m.here.toWord + 2), m.storage) := by
  have hh := m.here.isLt
  have hadd : addWord (m.here.toWord + 2) 2 = some (m.here.toWord + 2 + 2) := by
    apply addWord_eq
    rw [UInt16.toNat_add, Address.toNat_toWord, show (2 : UInt16).toNat = 2 from rfl]
    omega
  simp only [act, holds_storage, bind, Option.bind]
  cases m.holds t with
  | true =>
    simp only [if_true, hadd]
    rfl
  | false => rfl

theorem act_jumpFrom (pc next : UInt16) (a : Address) :
    m.storage.act pc next (.jumpFrom a) =
      some (.ok (a.toWord + (m.register ⟨0, by decide⟩).toUInt16), m.storage) := by
  have hv := (m.register ⟨0, by decide⟩).toNat_lt
  have hr : m.storage.registers[0]? = some (m.register ⟨0, by decide⟩) :=
    getElem?_registers m ⟨0, by decide⟩
  simp only [act, hr, bind, Option.bind]
  rw [addWord_address a (by rw [UInt8.toNat_toUInt16]; omega)]
  rfl

theorem act_random (pc next : UInt16) (x : Register) (b : UInt8) :
    m.storage.act pc next (.random x b) = some (.ok next, (m.effect (.random x b)).storage) := by
  have hs : m.storage.stream = m.stream := rfl
  simp only [act, effect, hs]
  cases m.stream.next with
  | mk r stream =>
    have ha := assign_storage { m with stream := stream } x (r &&& b)
    simp only [storage] at ha
    simp only [storage, ha, bind, Option.bind]
    rfl

theorem act_awaitKey (pc next : UInt16) (x : Register) :
    m.storage.act pc next (.awaitKey x) = some (.ok next, (m.effect (.awaitKey x)).storage) := by
  have hp : ((List.finRange 16).find? m.storage.keypad.get) = m.pressed? := rfl
  simp only [act, effect, hp]
  cases m.pressed? with
  | none => rfl
  | some k =>
    simp only [assign_storage]
    rfl

theorem act_addIndex (pc next : UInt16) (x : Register) :
    m.storage.act pc next (.addIndex x) = some (.ok next, (m.effect (.addIndex x)).storage) := by
  have hv := (m.register x).toNat_lt
  have hadd : addWord m.cursor.toWord (m.register x).toUInt16 =
      some (m.cursor.toWord + (m.register x).toUInt16) :=
    addWord_address _ (by rw [UInt8.toNat_toUInt16]; omega)
  simp only [act, getElem?_registers, bind, Option.bind, mask_index, hadd, mask_toWord_add,
    UInt8.toNat_toUInt16]
  rfl

theorem act_glyph (pc next : UInt16) (x : Register) :
    m.storage.act pc next (.glyph x) = some (.ok next, (m.effect (.glyph x)).storage) := by
  have hk := (keyOf (m.register x)).isLt
  have hd : (m.register x &&& 0xF).toUInt16.toNat = (keyOf (m.register x)).val := by
    rw [UInt8.toNat_toUInt16, UInt8.toNat_and]
    exact Nat.and_two_pow_sub_one_eq_mod _ 4
  have hfive : (5 : UInt16).toNat = 5 := rfl
  have hmul : mulWord (m.register x &&& 0xF).toUInt16 5 =
      some (UInt16.ofNat (5 * (keyOf (m.register x)).val)) := by
    rw [mulWord, hd, hfive, if_pos (by omega), Option.some.injEq]
    apply UInt16.toNat_inj.1
    rw [UInt16.toNat_mul, hd, hfive, UInt16.toNat_ofNat', Nat.mul_comm]
  have hadd (w : UInt16) : addWord 0 w = some w := by
    have hw := w.toNat_lt
    rw [addWord_eq, UInt16.zero_add]
    rw [show (0 : UInt16).toNat = 0 from rfl]
    omega
  simp only [act, getElem?_registers, bind, Option.bind, hmul, hadd]
  rfl

theorem act_decimal (pc next : UInt16) (x : Register) :
    m.storage.act pc next (.decimal x) = some (.ok next, (m.effect (.decimal x)).storage) := by
  simp only [act, getElem?_registers, bind, Option.bind]
  rw [write_storage m (by decide)]
  simp only
  rw [write_storage _ (by decide)]
  simp only
  rw [write_storage _ (by decide)]
  simp only [effect, decimalDigits, Memory.write, Address.advance_advance, Address.advance_zero]
  rfl

theorem act_save (pc next : UInt16) (x : Register) :
    m.storage.act pc next (.save x) = some (.ok next, (m.effect (.save x)).storage) := by
  simp only [act, foldlM_saveOne m x.isLt, bind, Option.bind, moveIndex_storage]
  rfl

theorem act_restore (pc next : UInt16) (x : Register) :
    m.storage.act pc next (.restore x) = some (.ok next, (m.effect (.restore x)).storage) := by
  simp only [act, foldlM_restoreOne m x.isLt, bind, Option.bind, moveIndex_storage]
  rfl

end

variable {m}

/-- An instruction that meets no fault passes every check, leaves the machine that its effect
makes, and goes on where `next` says. -/
theorem act_storage (h : m.stack.Sound) {i : Instruction} (hf : m.fault? i = none) :
    ∃ w, mask w = (m.next i).toWord ∧
      m.storage.act m.here.toWord (m.here.toWord + 2) i = some (.ok w, (m.effect i).storage) := by
  have hn : mask (m.here.toWord + 2) = (m.here.advance 2).toWord := mask_toWord_add _ 2
  cases i with
  | clear => exact ⟨_, hn, rfl⟩
  | ret =>
    have hd : m.stack.depth ≠ 0 := by simpa [fault?] using hf
    exact ⟨_, mask_add _ _, act_ret h _ _ hd⟩
  | jump a => exact ⟨_, mask_toWord a, rfl⟩
  | call a =>
    have hd : m.stack.depth ≠ CallStack.limit := by simpa [fault?] using hf
    exact ⟨_, mask_toWord a, act_call h _ a hd⟩
  | skipIf t =>
    refine ⟨_, ?_, act_skipIf t⟩
    cases ht : m.holds t with
    | true =>
      simp only [if_true, next, ht]
      rw [UInt16.add_assoc, mask_toWord_add]
      rfl
    | false => simpa [next, ht] using hn
  | setByte x b => exact ⟨_, hn, by simp only [act, assign_storage]; rfl⟩
  | addByte x b =>
    exact ⟨_, hn, by simp only [act, getElem?_registers, bind, Option.bind, assign_storage]; rfl⟩
  | compute op x y => exact ⟨_, hn, by simp only [act, compute_storage]; rfl⟩
  | setIndex a => exact ⟨_, hn, rfl⟩
  | jumpFrom a =>
    refine ⟨_, ?_, act_jumpFrom _ _ a⟩
    rw [mask_toWord_add, UInt8.toNat_toUInt16]
    rfl
  | random x b => exact ⟨_, hn, act_random _ _ x b⟩
  | draw x y n => exact ⟨_, hn, by simp only [act, drawSprite_storage]; rfl⟩
  | readDelay x => exact ⟨_, hn, by simp only [act, assign_storage]; rfl⟩
  | awaitKey x => exact ⟨_, hn, act_awaitKey _ _ x⟩
  | setDelay x => exact ⟨_, hn, by simp only [act, getElem?_registers]; rfl⟩
  | setSound x => exact ⟨_, hn, by simp only [act, getElem?_registers]; rfl⟩
  | addIndex x => exact ⟨_, hn, act_addIndex _ _ x⟩
  | glyph x => exact ⟨_, hn, act_glyph _ _ x⟩
  | decimal x => exact ⟨_, hn, act_decimal _ _ x⟩
  | save x => exact ⟨_, hn, act_save _ _ x⟩
  | restore x => exact ⟨_, hn, act_restore _ _ x⟩

/-- An instruction that meets a fault reports it before it has changed anything. -/
theorem act_of_fault {i : Instruction} {f : Fault} (next : UInt16) (hf : m.fault? i = some f) :
    m.storage.act m.here.toWord next i = some (.error f, m.storage) := by
  have hd : m.storage.depth = m.stack.depth := rfl
  cases i with
  | ret =>
    by_cases h : m.stack.depth = 0
    · rw [fault?, if_pos h, Option.some.injEq] at hf
      rw [act, hd, if_pos h, ← hf, Address.ofWord_toWord]
      rfl
    · simp [fault?, h] at hf
  | call a =>
    by_cases h : m.stack.depth = CallStack.limit
    · rw [fault?, if_pos h, Option.some.injEq] at hf
      rw [act, hd, if_pos h, ← hf, Address.ofWord_toWord]
      rfl
    · simp [fault?, h] at hf
  | _ => simp [fault?] at hf

end Machine

end Chip8
