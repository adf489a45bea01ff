import Chip8.Operation

/-!
# A machine in storage

Here a machine is what a host keeps of it: arrays under plain numbers, registers of a fixed width,
and a stack pointer and an awaited register that might be any number. Everything that could go wrong
with them is checked: an access needs an index inside its array, sums and products of words have to
fit sixteen bits, and index arithmetic has to fit an index type of thirty-two. Where a check fails
there is no result at all, which is not the same as a result that reports a fault.

For each check there is a lemma that says when it passes.
-/
namespace Chip8

structure Storage where
  pc : UInt16
  index : UInt16
  registers : Vector UInt8 16
  memory : Memory
  slots : Vector UInt16 16
  depth : Nat
  delay : UInt8
  sound : UInt8
  cells : Vector Bool 2048
  keypad : Vector Bool 16
  awaiting : Option Nat
  dialect : Dialect
  stream : ByteStream

namespace Storage

def addWord (a b : UInt16) : Option UInt16 :=
  if a.toNat + b.toNat < 65536 then some (a + b) else none

def mulWord (a b : UInt16) : Option UInt16 :=
  if a.toNat * b.toNat < 65536 then some (a * b) else none

def addIndex (j k : Nat) : Option Nat := if j + k < 4294967296 then some (j + k) else none

def subIndex (j k : Nat) : Option Nat := if k ≤ j then some (j - k) else none

def mulIndex (j k : Nat) : Option Nat := if j * k < 4294967296 then some (j * k) else none

def put {α : Type} {n : Nat} (v : Vector α n) (k : Nat) (a : α) : Option (Vector α n) :=
  if h : k < n then some (v.set k a h) else none

def mask (w : UInt16) : UInt16 := w &&& 0xFFF

def place (base : UInt16) (k : Nat) : Option Nat := do
  let sum ← addIndex base.toNat k
  return sum % 4096

theorem addWord_eq {a b : UInt16} (h : a.toNat + b.toNat < 65536) : addWord a b = some (a + b) :=
  if_pos h

theorem addIndex_eq {j k : Nat} (h : j + k < 4294967296) : addIndex j k = some (j + k) := if_pos h

theorem mulIndex_eq {j k : Nat} (h : j * k < 4294967296) : mulIndex j k = some (j * k) := if_pos h

theorem put_eq {α : Type} {n : Nat} {v : Vector α n} {k : Nat} (h : k < n) (a : α) :
    put v k a = some (v.set k a h) := dif_pos h

/-- An address leaves room in a word for a smaller number. -/
theorem addWord_address (a : Address) {w : UInt16} (h : w.toNat < 4096) :
    addWord a.toWord w = some (a.toWord + w) := by
  have ha := a.isLt
  apply addWord_eq
  rw [Address.toNat_toWord]
  omega

theorem toNat_mask (w : UInt16) : (mask w).toNat = w.toNat % 4096 := by
  simp only [mask, UInt16.toNat_and]
  exact Nat.and_two_pow_sub_one_eq_mod w.toNat 12

theorem mask_eq_toWord {w : UInt16} {a : Address} (h : w.toNat % 4096 = a.val) :
    mask w = a.toWord := by
  apply UInt16.toNat_inj.1
  rw [toNat_mask, Address.toNat_toWord, h]

theorem mask_eq (w : UInt16) : mask w = (Address.ofWord w).toWord := mask_eq_toWord rfl

theorem mask_toWord (a : Address) : mask a.toWord = a.toWord := by
  rw [mask_eq, Address.ofWord_toWord]

theorem mask_add (v w : UInt16) :
    mask (v + w) = ((Address.ofWord v).advance w.toNat).toWord := by
  apply mask_eq_toWord
  rw [UInt16.toNat_add, Address.val_advance]
  simp only [Address.ofWord, Address.ofNat]
  omega

theorem mask_toWord_add (a : Address) (w : UInt16) :
    mask (a.toWord + w) = (a.advance w.toNat).toWord := by
  rw [mask_add, Address.ofWord_toWord]

theorem place_eq (w : UInt16) {k : Nat} (h : k < 16) :
    place w k = some ((Address.ofWord w).advance k).val := by
  have hw := w.toNat_lt
  unfold place
  rw [addIndex_eq (by omega)]
  simp [Address.val_advance, Address.ofWord, Address.ofNat]

theorem getElem?_memory (m : Memory) (a : Address) : m[a.val]? = some (m.read a) := by
  simp [Memory.read]

theorem put_memory (m : Memory) (a : Address) (b : UInt8) :
    put m a.val b = some (m.put a b) := put_eq a.isLt b

end Storage

namespace Machine

def storage (m : Machine) : Storage where
  pc := m.pc
  index := m.index
  registers := m.registers
  memory := m.memory
  slots := m.stack.slots
  depth := m.stack.depth
  delay := m.delay
  sound := m.sound
  cells := m.raster.cells
  keypad := m.keypad
  awaiting := m.awaiting.map Fin.val
  dialect := m.dialect
  stream := m.stream

end Machine

end Chip8
