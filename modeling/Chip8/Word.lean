/-!
# Addresses, registers and instruction words

An address has twelve bits, so address arithmetic wraps at 4096. Registers that hold an address are
sixteen bits wide and may hold more than an address; only their value modulo 4096 is ever used.

An instruction word `FXYN` is read through its parts: the family `F`, the register numbers `X` and
`Y`, the last digit `N`, the low byte `NN` and the target address `NNN`.
-/
namespace Chip8

abbrev Address := Fin 4096

abbrev Register := Fin 16

namespace Address

def ofNat (n : Nat) : Address := ⟨n % 4096, Nat.mod_lt _ (by decide)⟩

/-- The address a sixteen-bit register stands for. -/
def ofWord (w : UInt16) : Address := ofNat w.toNat

def toWord (a : Address) : UInt16 := UInt16.ofNat a.val

/-- The address `k` bytes further on, from the end of memory back to its start. -/
def advance (a : Address) (k : Nat) : Address := ofNat (a.val + k)

theorem val_advance (a : Address) (k : Nat) : (a.advance k).val = (a.val + k) % 4096 := rfl

@[simp] theorem advance_zero (a : Address) : a.advance 0 = a := by
  apply Fin.ext
  simp [val_advance, Nat.mod_eq_of_lt a.isLt]

theorem advance_advance (a : Address) (j k : Nat) :
    (a.advance j).advance k = a.advance (j + k) := by
  apply Fin.ext
  simp only [val_advance]
  omega

theorem toNat_toWord (a : Address) : a.toWord.toNat = a.val := by
  have := a.isLt
  simp only [toWord, UInt16.toNat_ofNat']
  omega

@[simp] theorem ofWord_toWord (a : Address) : ofWord a.toWord = a := by
  apply Fin.ext
  simp [ofWord, ofNat, toNat_toWord, Nat.mod_eq_of_lt a.isLt]

end Address

namespace Word

def ofBytes (high low : UInt8) : UInt16 := UInt16.ofNat (256 * high.toNat + low.toNat)

def high (w : UInt16) : UInt8 := UInt8.ofNat (w.toNat / 256)

def low (w : UInt16) : UInt8 := UInt8.ofNat (w.toNat % 256)

def family (w : UInt16) : Nat := w.toNat / 4096

def x (w : UInt16) : Register := ⟨w.toNat / 256 % 16, Nat.mod_lt _ (by decide)⟩

def y (w : UInt16) : Register := ⟨w.toNat / 16 % 16, Nat.mod_lt _ (by decide)⟩

def last (w : UInt16) : Fin 16 := ⟨w.toNat % 16, Nat.mod_lt _ (by decide)⟩

def target (w : UInt16) : Address := .ofNat w.toNat

theorem toNat_ofBytes (h l : UInt8) : (ofBytes h l).toNat = 256 * h.toNat + l.toNat := by
  have := h.toNat_lt
  have := l.toNat_lt
  simp only [ofBytes, UInt16.toNat_ofNat']
  omega

end Word

end Chip8
