import Chip8.Hex
import Chip8.Instruction

/-!
# The forms of instruction words

An instruction word is known by its form, four signs such as `8XY4`: a digit of base sixteen stands
for itself, and any other letter stands for some digit. There are thirty-four forms. A word is an
instruction exactly if it fits one of them, and an instruction is read from no word but its own.
-/
namespace Chip8

namespace Word

def digits (w : UInt16) : List Nat :=
  [w.toNat / 4096, w.toNat / 256 % 16, w.toNat / 16 % 16, w.toNat % 16]

def fits (w : UInt16) (form : String) : Bool :=
  (form.toList.zip (digits w)).all fun p => (Hex.digit? p.1).all (· == p.2)

def fitsAny (w : UInt16) (forms : List String) : Bool := forms.any (fits w)

theorem toNat_low (w : UInt16) : (low w).toNat = 16 * (w.toNat / 16 % 16) + w.toNat % 16 := by
  simp only [low, UInt8.toNat_ofNat']
  omega

end Word

namespace Arithmetic

theorem digit_of_ofDigit? {n : Nat} {op : Arithmetic} (h : ofDigit? n = some op) :
    op.digit = n := by
  unfold ofDigit? at h
  split at h <;> cases h <;> rfl

end Arithmetic

namespace Instruction

def forms : List String :=
  ["00E0", "00EE", "1NNN", "2NNN", "3XNN", "4XNN", "5XY0", "6XNN", "7XNN", "8XY0", "8XY1", "8XY2",
    "8XY3", "8XY4", "8XY5", "8XY6", "8XY7", "8XYE", "9XY0", "ANNN", "BNNN", "CXNN", "DXYN", "EX9E",
    "EXA1", "FX07", "FX0A", "FX15", "FX18", "FX1E", "FX29", "FX33", "FX55", "FX65"]

def form : Instruction → String
  | .clear => "00E0"
  | .ret => "00EE"
  | .jump _ => "1NNN"
  | .call _ => "2NNN"
  | .skipIf (.eqByte ..) => "3XNN"
  | .skipIf (.neByte ..) => "4XNN"
  | .skipIf (.eqRegister ..) => "5XY0"
  | .setByte .. => "6XNN"
  | .addByte .. => "7XNN"
  | .compute .copy .. => "8XY0"
  | .compute .or .. => "8XY1"
  | .compute .and .. => "8XY2"
  | .compute .xor .. => "8XY3"
  | .compute .add .. => "8XY4"
  | .compute .subtract .. => "8XY5"
  | .compute .shiftRight .. => "8XY6"
  | .compute .subtractFrom .. => "8XY7"
  | .compute .shiftLeft .. => "8XYE"
  | .skipIf (.neRegister ..) => "9XY0"
  | .setIndex _ => "ANNN"
  | .jumpFrom _ => "BNNN"
  | .random .. => "CXNN"
  | .draw .. => "DXYN"
  | .skipIf (.keyDown _) => "EX9E"
  | .skipIf (.keyUp _) => "EXA1"
  | .readDelay _ => "FX07"
  | .awaitKey _ => "FX0A"
  | .setDelay _ => "FX15"
  | .setSound _ => "FX18"
  | .addIndex _ => "FX1E"
  | .glyph _ => "FX29"
  | .decimal _ => "FX33"
  | .save _ => "FX55"
  | .restore _ => "FX65"

theorem form_mem_forms (i : Instruction) : i.form ∈ forms := by
  cases i with
  | skipIf t => cases t <;> simp [form, forms]
  | compute op x y => cases op <;> simp [form, forms]
  | _ => simp [form, forms]

theorem digits_wordA {family : Nat} (h : family < 16) (a : Address) :
    Word.digits (wordA family a) = [family, a.val / 256, a.val / 16 % 16, a.val % 16] := by
  have ha := a.isLt
  simp only [Word.digits, toNat_wordA h, List.cons.injEq, and_true]
  omega

theorem digits_wordXB {family : Nat} (h : family < 16) (x : Register) (b : UInt8) :
    Word.digits (wordXB family x b) = [family, x.val, b.toNat / 16, b.toNat % 16] := by
  have hx := x.isLt
  have hb := b.toNat_lt
  simp only [Word.digits, toNat_wordXB h, List.cons.injEq, and_true]
  omega

theorem digits_wordXYN {family n : Nat} (h : family < 16) (x y : Register) (hn : n < 16) :
    Word.digits (wordXYN family x y n) = [family, x.val, y.val, n] := by
  have hx := x.isLt
  have hy := y.isLt
  simp only [Word.digits, toNat_wordXYN h _ _ hn, List.cons.injEq, and_true]
  omega

theorem fits_encode (i : Instruction) : Word.fits i.encode i.form = true := by
  unfold Word.fits
  cases i with
  | clear => rfl
  | ret => rfl
  | jump a | call a | setIndex a | jumpFrom a =>
    rw [encode, digits_wordA (by decide)]
    simp [form, Hex.digit?]
  | skipIf t =>
    cases t with
    | eqRegister x y | neRegister x y =>
      rw [encode, digits_wordXYN (by decide) _ _ (by decide)]
      simp [form, Hex.digit?]
    | _ =>
      rw [encode, digits_wordXB (by decide)]
      simp [form, Hex.digit?]
  | compute op x y =>
    rw [encode, digits_wordXYN (by decide) _ _ op.digit_lt]
    cases op <;> simp [form, Hex.digit?, Arithmetic.digit]
  | draw x y n =>
    rw [encode, digits_wordXYN (by decide) _ _ n.isLt]
    simp [form, Hex.digit?]
  | _ =>
    rw [encode, digits_wordXB (by decide)]
    simp [form, Hex.digit?]

/-- The form of a word fixes the digits that decide how it is read. -/
theorem isSome_decode_of_fits {w : UInt16} {form : String} (hm : form ∈ forms)
    (h : Word.fits w form = true) : (decode w).isSome = true := by
  have hlast : (Word.last w).val = w.toNat % 16 := rfl
  simp only [forms, List.mem_cons, List.not_mem_nil, or_false] at hm
  rcases hm with rfl | rfl | rfl | rfl | rfl | rfl | rfl | rfl | rfl | rfl | rfl | rfl | rfl | rfl |
    rfl | rfl | rfl | rfl | rfl | rfl | rfl | rfl | rfl | rfl | rfl | rfl | rfl | rfl | rfl | rfl |
    rfl | rfl | rfl | rfl
  all_goals simp [Word.fits, Word.digits, Hex.digit?] at h
  -- The first two forms leave no digit open, so they are read as whole words.
  case inl =>
    have hw : w = 0x00E0 := UInt16.toNat_inj.1 (by change w.toNat = 0xE0; omega)
    subst hw
    rfl
  case inr.inl =>
    have hw : w = 0x00EE := UInt16.toNat_inj.1 (by change w.toNat = 0xEE; omega)
    subst hw
    rfl
  all_goals
    simp [decode, Word.family, hlast, Word.toNat_low, ← h, ofKeyCode?, ofMiscCode?,
      Arithmetic.ofDigit?]

theorem encode_of_ofKeyCode? {x : Register} {n : Nat} {i : Instruction}
    (h : ofKeyCode? x n = some i) : i.encode = wordXB 0xE x (UInt8.ofNat n) := by
  unfold ofKeyCode? at h
  split at h <;> cases h <;> rfl

theorem encode_of_ofMiscCode? {x : Register} {n : Nat} {i : Instruction}
    (h : ofMiscCode? x n = some i) : i.encode = wordXB 0xF x (UInt8.ofNat n) := by
  unfold ofMiscCode? at h
  split at h <;> cases h <;> rfl

theorem wordA_target {w : UInt16} {family : Nat} (h : Word.family w = family) :
    wordA family (Word.target w) = w := by
  apply UInt16.toNat_inj.1
  have hw := w.toNat_lt
  simp only [Word.family] at h
  rw [toNat_wordA (by omega)]
  simp only [Word.target, Address.ofNat]
  omega

theorem wordXB_parts {w : UInt16} {family : Nat} (h : Word.family w = family) :
    wordXB family (Word.x w) (Word.low w) = w := by
  apply UInt16.toNat_inj.1
  have hw := w.toNat_lt
  simp only [Word.family] at h
  rw [toNat_wordXB (by omega)]
  simp only [Word.x, Word.low, UInt8.toNat_ofNat']
  omega

theorem wordXYN_parts {w : UInt16} {family : Nat} (h : Word.family w = family) :
    wordXYN family (Word.x w) (Word.y w) (Word.last w).val = w := by
  apply UInt16.toNat_inj.1
  have hw := w.toNat_lt
  simp only [Word.family] at h
  rw [toNat_wordXYN (by omega) _ _ (Word.last w).isLt]
  simp only [Word.x, Word.y, Word.last]
  omega

theorem wordXYN_of_last {w : UInt16} {family n : Nat} (h : Word.family w = family)
    (hn : (Word.last w).val = n) : wordXYN family (Word.x w) (Word.y w) n = w := by
  subst hn
  exact wordXYN_parts h

theorem encode_of_decode {w : UInt16} {i : Instruction} (h : decode w = some i) :
    i.encode = w := by
  have hlow : UInt8.ofNat (Word.low w).toNat = Word.low w := UInt8.ofNat_toNat
  simp only [decode] at h
  split at h
  case h_1 hf =>
    split at h
    case isTrue hw =>
      cases h
      exact hw.symm
    case isFalse =>
      split at h
      case isTrue hw =>
        cases h
        exact hw.symm
      case isFalse => cases h
  case h_2 hf | h_3 hf | h_11 hf | h_12 hf =>
    cases h
    exact wordA_target hf
  case h_4 hf | h_5 hf | h_7 hf | h_8 hf | h_13 hf =>
    cases h
    exact wordXB_parts hf
  case h_6 hf | h_10 hf =>
    split at h
    case isTrue hl =>
      cases h
      exact wordXYN_of_last hf hl
    case isFalse => cases h
  case h_9 hf =>
    obtain ⟨op, hop, rfl⟩ := Option.map_eq_some_iff.1 h
    exact wordXYN_of_last hf (Arithmetic.digit_of_ofDigit? hop).symm
  case h_14 hf =>
    cases h
    exact wordXYN_parts hf
  case h_15 hf =>
    rw [encode_of_ofKeyCode? h, hlow]
    exact wordXB_parts hf
  case h_16 hf =>
    rw [encode_of_ofMiscCode? h, hlow]
    exact wordXB_parts hf
  case h_17 => cases h

theorem decode_eq_some_iff {w : UInt16} {i : Instruction} : decode w = some i ↔ w = i.encode := by
  constructor
  · intro h
    exact (encode_of_decode h).symm
  · rintro rfl
    exact decode_encode i

theorem decode_eq_none_iff {w : UInt16} :
    decode w = none ↔ ∀ form ∈ forms, Word.fits w form = false := by
  constructor
  · intro h form hm
    cases hfit : Word.fits w form with
    | false => rfl
    | true =>
      have hs := isSome_decode_of_fits hm hfit
      rw [h] at hs
      cases hs
  · intro h
    cases hd : decode w with
    | none => rfl
    | some i =>
      have hfit := h i.form (form_mem_forms i)
      rw [← encode_of_decode hd, fits_encode] at hfit
      cases hfit

theorem fits_of_form {w : UInt16} {i : Instruction} {form : String} (h : decode w = some i)
    (hf : i.form = form) : Word.fits w form = true := by
  rw [← encode_of_decode h, ← hf]
  exact fits_encode i

theorem fitsAny_of_form {w : UInt16} {i : Instruction} {forms : List String}
    (h : decode w = some i) (hf : i.form ∈ forms) : Word.fitsAny w forms = true :=
  List.any_eq_true.2 ⟨i.form, hf, fits_of_form h rfl⟩

theorem form_not_mem_of_decode {w : UInt16} {i : Instruction} {forms : List String}
    (h : Word.fitsAny w forms = false) (hd : decode w = some i) : i.form ∉ forms := by
  intro hi
  rw [fitsAny_of_form hd hi] at h
  cases h

def first? : Instruction → Option Register
  | .skipIf (.eqByte x _) | .skipIf (.neByte x _) | .skipIf (.eqRegister x _)
  | .skipIf (.neRegister x _) | .skipIf (.keyDown x) | .skipIf (.keyUp x) => some x
  | .setByte x _ | .addByte x _ | .compute _ x _ | .random x _ | .draw x _ _ => some x
  | .readDelay x | .awaitKey x | .setDelay x | .setSound x | .addIndex x | .glyph x => some x
  | .decimal x | .save x | .restore x => some x
  | .clear | .ret | .jump _ | .call _ | .setIndex _ | .jumpFrom _ => none

def second? : Instruction → Option Register
  | .skipIf (.eqRegister _ y) | .skipIf (.neRegister _ y) => some y
  | .compute _ _ y | .draw _ y _ => some y
  | _ => none

def address? : Instruction → Option Address
  | .jump a | .call a | .setIndex a | .jumpFrom a => some a
  | _ => none

theorem x_of_decode {w : UInt16} {i : Instruction} {x : Register} (h : decode w = some i)
    (hx : i.first? = some x) : Word.x w = x := by
  rw [← encode_of_decode h]
  cases i with
  | skipIf t =>
    cases t <;> cases hx <;> simp [encode, parts_wordXB, parts_wordXYN]
  | compute op x' y =>
    cases hx
    simp [encode, parts_wordXYN, op.digit_lt]
  | clear | ret | jump | call | setIndex | jumpFrom => cases hx
  | _ =>
    cases hx
    simp [encode, parts_wordXB, parts_wordXYN]

theorem y_of_decode {w : UInt16} {i : Instruction} {y : Register} (h : decode w = some i)
    (hy : i.second? = some y) : Word.y w = y := by
  rw [← encode_of_decode h]
  cases i with
  | skipIf t => cases t <;> cases hy <;> simp [encode, parts_wordXYN]
  | compute op x y' =>
    cases hy
    simp [encode, parts_wordXYN, op.digit_lt]
  | draw x y' n =>
    cases hy
    simp [encode, parts_wordXYN]
  | _ => cases hy

theorem target_of_decode {w : UInt16} {i : Instruction} {a : Address} (h : decode w = some i)
    (ha : i.address? = some a) : Word.target w = a := by
  rw [← encode_of_decode h]
  cases i with
  | jump a' | call a' | setIndex a' | jumpFrom a' =>
    cases ha
    exact (parts_wordA (by decide) _).2
  | _ => cases ha

theorem decode_eq_ret_iff {w : UInt16} : decode w = some .ret ↔ w = 0x00EE := decode_eq_some_iff

theorem exists_decode_eq_call_iff {w : UInt16} :
    (∃ a, decode w = some (.call a)) ↔ Word.fits w "2NNN" = true := by
  constructor
  · rintro ⟨a, ha⟩
    rw [← encode_of_decode ha]
    exact fits_encode (.call a)
  · intro h
    have hf : Word.family w = 2 := by
      simp [Word.fits, Word.digits, Hex.digit?] at h
      exact h.symm
    exact ⟨Word.target w, decode_eq_some_iff.2 (wordA_target hf).symm⟩

theorem decode_of_fits_random {w : UInt16} (h : Word.fits w "CXNN" = true) :
    decode w = some (.random (Word.x w) (Word.low w)) := by
  have hf : Word.family w = 12 := by
    simp [Word.fits, Word.digits, Hex.digit?] at h
    exact h.symm
  exact decode_eq_some_iff.2 (wordXB_parts hf).symm

theorem decode_of_fits_awaitKey {w : UInt16} (h : Word.fits w "FX0A" = true) :
    decode w = some (.awaitKey (Word.x w)) := by
  simp [Word.fits, Word.digits, Hex.digit?] at h
  simp [decode, Word.family, Word.toNat_low, ← h, ofMiscCode?]

end Instruction

end Chip8
