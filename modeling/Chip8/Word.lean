/-!
# Instruction words

A word is a family digit followed by three operand digits, of which the last two also make a byte and
all three an address. A word built from such parts denotes their number in base 16.
-/

namespace Chip8

/-- A hexadecimal digit: the number of a register or a key, or a count of sprite rows. -/
abbrev Nibble := Fin 16

/-- Numerals denote digits through this instance, whichever library is at hand. -/
instance Nibble.neZero : @NeZero Nat Zero.ofOfNat0 16 := ⟨Nat.succ_ne_zero 15⟩

abbrev Address := Fin 4096

def Address.toUInt16 (address : Address) : UInt16 := UInt16.ofNat address

theorem Address.toNat_toUInt16 (address : Address) : address.toUInt16.toNat = address := by
  rw [toUInt16, UInt16.toNat_ofNat']
  omega

theorem Address.toNat_byte_add (byte : UInt8) (address : Address) :
    (byte.toUInt16 + address.toUInt16).toNat = byte.toNat + address := by
  have := byte.toNat_lt
  rw [UInt16.toNat_add, UInt8.toNat_toUInt16, toNat_toUInt16]
  omega

abbrev Word := UInt16

namespace Word

/-! ## Views -/

def family (w : Word) : Nibble := ⟨w.toNat / 0x1000, by have := w.toNat_lt; omega⟩

def x (w : Word) : Nibble := ⟨w.toNat / 0x100 % 16, by omega⟩

def y (w : Word) : Nibble := ⟨w.toNat / 0x10 % 16, by omega⟩

def n (w : Word) : Nibble := ⟨w.toNat % 16, by omega⟩

def nn (w : Word) : UInt8 := UInt8.ofNat w.toNat

def nnn (w : Word) : Address := ⟨w.toNat % 0x1000, by omega⟩

/-! ## Building words -/

def ofNibbles (family x y n : Nibble) : Word :=
  UInt16.ofNat (0x1000 * family + 0x100 * x + 0x10 * y + n)

def ofByte (family x : Nibble) (nn : UInt8) : Word :=
  UInt16.ofNat (0x1000 * family + 0x100 * x + nn.toNat)

def ofAddress (family : Nibble) (nnn : Address) : Word :=
  UInt16.ofNat (0x1000 * family + nnn)

def ofBytes (high low : UInt8) : Word :=
  UInt16.ofNat (0x100 * high.toNat + low.toNat)

/-! ## Views of built words -/

theorem toNat_ofNibbles (family x y n : Nibble) :
    (ofNibbles family x y n).toNat = 0x1000 * family + 0x100 * x + 0x10 * y + n := by
  rw [ofNibbles, UInt16.toNat_ofNat']
  omega

theorem toNat_ofByte (family x : Nibble) (nn : UInt8) :
    (ofByte family x nn).toNat = 0x1000 * family + 0x100 * x + nn.toNat := by
  have := nn.toNat_lt
  rw [ofByte, UInt16.toNat_ofNat']
  omega

theorem toNat_ofAddress (family : Nibble) (nnn : Address) :
    (ofAddress family nnn).toNat = 0x1000 * family + nnn := by
  rw [ofAddress, UInt16.toNat_ofNat']
  omega

theorem toNat_ofBytes (high low : UInt8) :
    (ofBytes high low).toNat = 0x100 * high.toNat + low.toNat := by
  have := high.toNat_lt
  have := low.toNat_lt
  rw [ofBytes, UInt16.toNat_ofNat']
  omega

end Word

end Chip8
