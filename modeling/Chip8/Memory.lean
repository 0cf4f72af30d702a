import Chip8.Report

/-!
# Memory

4096 bytes. An access to a range that does not end inside memory is a fault that names the first
address outside, and changes nothing. A new machine holds the font at the very start.
-/

namespace Chip8

abbrev Memory.size : Nat := 4096

abbrev Memory := Vector UInt8 Memory.size

namespace Memory

def outside (start : Nat) : Fault :=
  .outOfBounds (max start size)

def read (mem : Memory) (start : UInt16) (length : Nat) : Except Fault (Vector UInt8 length) :=
  if h : start.toNat + length ≤ size then
    .ok (Vector.ofFn fun k => mem[start.toNat + k.val])
  else .error (outside start.toNat)

def overlay (mem : Memory) (start : Nat) : List UInt8 → Memory
  | [] => mem
  | byte :: rest => overlay (mem.setIfInBounds start byte) (start + 1) rest

def write (mem : Memory) (start : UInt16) (bytes : List UInt8) : Except Fault Memory :=
  if start.toNat + bytes.length ≤ size then .ok (mem.overlay start.toNat bytes)
  else .error (outside start.toNat)

def word (mem : Memory) (address : Nat) (h : address + 1 < size) : Word :=
  .ofBytes mem[address] mem[address + 1]

theorem getElem?_read {mem : Memory} {start : UInt16} {length : Nat} {bytes : Vector UInt8 length}
    (h : mem.read start length = .ok bytes) {k : Nat} (hk : k < length) :
    bytes[k]? = mem[start.toNat + k]? := by
  unfold read at h
  split at h
  · cases h
    simp [hk]
  · cases h

theorem getElem_overlay (mem : Memory) (start : Nat) (bytes : List UInt8) (a : Nat)
    (ha : a < size) :
    (mem.overlay start bytes)[a] =
      if start ≤ a then bytes[a - start]?.getD mem[a] else mem[a] := by
  induction bytes generalizing mem start with
  | nil => simp [overlay]
  | cons byte rest ih =>
    rw [overlay, ih, Vector.getElem_setIfInBounds]
    by_cases hlt : start < a
    · obtain ⟨k, rfl⟩ := Nat.exists_eq_add_of_lt hlt
      have hk : start + k + 1 - (start + 1) = k := by omega
      have hk' : start + k + 1 - start = k + 1 := by omega
      have hne : start ≠ start + k + 1 := by omega
      simp only [hk, hk', hne, if_false, List.getElem?_cons_succ]
      rw [if_pos (by omega), if_pos (by omega)]
    · by_cases heq : start = a
      · subst heq
        rw [if_neg (by omega), if_pos rfl, if_pos (Nat.le_refl _)]
        simp
      · rw [if_neg (by omega), if_neg heq, if_neg (by omega)]

theorem getElem?_overlay_of_lt {mem : Memory} {start : Nat} {bytes : List UInt8}
    (hfits : start + bytes.length ≤ size) {k : Nat} (hk : k < bytes.length) :
    (mem.overlay start bytes)[start + k]? = bytes[k]? := by
  have ha : start + k < size := by omega
  rw [Vector.getElem?_eq_getElem ha, getElem_overlay, if_pos (Nat.le_add_right _ _),
    Nat.add_sub_cancel_left, List.getElem?_eq_getElem hk, Option.getD_some]

end Memory

/-! ## The font -/

namespace Font

abbrev start : UInt16 := 0x000

abbrev glyphSize : UInt16 := 5

def glyphs : List UInt8 := [
  0xF0, 0x90, 0x90, 0x90, 0xF0,
  0x20, 0x60, 0x20, 0x20, 0x70,
  0xF0, 0x10, 0xF0, 0x80, 0xF0,
  0xF0, 0x10, 0xF0, 0x10, 0xF0,
  0x90, 0x90, 0xF0, 0x10, 0x10,
  0xF0, 0x80, 0xF0, 0x10, 0xF0,
  0xF0, 0x80, 0xF0, 0x90, 0xF0,
  0xF0, 0x10, 0x20, 0x40, 0x40,
  0xF0, 0x90, 0xF0, 0x90, 0xF0,
  0xF0, 0x90, 0xF0, 0x10, 0xF0,
  0xF0, 0x90, 0xF0, 0x90, 0x90,
  0xE0, 0x90, 0xE0, 0x90, 0xE0,
  0xF0, 0x80, 0x80, 0x80, 0xF0,
  0xE0, 0x90, 0x90, 0x90, 0xE0,
  0xF0, 0x80, 0xF0, 0x80, 0xF0,
  0xF0, 0x80, 0xF0, 0x80, 0x80]

/-- The address of the glyph of `digit`. A value above 15 has no glyph; its address is counted on
in the same way. -/
def glyphAddress (digit : UInt8) : UInt16 :=
  start + digit.toUInt16 * glyphSize

theorem toNat_glyphAddress (digit : UInt8) : (glyphAddress digit).toNat = 5 * digit.toNat := by
  have := digit.toNat_lt
  rw [glyphAddress, UInt16.toNat_add, UInt16.toNat_mul, UInt8.toNat_toUInt16]
  show (0 + digit.toNat * 5 % 2 ^ 16) % 2 ^ 16 = _
  omega

end Font

end Chip8
