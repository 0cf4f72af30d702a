import Chip8.Word

/-!
# The keypad

Sixteen keys, 0 to F. A machine only ever asks whether a key is down; a byte above 15 names no key.
`Keys` is what a host keeps from its events, and `Keyboard` where the keys lie on a keyboard.
-/

namespace Chip8

/-- Whether the key that a byte names is down. -/
abbrev Keypad := UInt8 → Bool

namespace Keypad

abbrev size : Nat := 16

def ofSwitches (closed : Vector Bool size) : Keypad := fun key =>
  closed[key.toNat]?.getD false

def firstDown? (keypad : Keypad) : Option Nibble :=
  (List.finRange size).find? fun key => keypad (UInt8.ofNat key)

theorem firstDown?_eq_none_iff {keypad : Keypad} :
    keypad.firstDown? = none ↔ ∀ key : Nibble, keypad (UInt8.ofNat key) = false := by
  simp [firstDown?, List.find?_eq_none]

theorem firstDown?_eq_some_iff {keypad : Keypad} {key : Nibble} :
    keypad.firstDown? = some key ↔ keypad (UInt8.ofNat key) = true ∧
      ∀ lower < key, keypad (UInt8.ofNat lower) = false := by
  rw [firstDown?, List.find?_eq_some_iff_getElem]
  refine and_congr_right fun _ => ⟨fun h lower hlt => ?_, fun h => ?_⟩
  · obtain ⟨i, hi, hkey, hbefore⟩ := h
    obtain rfl : i = key.val := by simpa using congrArg Fin.val hkey
    simpa using hbefore lower hlt
  · refine ⟨key, by simp, by simp, fun j hj => ?_⟩
    simpa using h ⟨j, Nat.lt_trans hj key.isLt⟩ hj

end Keypad

structure Keys where
  closed : Vector Bool Keypad.size
deriving DecidableEq

namespace Keys

def none : Keys := ⟨Vector.replicate Keypad.size false⟩

/-- A byte that names no key is ignored. -/
def press (keys : Keys) (key : UInt8) : Keys :=
  ⟨keys.closed.setIfInBounds key.toNat true⟩

def release (keys : Keys) (key : UInt8) : Keys :=
  ⟨keys.closed.setIfInBounds key.toNat false⟩

def keypad (keys : Keys) : Keypad := Keypad.ofSwitches keys.closed

def isDown (keys : Keys) (key : UInt8) : Bool := keys.keypad key

def firstDown? (keys : Keys) : Option Nibble := keys.keypad.firstDown?

theorem isDown_none (key : UInt8) : none.isDown key = false := by
  simp only [isDown, keypad, none, Keypad.ofSwitches, Vector.getElem?_replicate]
  split <;> rfl

theorem isDown_press (keys : Keys) (pressed key : UInt8) :
    (keys.press pressed).isDown key =
      if pressed = key then decide (key.toNat < Keypad.size) else keys.isDown key := by
  simp only [isDown, keypad, press, Keypad.ofSwitches, Vector.getElem?_setIfInBounds,
    UInt8.toNat_inj]
  split
  · next h =>
    subst h
    split <;> simp_all
  · rfl

theorem isDown_release (keys : Keys) (released key : UInt8) :
    (keys.release released).isDown key =
      if released = key then false else keys.isDown key := by
  simp only [isDown, keypad, release, Keypad.ofSwitches, Vector.getElem?_setIfInBounds,
    UInt8.toNat_inj]
  split
  · split <;> rfl
  · rfl

end Keys

/-! ## The keypad on a keyboard -/

namespace Keyboard

def layout : List (String × Nibble) := [
  ("Num1", 0x1), ("Num2", 0x2), ("Num3", 0x3), ("Num4", 0xC),
  ("Q", 0x4), ("W", 0x5), ("E", 0x6), ("R", 0xD),
  ("A", 0x7), ("S", 0x8), ("D", 0x9), ("F", 0xE),
  ("Z", 0xA), ("X", 0x0), ("C", 0xB), ("V", 0xF)]

def boundTo? (name : String) : Option Nibble :=
  layout.lookup name

end Keyboard

end Chip8
