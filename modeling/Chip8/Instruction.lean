import Chip8.Word

/-!
# Instructions

The instructions, with operands in exactly the range that a word has room for. `toWord` writes an
instruction as a word and `ofWord?` reads it back; a word that is no instruction gives `none`.
-/

namespace Chip8

inductive Combination where
  | copy
  | or
  | and
  | xor
  | add
  | sub
  | shiftRight
  | subFrom
  | shiftLeft
deriving DecidableEq, Repr

inductive Condition where
  | holds (x : Nibble) (nn : UInt8)
  | holdsNot (x : Nibble) (nn : UInt8)
  | equal (x y : Nibble)
  | differ (x y : Nibble)
  | keyDown (x : Nibble)
  | keyUp (x : Nibble)
deriving DecidableEq, Repr

inductive Instruction where
  | clearScreen
  | returnToCaller
  | jump (nnn : Address)
  | call (nnn : Address)
  | skipIf (condition : Condition)
  | setByte (x : Nibble) (nn : UInt8)
  | addByte (x : Nibble) (nn : UInt8)
  | combine (how : Combination) (x y : Nibble)
  | setIndex (nnn : Address)
  | jumpByV0 (nnn : Address)
  | randomByte (x : Nibble) (mask : UInt8)
  | draw (x y rows : Nibble)
  | readDelay (x : Nibble)
  | awaitKey (x : Nibble)
  | setDelay (x : Nibble)
  | setSound (x : Nibble)
  | addToIndex (x : Nibble)
  | pointAtGlyph (x : Nibble)
  | storeDecimal (x : Nibble)
  | saveRegisters (x : Nibble)
  | restoreRegisters (x : Nibble)
deriving DecidableEq, Repr

namespace Combination

def result (a b : UInt8) : Combination → UInt8
  | copy => b
  | or => a ||| b
  | and => a &&& b
  | xor => a ^^^ b
  | add => a + b
  | sub => a - b
  | shiftRight => a >>> 1
  | subFrom => b - a
  | shiftLeft => a <<< 1

/-- The flag that goes to VF: a carry, a difference that is positive, or the bit shifted out.
Copies and bitwise combinations leave VF alone. -/
def flag? (a b : UInt8) : Combination → Option Bool
  | copy => none
  | or => none
  | and => none
  | xor => none
  | add => some (255 < a.toNat + b.toNat)
  | sub => some (b < a)
  | shiftRight => some (a.toNat % 2 = 1)
  | subFrom => some (a < b)
  | shiftLeft => some (128 ≤ a.toNat)

end Combination

/-! ## Words of instructions -/

namespace Combination

def code : Combination → Nibble
  | copy => 0x0
  | or => 0x1
  | and => 0x2
  | xor => 0x3
  | add => 0x4
  | sub => 0x5
  | shiftRight => 0x6
  | subFrom => 0x7
  | shiftLeft => 0xE

def ofCode? (n : Nibble) : Option Combination :=
  match n.val with
  | 0x0 => some copy
  | 0x1 => some or
  | 0x2 => some and
  | 0x3 => some xor
  | 0x4 => some add
  | 0x5 => some sub
  | 0x6 => some shiftRight
  | 0x7 => some subFrom
  | 0xE => some shiftLeft
  | _ => none

theorem ofCode?_code (how : Combination) : ofCode? how.code = some how := by
  cases how <;> rfl

end Combination

def Condition.toWord : Condition → Word
  | holds x nn => .ofByte 0x3 x nn
  | holdsNot x nn => .ofByte 0x4 x nn
  | equal x y => .ofNibbles 0x5 x y 0x0
  | differ x y => .ofNibbles 0x9 x y 0x0
  | keyDown x => .ofByte 0xE x 0x9E
  | keyUp x => .ofByte 0xE x 0xA1

namespace Instruction

def toWord : Instruction → Word
  | clearScreen => 0x00E0
  | returnToCaller => 0x00EE
  | jump nnn => .ofAddress 0x1 nnn
  | call nnn => .ofAddress 0x2 nnn
  | skipIf condition => condition.toWord
  | setByte x nn => .ofByte 0x6 x nn
  | addByte x nn => .ofByte 0x7 x nn
  | combine how x y => .ofNibbles 0x8 x y how.code
  | setIndex nnn => .ofAddress 0xA nnn
  | jumpByV0 nnn => .ofAddress 0xB nnn
  | randomByte x mask => .ofByte 0xC x mask
  | draw x y rows => .ofNibbles 0xD x y rows
  | readDelay x => .ofByte 0xF x 0x07
  | awaitKey x => .ofByte 0xF x 0x0A
  | setDelay x => .ofByte 0xF x 0x15
  | setSound x => .ofByte 0xF x 0x18
  | addToIndex x => .ofByte 0xF x 0x1E
  | pointAtGlyph x => .ofByte 0xF x 0x29
  | storeDecimal x => .ofByte 0xF x 0x33
  | saveRegisters x => .ofByte 0xF x 0x55
  | restoreRegisters x => .ofByte 0xF x 0x65

def ofRegisterByte? (x : Nibble) (nn : UInt8) : Option Instruction :=
  match nn.toNat with
  | 0x07 => some (readDelay x)
  | 0x0A => some (awaitKey x)
  | 0x15 => some (setDelay x)
  | 0x18 => some (setSound x)
  | 0x1E => some (addToIndex x)
  | 0x29 => some (pointAtGlyph x)
  | 0x33 => some (storeDecimal x)
  | 0x55 => some (saveRegisters x)
  | 0x65 => some (restoreRegisters x)
  | _ => none

def ofWord? (w : Word) : Option Instruction :=
  match w.family.val with
  | 0x0 =>
    if w = 0x00E0 then some clearScreen
    else if w = 0x00EE then some returnToCaller
    else none
  | 0x1 => some (jump w.nnn)
  | 0x2 => some (call w.nnn)
  | 0x3 => some (skipIf (.holds w.x w.nn))
  | 0x4 => some (skipIf (.holdsNot w.x w.nn))
  | 0x5 => if w.n = 0x0 then some (skipIf (.equal w.x w.y)) else none
  | 0x6 => some (setByte w.x w.nn)
  | 0x7 => some (addByte w.x w.nn)
  | 0x8 => (Combination.ofCode? w.n).map fun how => combine how w.x w.y
  | 0x9 => if w.n = 0x0 then some (skipIf (.differ w.x w.y)) else none
  | 0xA => some (setIndex w.nnn)
  | 0xB => some (jumpByV0 w.nnn)
  | 0xC => some (randomByte w.x w.nn)
  | 0xD => some (draw w.x w.y w.n)
  | 0xE =>
    if w.nn = 0x9E then some (skipIf (.keyDown w.x))
    else if w.nn = 0xA1 then some (skipIf (.keyUp w.x))
    else none
  | 0xF => ofRegisterByte? w.x w.nn
  | _ => none

end Instruction

end Chip8
