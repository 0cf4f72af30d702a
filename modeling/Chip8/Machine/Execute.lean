import Chip8.Frame
import Chip8.Instruction
import Chip8.Keypad
import Chip8.Machine.Basic

/-!
# Performing instructions

`perform` is the work of one instruction on the machine. It leaves the program counter alone and
says instead how control goes on.
-/

namespace Chip8

inductive Flow where
  | next
  | skip
  | jump (address : UInt16)
  | wait
deriving DecidableEq, Repr

def Flow.after (pc : UInt16) : Flow → UInt16
  | next => pc + 2
  | skip => pc + 4
  | jump address => address
  | wait => pc

namespace Registers

/-- VF takes the flag first, so in register F the result wins. -/
def combine (v : Registers) (how : Combination) (x y : Nibble) : Registers :=
  let flagged :=
    match how.flag? (v.get x) (v.get y) with
    | none => v
    | some flag => v.set 0xF flag.toUInt8
  flagged.set x (how.result (v.get x) (v.get y))

def upTo (v : Registers) (x : Nibble) : List UInt8 := v.toList.take (x + 1)

def restore {count : Nat} (v : Registers) (bytes : Vector UInt8 count) : Registers :=
  Vector.ofFn fun r => bytes[r.val]?.getD (v.get r)

end Registers

def decimalDigits (value : UInt8) : List UInt8 :=
  [value / 100, value / 10 % 10, value % 10]

def Condition.test (keypad : Keypad) (v : Registers) : Condition → Bool
  | holds x nn => v.get x = nn
  | holdsNot x nn => v.get x ≠ nn
  | equal x y => v.get x = v.get y
  | differ x y => v.get x ≠ v.get y
  | keyDown x => keypad (v.get x)
  | keyUp x => !keypad (v.get x)

namespace Machine

def drawSprite (m : Machine) (x y : Nibble) (rows : List UInt8) : Machine :=
  let drawn := Sprite.draw m.frame (m.v.get x) (m.v.get y) rows
  { m with v := m.v.set 0xF drawn.1.toUInt8, frame := drawn.2, redraw := true }

def takeRandom (m : Machine) (x : Nibble) (mask : UInt8) : Machine :=
  let taken := m.random.next
  { m with v := m.v.set x (taken.1.toUInt8 &&& mask), random := taken.2 }

end Machine

open Chip8.Action in
def Instruction.perform (keypad : Keypad) : Instruction → Action Flow
  | clearScreen => do
    modify ({ · with frame := .dark, redraw := true })
    return .next
  | returnToCaller => return .jump (← popCall)
  | jump nnn => return .jump nnn.toUInt16
  | call nnn => do
    pushCall ((← get).pc + 2)
    return .jump nnn.toUInt16
  | skipIf condition => return if condition.test keypad (← get).v then .skip else .next
  | setByte x nn => do
    setRegister x nn
    return .next
  | addByte x nn => do
    setRegister x ((← get).v.get x + nn)
    return .next
  | combine how x y => do
    modify fun m => { m with v := m.v.combine how x y }
    return .next
  | setIndex nnn => do
    modify ({ · with i := nnn.toUInt16 })
    return .next
  | jumpByV0 nnn => return .jump (((← get).v.get 0).toUInt16 + nnn.toUInt16)
  | randomByte x mask => do
    modify (·.takeRandom x mask)
    return .next
  | draw x y rows => do
    let bytes ← readMemory rows
    modify (·.drawSprite x y bytes.toList)
    return .next
  | readDelay x => do
    setRegister x (← get).delay
    return .next
  | awaitKey x =>
    match keypad.firstDown? with
    | none => return .wait
    | some key => do
      setRegister x (UInt8.ofNat key)
      return .next
  | setDelay x => do
    modify fun m => m.setDelay (m.v.get x)
    return .next
  | setSound x => do
    modify fun m => m.setSound (m.v.get x)
    return .next
  | addToIndex x => do
    modify fun m => { m with i := m.i + (m.v.get x).toUInt16 }
    return .next
  | pointAtGlyph x => do
    modify fun m => { m with i := Font.glyphAddress (m.v.get x) }
    return .next
  | storeDecimal x => do
    writeMemory (decimalDigits ((← get).v.get x))
    return .next
  | saveRegisters x => do
    writeMemory ((← get).v.upTo x)
    return .next
  | restoreRegisters x => do
    let bytes ← readMemory (x + 1)
    modify fun m => { m with v := m.v.restore bytes }
    return .next

def Word.perform (keypad : Keypad) (w : Word) : Action Flow :=
  match Instruction.ofWord? w with
  | none => return .next
  | some instruction => instruction.perform keypad

/-- How control goes on after a word, or its fault, with the machine that it leaves either way. -/
def Machine.executeWord (keypad : Keypad) (m : Machine) (w : Word) : Except Fault Flow × Machine :=
  answer ((w.perform keypad).run m)

end Chip8
