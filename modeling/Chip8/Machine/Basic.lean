import Chip8.CallStack
import Chip8.Frame
import Chip8.Memory
import Chip8.Random

/-!
# The machine

A new machine is zero everywhere but for the font and the program counter. An action changes the
machine in place and may stop with a fault; what it did before it stopped stays done.
-/

namespace Chip8

abbrev Registers := Vector UInt8 16

def Registers.set (v : Registers) (x : Nibble) (value : UInt8) : Registers :=
  Vector.set v x value

structure Machine where
  v : Registers
  i : UInt16
  pc : UInt16
  stack : CallStack
  delay : UInt8
  sound : UInt8
  memory : Memory
  frame : Frame
  /-- The frame was cleared or drawn on since it was last handed out. -/
  redraw : Bool
  random : Generator
deriving DecidableEq

namespace Machine

abbrev programStart : UInt16 := 0x200

def ofSeed (seed : UInt64) : Machine where
  v := Vector.replicate 16 0
  i := 0
  pc := programStart
  stack := .empty
  delay := 0
  sound := 0
  memory := Memory.overlay (Vector.replicate Memory.size 0) Font.start.toNat Font.glyphs
  frame := .dark
  redraw := false
  random := .ofSeed seed

/-! ## Timers -/

def tick (m : Machine) : Machine :=
  { m with
    delay := if m.delay = 0 then 0 else m.delay - 1
    sound := if m.sound = 0 then 0 else m.sound - 1 }

def setDelay (m : Machine) (value : UInt8) : Machine := { m with delay := value }

def setSound (m : Machine) (value : UInt8) : Machine := { m with sound := value }

/-! ## Frames -/

def takeFrame (m : Machine) : Option Frame × Machine :=
  (if m.redraw then some m.frame else none, { m with redraw := false })

end Machine

/-! ## Work on a machine -/

abbrev Action := EStateM Fault Machine

/-- What work gives, or the error that it stops with, and what it leaves either way. -/
def answer {ε σ α : Type} : EStateM.Result ε σ α → Except ε α × σ
  | .ok a left => (.ok a, left)
  | .error e left => (.error e, left)

section
variable {ε σ α : Type} {r : EStateM.Result ε σ α}

theorem answer_eq_ok_iff {a : α} {left : σ} : answer r = (.ok a, left) ↔ r = .ok a left := by
  cases r <;> simp [answer]

theorem answer_eq_error_iff {e : ε} : (answer r).1 = .error e ↔ ∃ left, r = .error e left := by
  cases r <;> simp [answer]

end

namespace Action

def attempt {α : Type} (result : Machine → Except Fault α) : Action α := do
  MonadExcept.ofExcept (result (← get))

def pushCall (address : UInt16) : Action Unit := do
  let stack ← attempt (·.stack.push address)
  modify ({ · with stack })

def popCall : Action UInt16 := do
  let (address, stack) ← attempt (·.stack.pop)
  modify ({ · with stack })
  return address

def readMemory (length : Nat) : Action (Vector UInt8 length) :=
  attempt fun m => m.memory.read m.i length

def writeMemory (bytes : List UInt8) : Action Unit := do
  let memory ← attempt fun m => m.memory.write m.i bytes
  modify ({ · with memory })

def setRegister (x : Nibble) (value : UInt8) : Action Unit :=
  modify fun m => { m with v := m.v.set x value }

/-! ## What the actions leave behind -/

variable (m : Machine)

@[simp] theorem run_map {α β : Type} (f : α → β) (x : Action α) :
    EStateM.run (f <$> x) m =
      match x.run m with
      | .ok a left => .ok (f a) left
      | .error fault left => .error fault left := by
  simp only [EStateM.run, Functor.map, EStateM.map]
  cases x m <;> rfl

@[simp] theorem run_attempt {α : Type} (result : Machine → Except Fault α) :
    EStateM.run (attempt result) m =
      match result m with
      | .ok a => .ok a m
      | .error fault => .error fault m := by
  cases h : result m <;> simp [attempt, h] <;> rfl

@[simp] theorem run_pushCall (address : UInt16) :
    EStateM.run (pushCall address) m =
      match m.stack.push address with
      | .ok stack => .ok () { m with stack }
      | .error fault => .error fault m := by
  cases h : m.stack.push address <;> simp [pushCall, h]

@[simp] theorem run_popCall :
    EStateM.run popCall m =
      match m.stack.pop with
      | .ok (address, stack) => .ok address { m with stack }
      | .error fault => .error fault m := by
  cases h : m.stack.pop <;> simp [popCall, h]

@[simp] theorem run_readMemory (length : Nat) :
    EStateM.run (readMemory length) m =
      match m.memory.read m.i length with
      | .ok bytes => .ok bytes m
      | .error fault => .error fault m := by
  cases h : m.memory.read m.i length <;> simp [readMemory, h]

@[simp] theorem run_writeMemory (bytes : List UInt8) :
    EStateM.run (writeMemory bytes) m =
      match m.memory.write m.i bytes with
      | .ok memory => .ok () { m with memory }
      | .error fault => .error fault m := by
  cases h : m.memory.write m.i bytes <;> simp [writeMemory, h]

@[simp] theorem run_setRegister (x : Nibble) (value : UInt8) :
    EStateM.run (setRegister x value) m = .ok () { m with v := m.v.set x value } :=
  rfl

end Action

end Chip8
