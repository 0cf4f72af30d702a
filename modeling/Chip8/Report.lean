import Chip8.Numeral
import Chip8.Word

/-!
# Faults and log entries

What stops the machine, what keeps a program from being loaded, and what is logged, each as data. A
fault has one text; a log entry has one level and one text.
-/

namespace Chip8

/-! ## Faults -/

inductive Fault where
  | stackUnderflow
  | stackOverflow (depth : Nat)
  /-- `address` is the first address outside memory that the access would touch. -/
  | outOfBounds (address : Nat)
  | programTooLarge (size : Nat) (origin : UInt16) (capacity : Nat)
deriving DecidableEq, Repr

def Fault.message : Fault → String
  | stackUnderflow => "stack underflow: returned from a subroutine with an empty call stack"
  | stackOverflow depth => "stack overflow: call depth exceeded " ++ Numeral.decimal depth
  | outOfBounds address => "memory access out of bounds at address " ++ Numeral.address address
  | programTooLarge size origin capacity =>
    "program of " ++ Numeral.decimal size ++ " bytes loaded at " ++ Numeral.address origin.toNat
      ++ " does not fit in " ++ Numeral.decimal capacity ++ " bytes of memory"

inductive LoadFault where
  | unreadable (cause : String)
  | rejected (fault : Fault)
deriving DecidableEq, Repr

def LoadFault.message : LoadFault → String
  | unreadable _ => "unable to read ROM"
  | rejected fault => fault.message

def LoadFault.cause? : LoadFault → Option String
  | unreadable cause => some cause
  | rejected _ => none

/-! ## Log entries -/

inductive LogLevel where
  | info
  | debug
  | warn
  | trace
deriving DecidableEq, Repr

inductive LogEntry where
  | seeding (seed : UInt64)
  | loaded (size : Nat) (origin : UInt16)
  | ready (rom : String)
  /-- No word lies at `pc`, so the program counter went to `start`. -/
  | ranPastEnd (pc start : UInt16)
  | executing (word : Word) (v : Vector UInt8 16) (i pc : UInt16)
deriving DecidableEq, Repr

namespace LogEntry

def level : LogEntry → LogLevel
  | seeding .. => .info
  | loaded .. => .debug
  | ready .. => .info
  | ranPastEnd .. => .warn
  | executing .. => .trace

def registersText (v : Vector UInt8 16) : String :=
  "[" ++ ", ".intercalate (v.toList.map fun byte => Numeral.hex 2 byte.toNat) ++ "]"

def text : LogEntry → String
  | seeding seed => "seeding interpreter with " ++ Numeral.seed seed.toNat
  | loaded size origin =>
    "loaded " ++ Numeral.decimal size ++ " byte program at " ++ Numeral.address origin.toNat
  | ready rom => "successfully loaded " ++ rom
  | ranPastEnd pc start =>
    "pc " ++ Numeral.address pc.toNat ++ " ran past the end of memory, resetting to "
      ++ Numeral.address start.toNat
  | executing word v i pc =>
    Numeral.hex 4 word.toNat ++ " v" ++ registersText v
      ++ " i" ++ Numeral.hex 4 i.toNat ++ " pc" ++ Numeral.hex 4 pc.toNat

end LogEntry

end Chip8
