import Chip8.CallStack
import Chip8.CommandLine.Parse
import Chip8.CommandLine.Text
import Chip8.Frame
import Chip8.Guarded.Basic
import Chip8.Guarded.Step
import Chip8.Instruction
import Chip8.Keypad
import Chip8.Launch
import Chip8.Machine.Basic
import Chip8.Machine.Execute
import Chip8.Machine.Step
import Chip8.Main
import Chip8.Memory
import Chip8.Numeral
import Chip8.Random
import Chip8.Report
import Chip8.Word
import Chip8.Proofs.History
import Chip8.Proofs.Decoding
import Chip8.Proofs.Failure
import Chip8.Proofs.Footprint
import Chip8.Proofs.CallReturn
import Chip8.Proofs.Drawing
import Chip8.Proofs.Frames
import Chip8.Proofs.Bounds
import Chip8.Proofs.NoCrash
import Chip8.Proofs.StraightLine
import Chip8.Proofs.Independence
import Chip8.Proofs.RandomBytes
import Chip8.Proofs.Storage
import Chip8.Proofs.Arithmetic
import Chip8.Proofs.SavedRegisters
import Chip8.Proofs.Forms
import Chip8.Proofs.Control
import Chip8.Proofs.Timers
import Chip8.Proofs.KeyWait
import Chip8.Proofs.DecimalDisplay
import Chip8.Proofs.Ticks
import Chip8.Proofs.Numerals
import Chip8.Proofs.StepLog
import Chip8.Proofs.KeyEvents
import Chip8.Proofs.FaultTexts
import Chip8.Proofs.BoundedStack
import Chip8.Proofs.Amounts
import Chip8.Proofs.Settling
import Chip8.Proofs.CommandLines
