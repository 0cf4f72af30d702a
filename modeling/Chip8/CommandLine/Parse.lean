import Chip8.Numeral

/-!
# Reading the command line

The words are taken from left to right. What a word gives is pending until a later word, or the end,
settles it: only then is a value read and a fault in it reported. A word that can stand nowhere is
reported at once.
-/

namespace Chip8

/-! ## Pace -/

namespace Pace

abbrev timerRate : Nat := 60

abbrev cycleTime : Nat := 2000000

abbrev cyclesPerFrame : Nat := 1000000000 / cycleTime / timerRate

end Pace

/-! ## Options -/

namespace CommandLine

structure Options where
  rom : String
  scale : UInt32
  cyclesPerFrame : UInt32
  seed? : Option UInt64
deriving DecidableEq, Repr

def defaultScale : Nat := 10

def defaultCyclesPerFrame : Nat := Pace.cyclesPerFrame

inductive Setting where
  | scale
  | cyclesPerFrame
  | seed
deriving DecidableEq, Repr

inductive Switch where
  | help
  | version
deriving DecidableEq, Repr

namespace Setting

def name : Setting → String
  | scale => "scale"
  | cyclesPerFrame => "cycles-per-frame"
  | seed => "seed"

def placeholder : Setting → String
  | scale => "SCALE"
  | cyclesPerFrame => "CYCLES_PER_FRAME"
  | seed => "SEED"

def usage (s : Setting) : String :=
  "--" ++ s.name ++ " <" ++ s.placeholder ++ ">"

def limit : Setting → Nat
  | scale => UInt32.size - 1
  | cyclesPerFrame => UInt32.size - 1
  | seed => UInt64.size - 1

end Setting

def Switch.name : Switch → String
  | help => "help"
  | version => "version"

def romUsage : String := "<ROM>"

/-! ## Refusals -/

inductive ValueFault where
  | misread (fault : Numeral.ReadFault)
  | outOfRange (value : Int) (limit : Nat)
deriving DecidableEq, Repr

inductive Refusal where
  /-- `argument` has no value, or an empty one where that means none. -/
  | valueMissing (argument : String)
  | badValue (setting : Setting) (text : String) (fault : ValueFault)
  | givenTwice (setting : Setting)
  | unexpectedArgument (argument : String)
  | unexpectedValue (switch : Switch) (text : String)
  | romMissing
deriving DecidableEq, Repr

def integerText (n : Int) : String :=
  if n < 0 then "-" ++ Numeral.decimal n.natAbs else Numeral.decimal n.natAbs

def ValueFault.message : ValueFault → String
  | misread fault => fault.message
  | outOfRange value limit =>
    integerText value ++ " is not in 0..=" ++ Numeral.decimal limit

def Refusal.message (quote : String → String) : Refusal → String
  | valueMissing argument =>
    "a value is required for '" ++ argument ++ "' but none was supplied"
  | badValue setting text fault =>
    "invalid value '" ++ quote text ++ "' for '" ++ setting.usage ++ "': " ++ fault.message
  | givenTwice setting =>
    "the argument '" ++ setting.usage ++ "' cannot be used multiple times"
  | unexpectedArgument argument => "unexpected argument '" ++ quote argument ++ "' found"
  | unexpectedValue switch text =>
    "unexpected value '" ++ quote text ++ "' for '--" ++ switch.name
      ++ "' found; no more were expected"
  | romMissing => "the following required arguments were not provided:\n  " ++ romUsage

inductive Stop where
  | help
  | version
  | refused (refusal : Refusal)
deriving DecidableEq, Repr

/-! ## What a word says -/

inductive Token where
  | endOfOptions
  | setting (s : Setting) (attached? : Option String)
  | switch (s : Switch) (attached? : Option String)
  | unknown (spelling : String)
  | plain
deriving DecidableEq, Repr

namespace Token

def splitValue (text : List Char) : List Char × Option String :=
  let name := text.takeWhile (· ≠ '=')
  match text.dropWhile (· ≠ '=') with
  | [] => (name, none)
  | _ :: value => (name, some (String.ofList value))

def attachedTo : List Char → Option String
  | [] => none
  | '=' :: value => some (String.ofList value)
  | value => some (String.ofList value)

def ofLong (text : List Char) : Token :=
  let (name, attached?) := splitValue text
  let name := String.ofList name
  if name = Setting.scale.name then setting .scale attached?
  else if name = Setting.cyclesPerFrame.name then setting .cyclesPerFrame attached?
  else if name = Setting.seed.name then setting .seed attached?
  else if name = Switch.help.name then switch .help attached?
  else if name = Switch.version.name then switch .version attached?
  else unknown ("--" ++ name)

/-- A word with one hyphen in front. Letters after a switch do not matter, because a switch ends
the reading. -/
def ofShort (letter : Char) (rest : List Char) : Token :=
  match letter with
  | 's' => setting .scale (attachedTo rest)
  | 'c' => setting .cyclesPerFrame (attachedTo rest)
  | 'h' => switch .help none
  | 'V' => switch .version none
  | _ => unknown (String.ofList ['-', letter])

def ofWord (word : String) : Token :=
  match word.toList with
  | ['-', '-'] => endOfOptions
  | '-' :: '-' :: text => ofLong text
  | '-' :: letter :: rest => ofShort letter rest
  | _ => plain

end Token

/-! ## Values -/

/-- A seed is read as a natural number in its range; the other settings are read as 64-bit integers
with a sign and only then held against their limit. -/
def Setting.read (s : Setting) (text : String) : Except ValueFault Nat :=
  match s with
  | .seed =>
    match Numeral.readNat s.limit text.toList with
    | .ok n => .ok n
    | .error fault => .error (.misread fault)
  | _ =>
    match Numeral.readInt (UInt64.size / 2 - 1) text.toList with
    | .ok n => if 0 ≤ n ∧ n ≤ s.limit then .ok n.toNat else .error (.outOfRange n s.limit)
    | .error fault => .error (.misread fault)

structure Draft where
  rom? : Option String
  given : List (Setting × Nat)
deriving DecidableEq, Repr

namespace Draft

def empty : Draft := ⟨none, []⟩

def value? (d : Draft) (s : Setting) : Option Nat := d.given.lookup s

/-- That a setting is given a second time counts before what is wrong with its value. -/
def give (d : Draft) (s : Setting) (text : String) : Except Stop Draft :=
  if (d.value? s).isSome then .error (.refused (.givenTwice s))
  else
    match s.read text with
    | .ok n => .ok { d with given := (s, n) :: d.given }
    | .error fault => .error (.refused (.badValue s text fault))

def options (d : Draft) : Except Stop Options :=
  match d.rom? with
  | none => .error (.refused .romMissing)
  | some rom => .ok {
      rom
      scale := UInt32.ofNat ((d.value? .scale).getD defaultScale)
      cyclesPerFrame := UInt32.ofNat ((d.value? .cyclesPerFrame).getD defaultCyclesPerFrame)
      seed? := (d.value? .seed).map UInt64.ofNat }

end Draft

/-! ## Words -/

/-- What was given last and is not settled. -/
inductive Pending where
  | nothing
  | awaiting (s : Setting)
  | value (s : Setting) (text : String)
  | rom (text : String)
deriving DecidableEq, Repr

structure Reading where
  draft : Draft
  pending : Pending
  optionsEnded : Bool
deriving DecidableEq, Repr

namespace Reading

def start : Reading := ⟨.empty, .nothing, false⟩

def settle (r : Reading) : Except Stop Draft :=
  match r.pending with
  | .nothing => .ok r.draft
  | .awaiting s => .error (.refused (.valueMissing s.usage))
  | .value s text => r.draft.give s text
  | .rom text =>
    if text.isEmpty then .error (.refused (.valueMissing romUsage))
    else .ok { r.draft with rom? := some text }

def push (r : Reading) (pending : Pending) : Except Stop Reading :=
  r.settle.map fun draft => { r with draft, pending }

def romGiven (r : Reading) : Bool :=
  match r.pending with
  | .rom _ => true
  | _ => r.draft.rom?.isSome

def operand (r : Reading) (word : String) : Except Stop Reading :=
  if r.romGiven then .error (.refused (.unexpectedArgument word)) else r.push (.rom word)

def stopAt (r : Reading) : Switch → Except Stop Reading
  | .help => r.settle.bind fun _ => .error .help
  | .version => r.settle.bind fun _ => .error .version

def absorb (r : Reading) (word : String) : Except Stop Reading :=
  if r.optionsEnded then r.operand word
  else
    match Token.ofWord word with
    | .endOfOptions => .ok { r with optionsEnded := true }
    | .setting s none => r.push (.awaiting s)
    | .setting s (some text) => r.settle.bind fun draft =>
      (draft.give s text).map fun draft => { r with draft, pending := .nothing }
    | .switch s none => r.stopAt s
    | .switch s (some text) => .error (.refused (.unexpectedValue s text))
    | .unknown spelling => .error (.refused (.unexpectedArgument spelling))
    | .plain =>
      match r.pending with
      | .awaiting s => .ok { r with pending := .value s word }
      | _ => r.operand word

def finish (r : Reading) : Except Stop Options :=
  r.settle.bind Draft.options

end Reading

def parse (words : List String) : Except Stop Options :=
  (words.foldlM Reading.absorb Reading.start).bind Reading.finish

end CommandLine

end Chip8
