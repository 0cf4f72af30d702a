import Chip8.CommandLine.Parse

/-!
# What the command line answers

The texts for help, version and refusals. What the user wrote is quoted without escape sequences and
control characters, but for tab, line feed, form feed and carriage return.
-/

namespace Chip8

namespace Plain

/-! ## Escape sequences -/

inductive State where
  | ground
  | escape
  | intermediate
  | parameters
  | deviceEntry
  | deviceParameters
  | deviceIntermediate
  | command
  /-- In a string that its terminator ends: the byte 9C, which may be part of a character. -/
  | controlString
deriving DecidableEq, Repr

namespace State

def afterEscape (c : Char) : State :=
  if c.toNat < 0x30 then intermediate
  else
    match c with
    | '[' => parameters
    | ']' => command
    | 'P' => deviceEntry
    | 'X' => controlString
    | '^' => controlString
    | '_' => controlString
    | _ => ground

def afterPrintable (s : State) (c : Char) : State :=
  match s with
  | escape => afterEscape c
  | intermediate => if c.toNat < 0x30 then intermediate else ground
  | parameters => if c.toNat < 0x40 then parameters else ground
  | deviceEntry =>
    if c.toNat < 0x30 then deviceIntermediate
    else if c.toNat < 0x40 then deviceParameters
    else controlString
  | deviceParameters =>
    if c.toNat < 0x30 then deviceIntermediate
    else if c.toNat < 0x3C then deviceParameters
    else controlString
  | deviceIntermediate => if c.toNat < 0x30 then deviceIntermediate else controlString
  | ground => ground
  | command => command
  | controlString => controlString

def showsBlanks : State → Bool
  | ground => true
  | escape => true
  | intermediate => true
  | parameters => true
  | _ => false

end State

def isControl (c : Char) : Bool := c.toNat < 0x20 || c.toNat = 0x7F

def isBlank (c : Char) : Bool := c = '\t' || c = '\n' || c = '\x0c' || c = '\r'

def State.next (s : State) (c : Char) : State :=
  if c = '\x1b' then escape
  else if c = '\x18' || c = '\x1a' then ground
  else if isControl c then (if s = command && c = '\x07' then ground else s)
  else if c.toNat < 0x80 then s.afterPrintable c
  else if s = controlString && (String.utf8EncodeChar c).contains 0x9C then ground
  else s

/-! ## Showing a text -/

/-- Whether the place in an open sequence is kept while text that interrupts it is shown. -/
inductive Medium where
  | text
  | stream
deriving DecidableEq, Repr

structure Cursor where
  state : State
  interrupted : Bool
deriving DecidableEq, Repr

namespace Cursor

def start : Cursor := ⟨.ground, false⟩

def interrupt (cursor : Cursor) : Medium → Cursor
  | .text => start
  | .stream => { cursor with interrupted := true }

def advance (medium : Medium) (cursor : Cursor) (c : Char) : Cursor × Bool :=
  let after : Cursor := ⟨cursor.state.next c, false⟩
  if isControl c then
    if isBlank c && cursor.state.showsBlanks then (cursor.interrupt medium, true)
    else (after, false)
  else if cursor.interrupted then (if c.toNat < 0x80 then cursor else start, true)
  else (after, cursor.state = .ground)

end Cursor

def strip (medium : Medium) : Cursor → List Char → List Char
  | _, [] => []
  | cursor, c :: rest =>
    let (after, shown) := cursor.advance medium c
    if shown then c :: strip medium after rest else strip medium after rest

def shown (medium : Medium) (text : String) : String :=
  String.ofList (strip medium .start text.toList)

theorem next_ground_of_printable {c : Char} (h : isControl c = false) :
    State.ground.next c = .ground := by
  have he : c ≠ '\x1b' := fun e => by subst e; exact absurd h (by decide)
  simp [State.next, he, h, State.afterPrintable]

theorem strip_of_printable (medium : Medium) {cs : List Char}
    (h : ∀ c ∈ cs, isControl c = false) : strip medium .start cs = cs := by
  induction cs with
  | nil => rfl
  | cons c rest ih =>
    have hc := h c List.mem_cons_self
    have hnext := next_ground_of_printable hc
    simp only [Cursor.start] at ih ⊢
    simp only [strip, Cursor.advance, hc, hnext]
    simp [ih fun d hd => h d (List.mem_cons_of_mem c hd)]

end Plain

/-! ## Answers -/

namespace CommandLine

def programName : String := "ch8emu"

def versionText : String := programName ++ " 0.1.0\n"

def helpEntry (spelling purpose : String) : String :=
  "  " ++ spelling ++ "\n          " ++ purpose ++ "\n"

def defaultText (value : Nat) : String :=
  " [default: " ++ Numeral.decimal value ++ "]"

def helpText : String :=
  "A Chip-8 interpreter\n\n"
    ++ "Usage: " ++ programName ++ " [OPTIONS] " ++ romUsage ++ "\n\n"
    ++ "Arguments:\n  " ++ romUsage ++ "  Path to the ROM file to run\n\n"
    ++ "Options:\n"
    ++ helpEntry ("-s, " ++ Setting.scale.usage)
        ("Size multiplier for each Chip-8 pixel" ++ defaultText defaultScale)
    ++ helpEntry ("-c, " ++ Setting.cyclesPerFrame.usage)
        ("Instructions executed per 60Hz frame" ++ defaultText defaultCyclesPerFrame)
    ++ helpEntry ("    " ++ Setting.seed.usage)
        "Seed for the random number generator; random when omitted"
    ++ helpEntry "-h, --help" "Print help"
    ++ helpEntry "-V, --version" "Print version"

def firstParagraph : List Char → List Char
  | [] => []
  | '\n' :: '\n' :: _ => []
  | c :: rest => c :: firstParagraph rest

def Stop.text (medium : Plain.Medium) : Stop → String
  | .help => helpText
  | .version => versionText
  | .refused refusal =>
    let message := "error: " ++ refusal.message (Plain.shown medium)
    String.ofList (firstParagraph message.toList)

end CommandLine

end Chip8
