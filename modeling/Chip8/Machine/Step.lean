import Chip8.Machine.Execute

/-!
# Loading and stepping

A program is copied into memory as it is; one that does not fit, or cannot be read to its end,
changes nothing. A step fetches the word at the counter, executes it and moves the counter; one that
fails leaves the counter where it is.
-/

namespace Chip8

/-! ## Byte sources -/

inductive Source where
  | done
  | failed (cause : String)
  | chunk (bytes : List UInt8) (rest : Source)
deriving DecidableEq, Repr

namespace Source

def ofChunks (chunks : List (List UInt8)) (last : Source) : Source :=
  chunks.foldr chunk last

/-- All bytes up to the end; a failure loses what came before it. -/
def readToEnd : Source → Except String (List UInt8)
  | done => .ok []
  | failed cause => .error cause
  | chunk bytes rest => rest.readToEnd.map (bytes ++ ·)

theorem readToEnd_ofChunks (chunks : List (List UInt8)) (last : Source) :
    (ofChunks chunks last).readToEnd = last.readToEnd.map (chunks.flatten ++ ·) := by
  induction chunks with
  | nil => cases h : last.readToEnd <;> simp [ofChunks, h, Except.map]
  | cons bytes rest ih =>
    have hcons : ofChunks (bytes :: rest) last = chunk bytes (ofChunks rest last) := rfl
    rw [hcons, readToEnd, ih]
    cases last.readToEnd <;> simp [Except.map]

end Source

/-! ## Outcomes -/

/-- What an operation on the machine leaves behind; of the log the oldest entry comes first. -/
structure Outcome (ε : Type) where
  machine : Machine
  log : List LogEntry
  fault? : Option ε

def Outcome.mapFault {ε δ : Type} (f : ε → δ) (o : Outcome ε) : Outcome δ :=
  ⟨o.machine, o.log, o.fault?.map f⟩

/-! ## Loading and storing -/

namespace Machine

def load (m : Machine) (bytes : List UInt8) (origin : UInt16) : Outcome Fault :=
  if origin.toNat + bytes.length ≤ Memory.size then
    ⟨{ m with memory := m.memory.overlay origin.toNat bytes }, [.loaded bytes.length origin], none⟩
  else ⟨m, [], some (.programTooLarge bytes.length origin Memory.size)⟩

def loadProgram (m : Machine) (bytes : List UInt8) : Outcome Fault :=
  m.load bytes programStart

/-- Stores bytes from an address on, as instructions do from the index on. -/
def writeMemory (m : Machine) (start : UInt16) (bytes : List UInt8) : Outcome Fault :=
  match m.memory.write start bytes with
  | .ok memory => ⟨{ m with memory }, [], none⟩
  | .error fault => ⟨m, [], some fault⟩

def loadRom (m : Machine) (source : Source) : Outcome LoadFault :=
  match source.readToEnd with
  | .error cause => ⟨m, [], some (.unreadable cause)⟩
  | .ok bytes => (m.loadProgram bytes).mapFault .rejected

theorem machine_load (m : Machine) (bytes : List UInt8) (origin : UInt16) :
    ∃ memory, (m.load bytes origin).machine = { m with memory } := by
  unfold load
  split
  · exact ⟨_, rfl⟩
  · exact ⟨_, rfl⟩

theorem machine_loadRom (m : Machine) (source : Source) :
    ∃ memory, (m.loadRom source).machine = { m with memory } := by
  unfold loadRom
  split
  · exact ⟨_, rfl⟩
  · exact m.machine_load _ programStart

/-! ## Stepping -/

def fetchPc (m : Machine) : UInt16 :=
  if m.pc.toNat + 1 < Memory.size then m.pc else programStart

theorem fetchPc_lt (m : Machine) : m.fetchPc.toNat + 1 < Memory.size := by
  unfold fetchPc
  split
  · assumption
  · decide

def fetch (m : Machine) : Word :=
  m.memory.word m.fetchPc.toNat m.fetchPc_lt

def stepLog (m : Machine) : List LogEntry :=
  let reset :=
    if m.pc.toNat + 1 < Memory.size then [] else [.ranPastEnd m.pc programStart]
  reset ++ [.executing m.fetch m.v m.i m.fetchPc]

def step (keypad : Keypad) (m : Machine) : Outcome Fault :=
  match (m.fetch.perform keypad).run { m with pc := m.fetchPc } with
  | .error fault left => ⟨left, m.stepLog, some fault⟩
  | .ok flow done => ⟨{ done with pc := flow.after done.pc }, m.stepLog, none⟩

/-! ## Several steps -/

def steps (keypad : Keypad) : Nat → Machine → List (Outcome Fault)
  | 0, _ => []
  | count + 1, m =>
    let outcome := m.step keypad
    outcome :: if outcome.fault?.isNone then steps keypad count outcome.machine else []

structure Run where
  machine : Machine
  log : Array LogEntry
  ran : Nat
  fault? : Option Fault

def Run.resume (keypad : Keypad) : Nat → Run → Run
  | 0, r => r
  | count + 1, r =>
    let outcome := r.machine.step keypad
    let log := r.log ++ outcome.log
    match outcome.fault? with
    | some fault => ⟨outcome.machine, log, r.ran, some fault⟩
    | none => Run.resume keypad count ⟨outcome.machine, log, r.ran + 1, none⟩

def run (keypad : Keypad) (count : Nat) (m : Machine) : Run :=
  Run.resume keypad count ⟨m, #[], 0, none⟩

end Machine

end Chip8
