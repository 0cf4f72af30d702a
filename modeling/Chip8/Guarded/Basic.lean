import Chip8.Machine.Basic

/-!
# Guarded work

Guarded work is done on a bare machine, whose stack pointer is any number. It tests each index, slice,
copy, sum, product, difference and shift where it is made. A test that fails is a crash, which is not
a fault: a fault a host is told of.
-/

namespace Chip8

/-! ## Tested operations -/

namespace Tested

variable {α : Type} {n : Nat}

/-- Counts and places in arrays have at least 32 bits. -/
abbrev sizeLimit : Nat := 0x100000000

def add (limit a b : Nat) : Option Nat := if a + b < limit then some (a + b) else none

def mul (limit a b : Nat) : Option Nat := if a * b < limit then some (a * b) else none

def sub (a b : Nat) : Option Nat := if b ≤ a then some (a - b) else none

def shift (width amount : Nat) : Option Nat := if amount < width then some amount else none

def put (xs : Vector α n) (k : Nat) (a : α) : Option (Vector α n) :=
  if h : k < n then some (xs.set k a) else none

def slice (xs : Vector α n) (start stop : Nat) : Option (List α) :=
  if start ≤ stop ∧ stop ≤ n then some ((xs.toList.drop start).take (stop - start)) else none

def copy (xs : Vector α n) (start stop : Nat) (source : List α) : Option (Vector α n) :=
  if start ≤ stop ∧ stop ≤ n ∧ source.length = stop - start then
    some (Vector.ofFn fun k => if start ≤ k.val then source[k.val - start]?.getD xs[k] else xs[k])
  else none

theorem add_size {a b : Nat} (ha : a < 0x10000) (hb : b < 0x10000) :
    add sizeLimit a b = some (a + b) :=
  if_pos (by rw [sizeLimit]; omega)

theorem slice_copy {xs buffer : Vector α n} {start stop : Nat} {source : List α}
    (h : copy xs start stop source = some buffer) : slice buffer start stop = some source := by
  unfold copy at h
  split at h
  · rename_i hfits
    obtain ⟨hle, hn, hlen⟩ := hfits
    cases h
    rw [slice, if_pos ⟨hle, hn⟩]
    refine congrArg some (List.ext_getElem? fun k => ?_)
    rw [List.getElem?_take, List.getElem?_drop, Vector.getElem?_toList]
    by_cases hk : k < stop - start
    · have hin : start + k < n := by omega
      have hback : start + k - start = k := by omega
      have hsource : k < source.length := by omega
      rw [if_pos hk, Vector.getElem?_eq_getElem hin, Vector.getElem_ofFn]
      simp [hback, hsource]
    · rw [if_neg hk, List.getElem?_eq_none (by omega)]
  · cases h

theorem exists_copy_prefix (xs : Vector α n) {source : List α} {count : Nat}
    (hlen : source.length = count) (h : count ≤ n) :
    ∃ buffer, copy xs 0 count source = some buffer ∧ slice buffer 0 count = some source := by
  obtain ⟨buffer, hcopy⟩ : ∃ buffer, copy xs 0 count source = some buffer :=
    ⟨_, if_pos ⟨Nat.zero_le _, h, hlen⟩⟩
  exact ⟨buffer, hcopy, slice_copy hcopy⟩

theorem copy_memory (mem : Memory) (start : Nat) (bytes : List UInt8)
    (h : start + bytes.length ≤ Memory.size) :
    copy mem start (start + bytes.length) bytes = some (mem.overlay start bytes) := by
  rw [copy, if_pos ⟨by omega, h, by omega⟩]
  refine congrArg some (Vector.ext fun a ha => ?_)
  rw [Memory.getElem_overlay mem start bytes a ha]
  simp

end Tested

/-! ## Bare machines -/

/-- A machine with a stack pointer that need not lie within the slots. -/
structure Bare where
  v : Registers
  i : UInt16
  pc : UInt16
  slots : Vector UInt16 CallStack.capacity
  depth : Nat
  delay : UInt8
  sound : UInt8
  memory : Memory
  frame : Frame
  redraw : Bool
  random : Generator

def Machine.bare (m : Machine) : Bare where
  v := m.v
  i := m.i
  pc := m.pc
  slots := m.stack.slots
  depth := m.stack.depth
  delay := m.delay
  sound := m.sound
  memory := m.memory
  frame := m.frame
  redraw := m.redraw
  random := m.random

def Bare.machine (b : Bare) (h : b.depth ≤ CallStack.capacity) : Machine where
  v := b.v
  i := b.i
  pc := b.pc
  stack := ⟨b.slots, b.depth, h⟩
  delay := b.delay
  sound := b.sound
  memory := b.memory
  frame := b.frame
  redraw := b.redraw
  random := b.random

@[simp] theorem Machine.bare_v (m : Machine) : m.bare.v = m.v := rfl

@[simp] theorem Machine.bare_i (m : Machine) : m.bare.i = m.i := rfl

@[simp] theorem Machine.bare_pc (m : Machine) : m.bare.pc = m.pc := rfl

@[simp] theorem Machine.bare_memory (m : Machine) : m.bare.memory = m.memory := rfl

@[simp] theorem Bare.bare_machine (b : Bare) (h : b.depth ≤ CallStack.capacity) :
    (b.machine h).bare = b := rfl

/-! ## Work that may crash -/

inductive Stop where
  | fault (fault : Fault)
  | crash
deriving DecidableEq, Repr

abbrev Guarded := EStateM Stop Bare

namespace Guarded

variable {α : Type}

def need : Option α → Guarded α
  | some a => return a
  | none => throw .crash

def register (x : Nat) : Guarded UInt8 := do
  need (← get).v[x]?

def setRegister (x : Nat) (value : UInt8) : Guarded Unit := do
  let v ← need (Tested.put (← get).v x value)
  modify ({ · with v })

def pushCall (address : UInt16) : Guarded Unit := do
  let b ← get
  if b.depth = CallStack.capacity then throw (.fault (.stackOverflow CallStack.capacity))
  else
    let slots ← need (Tested.put b.slots b.depth address)
    let depth ← need (Tested.add Tested.sizeLimit b.depth 1)
    modify ({ · with slots, depth })

def popCall : Guarded UInt16 := do
  let b ← get
  if b.depth = 0 then throw (.fault .stackUnderflow)
  else
    let depth ← need (Tested.sub b.depth 1)
    modify ({ · with depth })
    need b.slots[depth]?

def rangeEnd (start length : Nat) : Guarded Nat := do
  let stop ← need (Tested.add Tested.sizeLimit start length)
  if Memory.size < stop then throw (.fault (Memory.outside start))
  else return stop

def readMemory (length : Nat) : Guarded (List UInt8) := do
  let b ← get
  let stop ← rangeEnd b.i.toNat length
  need (Tested.slice b.memory b.i.toNat stop)

def writeMemory (bytes : List UInt8) : Guarded Unit := do
  let b ← get
  let stop ← rangeEnd b.i.toNat bytes.length
  let memory ← need (Tested.copy b.memory b.i.toNat stop bytes)
  modify ({ · with memory })

/-! ## What the parts leave behind -/

variable {b : Bare}

@[simp] theorem run_need_some (a : α) : (need (some a)).run b = .ok a b := rfl

@[simp] theorem run_register (x : Nibble) : (register x).run b = .ok (b.v.get x) b := by
  simp only [register, EStateM.run_bind, EStateM.run_get, Vector.getElem?_eq_getElem x.isLt]
  rfl

@[simp] theorem run_setRegister (x : Nibble) (value : UInt8) :
    (setRegister x value).run b = .ok () { b with v := b.v.set x value } := by
  simp only [setRegister, EStateM.run_bind, EStateM.run_get, Tested.put, x.isLt, dite_true,
    run_need_some]
  rfl

theorem run_rangeEnd (start : UInt16) {length : Nat} (h : length ≤ 16) :
    (rangeEnd start.toNat length).run b =
      if start.toNat + length ≤ Memory.size then .ok (start.toNat + length) b
      else .error (.fault (Memory.outside start.toNat)) b := by
  have hadd : Tested.add Tested.sizeLimit start.toNat length = some (start.toNat + length) :=
    Tested.add_size start.toNat_lt (by omega)
  simp only [rangeEnd, EStateM.run_bind, hadd, run_need_some]
  by_cases hfits : start.toNat + length ≤ Memory.size
  · rw [if_neg (Nat.not_lt.mpr hfits), if_pos hfits]
    rfl
  · rw [if_pos (Nat.not_le.mp hfits), if_neg hfits]
    rfl

/-- Without a bound on the stack pointer a call crashes. -/
theorem pushCall_crashes (address : UInt16) (h : CallStack.capacity < b.depth) :
    (pushCall address).run b = .error .crash b := by
  have hfull : ¬ b.depth = CallStack.capacity := Nat.ne_of_gt h
  have hput : Tested.put b.slots b.depth address = none := dif_neg (Nat.not_lt_of_gt h)
  simp only [pushCall, EStateM.run_bind, EStateM.run_get, if_neg hfull, hput]
  rfl

end Guarded

end Chip8
