import Chip8.Guarded.Basic
import Chip8.Machine.Execute

/-!
# A guarded step

The step of a machine as guarded work. Masks and shifts cut the operands out of the word, the bytes of
a sprite and of restored registers go through buffers of a fixed length, and pixels are found by row
and column.
-/

namespace Chip8

namespace Word

/-! ## Operands by mask -/

def maskedN (w : Word) : Nat := (w &&& 0x000F).toNat

def maskedNnn (w : Word) : UInt16 := w &&& 0x0FFF

variable (w : Word)

theorem maskedN_eq : w.maskedN = w.n := by
  rw [maskedN, UInt16.toNat_and]
  exact Nat.and_two_pow_sub_one_eq_mod w.toNat 4

theorem maskedNnn_eq : w.maskedNnn = w.nnn.toUInt16 := by
  rw [← UInt16.toNat_inj, maskedNnn, UInt16.toNat_and, Address.toNat_toUInt16]
  exact Nat.and_two_pow_sub_one_eq_mod w.toNat 12

theorem ofBytes_eq (left right : UInt8) :
    ofBytes left right = (left.toUInt16 <<< UInt16.ofNat 8) ||| right.toUInt16 := by
  have := left.toNat_lt
  have := right.toNat_lt
  rw [← UInt16.toNat_inj, toNat_ofBytes, UInt16.toNat_or, UInt16.toNat_shiftLeft]
  show _ = (left.toNat <<< 8) % 2 ^ 16 ||| right.toNat
  rw [Nat.mod_eq_of_lt (by rw [Nat.shiftLeft_eq]; omega),
    ← Nat.shiftLeft_add_eq_or_of_lt (by omega), Nat.shiftLeft_eq]
  omega

end Word

namespace Guarded

/-- The digit of a word that a mask leaves, moved to the lowest place. -/
def digit (w mask : Word) (amount : Nat) : Guarded Nat := do
  let amount ← need (Tested.shift 16 amount)
  return ((w &&& mask) >>> UInt16.ofNat amount).toNat

def family (w : Word) : Guarded Nat := digit w 0xF000 12

def digitX (w : Word) : Guarded Nat := digit w 0x0F00 8

def digitY (w : Word) : Guarded Nat := digit w 0x00F0 4

section
variable {b : Bare} (w : Word)

theorem run_digit {mask : Word} {amount : Nat} (hamount : amount < 16)
    (hmask : mask.toNat >>> amount = 15) :
    (digit w mask amount).run b = .ok ((w.toNat >>> amount) % 16) b := by
  have hshift : Tested.shift 16 amount = some amount := if_pos hamount
  have hsame : (UInt16.ofNat amount).toNat % 16 = amount := by
    rw [UInt16.toNat_ofNat']
    omega
  have hdigit : ((w &&& mask) >>> UInt16.ofNat amount).toNat = (w.toNat >>> amount) % 16 := by
    rw [UInt16.toNat_shiftRight, UInt16.toNat_and, hsame, Nat.shiftRight_and_distrib, hmask]
    exact Nat.and_two_pow_sub_one_eq_mod _ 4
  simp only [digit, EStateM.run_bind, hshift, run_need_some, hdigit]
  rfl

theorem run_family : (family w).run b = .ok w.family.val b := by
  have := w.toNat_lt
  have hfamily : (w.toNat >>> 12) % 16 = w.family.val := by
    rw [Nat.shiftRight_eq_div_pow]
    show w.toNat / 0x1000 % 16 = w.toNat / 0x1000
    omega
  rw [family, run_digit w (by decide) (by decide), hfamily]

theorem run_digitX : (digitX w).run b = .ok w.x.val b := by
  have hx : (w.toNat >>> 8) % 16 = w.x.val := by rw [Nat.shiftRight_eq_div_pow, Word.x]
  rw [digitX, run_digit w (by decide) (by decide), hx]

theorem run_digitY : (digitY w).run b = .ok w.y.val b := by
  have hy : (w.toNat >>> 4) % 16 = w.y.val := by rw [Nat.shiftRight_eq_div_pow, Word.y]
  rw [digitY, run_digit w (by decide) (by decide), hy]

end

/-! ## Drawing -/

/-- One bit of a sprite's row that comes to lie in row `y` of the frame; tells whether a pixel was
lit already, here or before. -/
def strikeBit (vx y : Nat) (byte : UInt8) (collided : Bool) (bit : Nat) : Guarded Bool := do
  let amount ← need (Tested.sub 7 bit)
  let amount ← need (Tested.shift 8 amount)
  if (byte >>> UInt8.ofNat amount) &&& 1 = 0 then return collided
  else
    let x := (← need (Tested.add Tested.sizeLimit vx bit)) % Frame.width
    let frame := (← get).frame
    let row ← need frame[y]?
    let lit ← need row[x]?
    let frame ← need (Tested.put frame y (← need (Tested.put row x true)))
    modify ({ · with frame })
    return collided || lit

def strikeRow (vx vy : Nat) (collided : Bool) (numbered : UInt8 × Nat) : Guarded Bool := do
  let y := (← need (Tested.add Tested.sizeLimit vy numbered.2)) % Frame.height
  (List.range 8).foldlM (strikeBit vx y numbered.1) collided

def draw (x y rows : Nat) : Guarded Unit := do
  let vx ← register x
  let vy ← register y
  let bytes ← readMemory rows
  let sprite : Vector UInt8 15 ← need (Tested.copy (Vector.replicate 15 0) 0 rows bytes)
  let shown ← need (Tested.slice sprite 0 rows)
  let collided ← shown.zipIdx.foldlM (strikeRow vx.toNat vy.toNat) false
  setRegister 0xF collided.toUInt8
  modify ({ · with redraw := true })

/-! ## Instructions -/

def combined (a b : UInt8) : Combination → Option UInt8
  | .shiftRight => (Tested.shift 8 1).map fun amount => a >>> UInt8.ofNat amount
  | .shiftLeft => (Tested.shift 8 1).map fun amount => a <<< UInt8.ofNat amount
  | how => some (how.result a b)

def combine (how : Combination) (x y : Nat) : Guarded Unit := do
  let a ← register x
  let b ← register y
  let result ← need (combined a b how)
  match how.flag? a b with
  | none => setRegister x result
  | some flag => do
    setRegister 0xF flag.toUInt8
    setRegister x result

def test (keypad : Keypad) (w : Word) : Condition → Guarded Bool
  | .holds _ nn => return (← register (← digitX w)) = nn
  | .holdsNot _ nn => return (← register (← digitX w)) ≠ nn
  | .equal _ _ => return (← register (← digitX w)) = (← register (← digitY w))
  | .differ _ _ => return (← register (← digitX w)) ≠ (← register (← digitY w))
  | .keyDown _ => return keypad (← register (← digitX w))
  | .keyUp _ => return !keypad (← register (← digitX w))

def restoreRegisters (x : Nat) : Guarded Unit := do
  let count ← need (Tested.add Tested.sizeLimit x 1)
  let bytes ← readMemory count
  let buffer : Vector UInt8 16 ← need (Tested.copy (Vector.replicate 16 0) 0 count bytes)
  let v ← need (Tested.copy (← get).v 0 count (← need (Tested.slice buffer 0 count)))
  modify ({ · with v })

def execute (keypad : Keypad) (w : Word) : Instruction → Guarded Flow
  | .clearScreen => do
    modify ({ · with frame := .dark, redraw := true })
    return .next
  | .returnToCaller => return .jump (← popCall)
  | .jump _ => return .jump w.maskedNnn
  | .call _ => do
    pushCall ((← get).pc + 2)
    return .jump w.maskedNnn
  | .skipIf condition =>
    return if ← test keypad w condition then .skip else .next
  | .setByte _ nn => do
    setRegister (← digitX w) nn
    return .next
  | .addByte _ nn => do
    let x ← digitX w
    setRegister x ((← register x) + nn)
    return .next
  | .combine how _ _ => do
    combine how (← digitX w) (← digitY w)
    return .next
  | .setIndex _ => do
    modify ({ · with i := w.maskedNnn })
    return .next
  | .jumpByV0 _ => do
    let v0 ← register 0
    let sum ← need (Tested.add UInt16.size v0.toNat w.maskedNnn.toNat)
    return .jump (UInt16.ofNat sum)
  | .randomByte _ mask => do
    let taken := (← get).random.next
    modify ({ · with random := taken.2 })
    setRegister (← digitX w) (taken.1.toUInt8 &&& mask)
    return .next
  | .draw _ _ _ => do
    draw (← digitX w) (← digitY w) w.maskedN
    return .next
  | .readDelay _ => do
    setRegister (← digitX w) (← get).delay
    return .next
  | .awaitKey _ =>
    match keypad.firstDown? with
    | none => return .wait
    | some key => do
      setRegister (← digitX w) (UInt8.ofNat key)
      return .next
  | .setDelay _ => do
    let value ← register (← digitX w)
    modify ({ · with delay := value })
    return .next
  | .setSound _ => do
    let value ← register (← digitX w)
    modify ({ · with sound := value })
    return .next
  | .addToIndex _ => do
    let value ← register (← digitX w)
    modify fun b => { b with i := b.i + value.toUInt16 }
    return .next
  | .pointAtGlyph _ => do
    let digit ← register (← digitX w)
    let offset ← need (Tested.mul UInt16.size digit.toNat Font.glyphSize.toNat)
    let place ← need (Tested.add UInt16.size Font.start.toNat offset)
    modify ({ · with i := UInt16.ofNat place })
    return .next
  | .storeDecimal _ => do
    writeMemory (decimalDigits (← register (← digitX w)))
    return .next
  | .saveRegisters _ => do
    let count ← need (Tested.add Tested.sizeLimit (← digitX w) 1)
    writeMemory (← need (Tested.slice (← get).v 0 count))
    return .next
  | .restoreRegisters _ => do
    restoreRegisters (← digitX w)
    return .next

def decode (w : Word) : Guarded (Option Instruction) := do
  let family ← family w
  let x ← digitX w
  let y ← digitY w
  return Instruction.ofWord? (UInt16.ofNat (0x1000 * family + 0x100 * x + 0x10 * y + w.maskedN))

def perform (keypad : Keypad) (w : Word) : Guarded Flow := do
  match ← decode w with
  | none => return .next
  | some instruction => execute keypad w instruction

/-! ## Steps -/

def fetch : Guarded Word := do
  let b ← get
  let left ← need b.memory[b.pc.toNat]?
  let right ← need b.memory[← need (Tested.add Tested.sizeLimit b.pc.toNat 1)]?
  let amount ← need (Tested.shift 16 8)
  return (left.toUInt16 <<< UInt16.ofNat amount) ||| right.toUInt16

def resetPc : Guarded Unit := do
  let next ← need (Tested.add Tested.sizeLimit (← get).pc.toNat 1)
  if Memory.size ≤ next then modify ({ · with pc := Machine.programStart })
  else return

def step (keypad : Keypad) : Guarded Unit := do
  resetPc
  let flow ← perform keypad (← fetch)
  modify fun b => { b with pc := flow.after b.pc }

end Guarded

end Chip8
