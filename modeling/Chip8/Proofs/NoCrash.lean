import Chip8.Guarded.Step
import Chip8.Proofs.Footprint

/-!
# Steps do not crash

`Agrees` says of guarded work that it never crashes and does what an action of the machine does.
Agreement passes along sequences, so it goes from the parts that instructions are made of to whole
steps.
-/

namespace Chip8

namespace Guarded

variable {α β : Type} {b : Bare}

def bareResult : EStateM.Result Fault Machine α → EStateM.Result Stop Bare α
  | .ok a done => .ok a done.bare
  | .error fault left => .error (.fault fault) left.bare

/-- The work does on every machine what the action does, and never crashes. -/
def Agrees (work : Guarded α) (action : Action α) : Prop :=
  ∀ m : Machine, work.run m.bare = bareResult (action.run m)

namespace Agrees

theorem pure (a : α) : Agrees (Pure.pure a) (Pure.pure a) := fun _ => rfl

theorem bind {work : Guarded α} {action : Action α} {next : α → Guarded β} {after : α → Action β}
    (h : Agrees work action) (hnext : ∀ a, Agrees (next a) (after a)) :
    Agrees (work >>= next) (action >>= after) := by
  intro m
  rw [EStateM.run_bind, EStateM.run_bind, h m]
  cases action.run m with
  | ok a done => exact hnext a done
  | error fault left => rfl

/-! ## The stack -/

theorem pushCall (address : UInt16) : Agrees (pushCall address) (Action.pushCall address) := by
  intro m
  have hdepth : m.bare.depth ≤ 16 := m.stack.depth_le
  rw [Action.run_pushCall, CallStack.push]
  by_cases hfull : m.bare.depth = 16
  · have hroom : ¬ m.stack.depth < 16 := Nat.not_lt.mpr (Nat.le_of_eq hfull.symm)
    simp only [Guarded.pushCall, EStateM.run_bind, EStateM.run_get, if_pos hfull, dif_neg hroom]
    rfl
  · have hroom : m.stack.depth < 16 := Nat.lt_of_le_of_ne hdepth hfull
    have hput : Tested.put m.bare.slots m.bare.depth address =
        some (m.stack.slots.set m.stack.depth address) := dif_pos hroom
    have hadd : Tested.add Tested.sizeLimit m.bare.depth 1 = some (m.stack.depth + 1) :=
      Tested.add_size (by omega) (by omega)
    simp only [Guarded.pushCall, EStateM.run_bind, EStateM.run_get, if_neg hfull, dif_pos hroom,
      hput, hadd, run_need_some]
    rfl

theorem popCall : Agrees popCall Action.popCall := by
  intro m
  have hdepth : m.stack.depth ≤ 16 := m.stack.depth_le
  rw [Action.run_popCall, CallStack.pop]
  by_cases hempty : m.bare.depth = 0
  · have hnone : m.stack.depth = 0 := hempty
    simp only [Guarded.popCall, EStateM.run_bind, EStateM.run_get, if_pos hempty, dif_pos hnone]
    rfl
  · have hsome : ¬ m.stack.depth = 0 := hempty
    have htop : m.stack.depth - 1 < 16 := by omega
    have hsub : Tested.sub m.bare.depth 1 = some (m.stack.depth - 1) :=
      if_pos (Nat.pos_of_ne_zero hempty)
    have hslot : m.bare.slots[m.stack.depth - 1]? = some m.stack.slots[m.stack.depth - 1] :=
      Vector.getElem?_eq_getElem htop
    simp only [Guarded.popCall, EStateM.run_bind, EStateM.run_get, EStateM.run_modify,
      if_neg hempty, dif_neg hsome, hsub, hslot, run_need_some]
    rfl

/-! ## Ranges of memory -/

theorem readMemory {length : Nat} (h : length ≤ 16) :
    Agrees (readMemory length) (Vector.toList <$> Action.readMemory length) := by
  intro m
  rw [Action.run_map, Action.run_readMemory, Memory.read]
  by_cases hfits : m.i.toNat + length ≤ Memory.size
  · have hslice : Tested.slice m.memory m.i.toNat (m.i.toNat + length) =
        some (Vector.ofFn fun k : Fin length => m.memory[m.i.toNat + k.val]).toList := by
      rw [Tested.slice, if_pos ⟨by omega, hfits⟩]
      refine congrArg some (List.ext_getElem (by simp; omega) fun k hk hk' => ?_)
      simp
    simp only [Guarded.readMemory, EStateM.run_bind, EStateM.run_get, run_rangeEnd _ h,
      Machine.bare_i, Machine.bare_memory, if_pos hfits, dif_pos hfits, hslice, run_need_some]
    rfl
  · simp only [Guarded.readMemory, EStateM.run_bind, EStateM.run_get, run_rangeEnd _ h,
      Machine.bare_i, if_neg hfits, dif_neg hfits]
    rfl

theorem writeMemory {bytes : List UInt8} (h : bytes.length ≤ 16) :
    Agrees (writeMemory bytes) (Action.writeMemory bytes) := by
  intro m
  rw [Action.run_writeMemory, Memory.write]
  by_cases hfits : m.i.toNat + bytes.length ≤ Memory.size
  · simp only [Guarded.writeMemory, EStateM.run_bind, EStateM.run_get, run_rangeEnd _ h,
      Machine.bare_i, Machine.bare_memory, if_pos hfits,
      Tested.copy_memory m.memory m.i.toNat bytes hfits, run_need_some]
    rfl
  · simp only [Guarded.writeMemory, EStateM.run_bind, EStateM.run_get, run_rangeEnd _ h,
      Machine.bare_i, if_neg hfits]
    rfl

end Agrees

/-! ## Registers -/

theorem slice_upTo (v : Registers) (x : Nibble) : Tested.slice v 0 (x.val + 1) = some (v.upTo x) :=
  if_pos ⟨Nat.zero_le _, x.isLt⟩

theorem copy_registers (v : Registers) {count : Nat} (bytes : Vector UInt8 count) (h : count ≤ 16) :
    Tested.copy v 0 count bytes.toList = some (v.restore bytes) := by
  rw [Tested.copy, if_pos ⟨by omega, h, by simp⟩]
  refine congrArg some (Vector.ext fun r hr => ?_)
  simp [Registers.restore, Vector.get]

theorem tested_count (x : Nibble) : Tested.add Tested.sizeLimit x 1 = some (x.val + 1) :=
  Tested.add_size (by omega) (by omega)

theorem Agrees.restoreRegisters (x : Nibble) :
    Agrees (restoreRegisters x) (do
      let bytes ← Action.readMemory (x + 1)
      modify fun m => { m with v := m.v.restore bytes }) := by
  intro m
  have hcount : x.val + 1 ≤ 16 := x.isLt
  simp only [Guarded.restoreRegisters, EStateM.run_bind, tested_count, run_need_some,
    Agrees.readMemory hcount m, Action.run_map]
  cases (Action.readMemory (x + 1)).run m with
  | error fault left => rfl
  | ok bytes done =>
    obtain ⟨buffer, hcopy, hslice⟩ :=
      Tested.exists_copy_prefix (Vector.replicate 16 (0 : UInt8)) bytes.length_toList hcount
    simp only [bareResult, hcopy, hslice, run_need_some, EStateM.run_get,
      copy_registers _ bytes hcount]
    rfl

/-! ## Drawing -/

/-- A loop that carries a flag and changes the frame is a fold over the pair of both. -/
theorem run_foldlM {γ : Type} {work : Bool → γ → Guarded Bool}
    {strike : Bool × Frame → γ → Bool × Frame} (l : List γ)
    (h : ∀ a ∈ l, ∀ drawn, (work drawn.1 a).run { b with frame := drawn.2 } =
      .ok (strike drawn a).1 { b with frame := (strike drawn a).2 }) (drawn : Bool × Frame) :
    (l.foldlM work drawn.1).run { b with frame := drawn.2 } =
      .ok (l.foldl strike drawn).1 { b with frame := (l.foldl strike drawn).2 } := by
  induction l generalizing drawn with
  | nil => rfl
  | cons a l ih =>
    rw [List.foldlM_cons, EStateM.run_bind, h a List.mem_cons_self]
    exact ih (fun a' ha' => h a' (List.mem_cons_of_mem a ha')) (strike drawn a)

theorem bit_eq_zero_iff (byte : UInt8) {amount : Nat} (h : amount < 8) :
    (byte >>> UInt8.ofNat amount) &&& 1 = 0 ↔ byte.toNat.testBit amount = false := by
  have hamount : (UInt8.ofNat amount).toNat % 8 = amount := by
    rw [UInt8.toNat_ofNat']
    omega
  rw [← UInt8.toNat_inj, UInt8.toNat_and, UInt8.toNat_shiftRight, hamount]
  show byte.toNat >>> amount &&& 1 = 0 ↔ _
  rw [Nat.and_one_is_mod, Nat.testBit_eq_decide_div_mod_eq, Nat.shiftRight_eq_div_pow]
  simp

theorem run_strikeBit (left top byte : UInt8) (row : Nat) {bit : Nat} (h : bit < 8)
    (drawn : Bool × Frame) :
    (strikeBit left.toNat ((top.toNat + row) % Frame.height) byte drawn.1 bit).run
        { b with frame := drawn.2 } =
      let next := if byte.toNat.testBit (7 - bit) then
          Sprite.strike drawn (Sprite.place left top bit row)
        else drawn
      .ok next.1 { b with frame := next.2 } := by
  have hleft := left.toNat_lt
  have hsub : Tested.sub 7 bit = some (7 - bit) := if_pos (by omega)
  have hshift : Tested.shift 8 (7 - bit) = some (7 - bit) := if_pos (by omega)
  have hadd : Tested.add Tested.sizeLimit left.toNat bit = some (left.toNat + bit) :=
    Tested.add_size (by omega) (by omega)
  simp only [strikeBit, EStateM.run_bind, hsub, hshift, run_need_some]
  by_cases hbit : byte.toNat.testBit (7 - bit)
  · have hone : ¬ (byte >>> UInt8.ofNat (7 - bit)) &&& 1 = 0 := by
      rw [bit_eq_zero_iff byte (by omega), hbit]
      exact Bool.noConfusion
    -- the remainders are the coordinates of a pixel, so row and column exist
    let p := Sprite.place left top bit row
    have hrow : drawn.2[(top.toNat + row) % Frame.height]? = some drawn.2[p.y] :=
      Vector.getElem?_eq_getElem p.y.isLt
    have hlit : drawn.2[p.y][(left.toNat + bit) % Frame.width]? = some (drawn.2.lit p) :=
      Vector.getElem?_eq_getElem p.x.isLt
    have hput : Tested.put drawn.2[p.y] ((left.toNat + bit) % Frame.width) true =
        some (drawn.2[p.y].set p.x true) := dif_pos p.x.isLt
    have hframe : Tested.put drawn.2 ((top.toNat + row) % Frame.height)
        (drawn.2[p.y].set p.x true) = some (drawn.2.light p) := dif_pos p.y.isLt
    simp only [if_neg hone, if_pos hbit, EStateM.run_bind, EStateM.run_get, hadd, hrow, hlit, hput,
      hframe, run_need_some]
    rfl
  · have hzero : (byte >>> UInt8.ofNat (7 - bit)) &&& 1 = 0 :=
      (bit_eq_zero_iff byte (by omega)).mpr (Bool.eq_false_iff.mpr hbit)
    simp only [if_pos hzero, if_neg hbit]
    rfl

theorem run_strikeRow (left top : UInt8) {numbered : UInt8 × Nat} (h : numbered.2 < 15)
    (drawn : Bool × Frame) :
    (strikeRow left.toNat top.toNat drawn.1 numbered).run { b with frame := drawn.2 } =
      let next := ((Sprite.columns numbered.1).map fun column =>
        Sprite.place left top column numbered.2).foldl Sprite.strike drawn
      .ok next.1 { b with frame := next.2 } := by
  have htop := top.toNat_lt
  have hadd : Tested.add Tested.sizeLimit top.toNat numbered.2 = some (top.toNat + numbered.2) :=
    Tested.add_size (by omega) (by omega)
  simp only [strikeRow, EStateM.run_bind, hadd, run_need_some, Sprite.columns, List.foldl_map,
    List.foldl_filter]
  refine run_foldlM _ (fun bit hbit drawn => ?_) drawn
  exact run_strikeBit left top numbered.1 numbered.2 (List.mem_range.mp hbit) drawn

theorem run_strikeRows (left top : UInt8) {rows : List UInt8} (h : rows.length ≤ 15) :
    (rows.zipIdx.foldlM (strikeRow left.toNat top.toNat) false).run b =
      let drawn := Sprite.draw b.frame left top rows
      .ok drawn.1 { b with frame := drawn.2 } := by
  simp only [Sprite.draw, Sprite.pixels, List.foldl_flatMap]
  refine run_foldlM _ (fun numbered hrow drawn => ?_) (false, b.frame)
  have hrow : numbered.2 < rows.length := List.snd_lt_of_mem_zipIdx hrow
  exact run_strikeRow left top (Nat.lt_of_lt_of_le hrow h) drawn

theorem run_setFlag (flag : Bool) :
    (setRegister 0xF flag.toUInt8).run b = .ok () { b with v := b.v.set 0xF flag.toUInt8 } :=
  run_setRegister 0xF flag.toUInt8

theorem Agrees.draw (x y rows : Nibble) :
    Agrees (draw x y rows) (do
      let bytes ← Action.readMemory rows
      modify (·.drawSprite x y bytes.toList)) := by
  intro m
  have hrows : rows.val ≤ 15 := Nat.le_of_lt_succ rows.isLt
  simp only [Guarded.draw, EStateM.run_bind, run_register,
    Agrees.readMemory (Nat.le_succ_of_le hrows) m, Action.run_map, Action.run_readMemory]
  cases m.memory.read m.i rows with
  | error fault => rfl
  | ok bytes =>
    obtain ⟨sprite, hcopy, hslice⟩ :=
      Tested.exists_copy_prefix (Vector.replicate 15 (0 : UInt8)) bytes.length_toList hrows
    have hlen : bytes.toList.length ≤ 15 := by rw [Vector.length_toList]; exact hrows
    simp only [bareResult, hcopy, hslice, run_need_some, run_strikeRows _ _ hlen, run_setFlag]
    rfl

end Guarded

/-! ## Operands of built words -/

namespace Word

theorem maskedN_ofNibbles (f x y n : Nibble) : (ofNibbles f x y n).maskedN = n := by
  rw [maskedN_eq, n_ofNibbles]

theorem maskedNnn_ofAddress (f : Nibble) (nnn : Address) :
    (ofAddress f nnn).maskedNnn = nnn.toUInt16 := by
  rw [maskedNnn_eq, nnn_ofAddress]

end Word

namespace Guarded

variable {b : Bare}

/-! ## Instructions -/

theorem combined_eq (a b : UInt8) (how : Combination) :
    combined a b how = some (how.result a b) := by
  cases how <;> rfl

theorem run_combine (how : Combination) (x y : Nibble) :
    (combine how x y).run b = .ok () { b with v := b.v.combine how x y } := by
  simp only [combine, EStateM.run_bind, run_register, combined_eq, run_need_some, Registers.combine]
  cases how.flag? (b.v.get x) (b.v.get y) with
  | none => exact run_setRegister x _
  | some flag =>
    simp only [EStateM.run_bind, run_setFlag]
    exact run_setRegister x _

theorem run_test (keypad : Keypad) (condition : Condition) :
    (test keypad condition.toWord condition).run b = .ok (condition.test keypad b.v) b := by
  cases condition <;>
    simp only [test, Condition.toWord, Word.x_ofByte, Word.x_ofNibbles, Word.y_ofNibbles,
      EStateM.run_bind, run_digitX, run_digitY, run_register] <;> rfl

theorem run_registerV0 : (register 0).run b = .ok (b.v.get 0) b :=
  run_register 0

theorem tested_jumpByV0 (v0 : UInt8) (nnn : Address) :
    Tested.add UInt16.size v0.toNat nnn.toUInt16.toNat =
      some (v0.toUInt16 + nnn.toUInt16).toNat := by
  have := v0.toNat_lt
  rw [Address.toNat_byte_add, Address.toNat_toUInt16]
  exact if_pos (by rw [UInt16.size]; omega)

theorem tested_glyphAddress (digit : UInt8) :
    ∃ offset, Tested.mul UInt16.size digit.toNat Font.glyphSize.toNat = some offset ∧
      Tested.add UInt16.size Font.start.toNat offset = some (Font.glyphAddress digit).toNat := by
  have := digit.toNat_lt
  rw [Font.toNat_glyphAddress, Nat.mul_comm]
  refine ⟨digit.toNat * 5, if_pos ?_, (if_pos ?_).trans (congrArg some (Nat.zero_add _))⟩
  · show digit.toNat * 5 < 65536
    omega
  · show 0 + digit.toNat * 5 < 65536
    omega

theorem Agrees.execute (keypad : Keypad) (i : Instruction) :
    Agrees (execute keypad i.toWord i) (i.perform keypad) := by
  cases i with
  | clearScreen => exact fun m => rfl
  | returnToCaller => exact Agrees.popCall.bind fun address => Agrees.pure _
  | jump nnn =>
    rw [Instruction.toWord, Guarded.execute, Word.maskedNnn_ofAddress]
    exact Agrees.pure _
  | call nnn =>
    intro m
    simp only [Instruction.toWord, Guarded.execute, Word.maskedNnn_ofAddress, Instruction.perform,
      EStateM.run_bind, EStateM.run_get, Machine.bare_pc, Agrees.pushCall (m.pc + 2) m]
    cases (Action.pushCall (m.pc + 2)).run m <;> rfl
  | skipIf condition =>
    intro m
    simp only [Instruction.toWord, Guarded.execute, EStateM.run_bind, run_test]
    rfl
  | combine how x y =>
    intro m
    simp only [Instruction.toWord, Guarded.execute, EStateM.run_bind, run_digitX, run_digitY,
      Word.x_ofNibbles, Word.y_ofNibbles, run_combine]
    rfl
  | setIndex nnn =>
    rw [Instruction.toWord, Guarded.execute, Word.maskedNnn_ofAddress]
    exact fun m => rfl
  | jumpByV0 nnn =>
    intro m
    simp only [Instruction.toWord, Guarded.execute, Word.maskedNnn_ofAddress, EStateM.run_bind,
      run_registerV0, tested_jumpByV0, run_need_some, UInt16.ofNat_toNat]
    rfl
  | draw x y rows =>
    intro m
    have hdraw := (Agrees.draw x y rows).bind (fun _ => Agrees.pure Flow.next) m
    rw [bind_assoc] at hdraw
    simp only [Instruction.toWord, Guarded.execute, EStateM.run_bind, run_digitX, run_digitY,
      Word.x_ofNibbles, Word.y_ofNibbles, Word.maskedN_ofNibbles]
    exact hdraw
  | awaitKey x =>
    intro m
    simp only [Instruction.toWord, Guarded.execute, Instruction.perform]
    cases keypad.firstDown? with
    | none => rfl
    | some key =>
      simp only [EStateM.run_bind, run_digitX, Word.x_ofByte, run_setRegister]
      rfl
  | pointAtGlyph x =>
    intro m
    obtain ⟨offset, hmul, hadd⟩ := tested_glyphAddress (m.v.get x)
    simp only [Instruction.toWord, Guarded.execute, EStateM.run_bind, run_digitX, Word.x_ofByte,
      run_register, Machine.bare_v, hmul, hadd, run_need_some, UInt16.ofNat_toNat]
    rfl
  | storeDecimal x =>
    intro m
    have hlen : (decimalDigits (m.v.get x)).length ≤ 16 := by simp [decimalDigits]
    simp only [Instruction.toWord, Guarded.execute, Instruction.perform, EStateM.run_bind,
      EStateM.run_get, run_digitX, Word.x_ofByte, run_register, Machine.bare_v,
      Agrees.writeMemory hlen m]
    cases (Action.writeMemory (decimalDigits (m.v.get x))).run m <;> rfl
  | saveRegisters x =>
    intro m
    have hlen : (m.v.upTo x).length ≤ 16 := by rw [m.v.length_upTo]; exact x.isLt
    simp only [Instruction.toWord, Guarded.execute, Instruction.perform, EStateM.run_bind,
      EStateM.run_get, run_digitX, Word.x_ofByte, tested_count, run_need_some, Machine.bare_v,
      slice_upTo, Agrees.writeMemory hlen m]
    cases (Action.writeMemory (m.v.upTo x)).run m <;> rfl
  | restoreRegisters x =>
    intro m
    have hrestore := (Agrees.restoreRegisters x).bind (fun _ => Agrees.pure Flow.next) m
    rw [bind_assoc] at hrestore
    simp only [Instruction.toWord, Guarded.execute, EStateM.run_bind, run_digitX, Word.x_ofByte]
    exact hrestore
  | _ =>
    intro m
    simp only [Instruction.toWord, Guarded.execute, EStateM.run_bind, EStateM.run_get,
      EStateM.run_modify, run_digitX, Word.x_ofByte, run_register, run_setRegister]
    rfl

theorem run_decode (w : Word) : (decode w).run b = .ok (Instruction.ofWord? w) b := by
  have hsame : UInt16.ofNat (0x1000 * w.family + 0x100 * w.x + 0x10 * w.y + w.maskedN) = w := by
    rw [Word.maskedN_eq]
    exact Word.ofNibbles_views rfl
  simp only [decode, EStateM.run_bind, run_family, run_digitX, run_digitY, hsame]
  rfl

theorem Agrees.perform (keypad : Keypad) (w : Word) :
    Agrees (perform keypad w) (w.perform keypad) := by
  intro m
  rw [Guarded.perform, EStateM.run_bind, run_decode]
  cases hi : Instruction.ofWord? w with
  | none =>
    rw [Word.perform_none hi]
    rfl
  | some i =>
    obtain rfl := Instruction.ofWord?_eq_some_iff.mp hi
    rw [Word.perform_eq hi]
    exact Agrees.execute keypad i m

/-! ## Steps -/

theorem tested_next (pc : UInt16) :
    Tested.add Tested.sizeLimit pc.toNat 1 = some (pc.toNat + 1) :=
  Tested.add_size pc.toNat_lt (by omega)

theorem run_resetPc (m : Machine) :
    resetPc.run m.bare = .ok () { m with pc := m.fetchPc }.bare := by
  have hnext := tested_next m.bare.pc
  simp only [resetPc, EStateM.run_bind, EStateM.run_get, hnext, run_need_some, Machine.fetchPc]
  by_cases hin : m.pc.toNat + 1 < Memory.size
  · have hstay : ¬ Memory.size ≤ m.bare.pc.toNat + 1 := Nat.not_le.mpr hin
    rw [if_neg hstay, if_pos hin]
    rfl
  · have hpast : Memory.size ≤ m.bare.pc.toNat + 1 := Nat.not_lt.mp hin
    rw [if_pos hpast, if_neg hin]
    rfl

theorem run_fetch (m : Machine) :
    fetch.run { m with pc := m.fetchPc }.bare = .ok m.fetch { m with pc := m.fetchPc }.bare := by
  let s := ({ m with pc := m.fetchPc } : Machine).bare
  have hin := m.fetchPc_lt
  have hleft : s.memory[s.pc.toNat]? = some m.memory[m.fetchPc.toNat] :=
    Vector.getElem?_eq_getElem _
  have hnext : Tested.add Tested.sizeLimit s.pc.toNat 1 = some (m.fetchPc.toNat + 1) :=
    tested_next m.fetchPc
  have hright : s.memory[m.fetchPc.toNat + 1]? = some m.memory[m.fetchPc.toNat + 1] :=
    Vector.getElem?_eq_getElem hin
  have hshift : Tested.shift 16 8 = some 8 := rfl
  show fetch.run s = .ok m.fetch s
  simp only [fetch, EStateM.run_bind, EStateM.run_get, hleft, hnext, hright, hshift, run_need_some]
  rw [Machine.fetch, Memory.word, Word.ofBytes_eq]
  rfl

end Guarded

def Outcome.bareResult (o : Outcome Fault) : EStateM.Result Stop Bare Unit :=
  match o.fault? with
  | none => .ok () o.machine.bare
  | some fault => .error (.fault fault) o.machine.bare

namespace Guarded

theorem run_step (keypad : Keypad) (m : Machine) :
    (step keypad).run m.bare = (m.step keypad).bareResult := by
  simp only [step, EStateM.run_bind, run_resetPc, run_fetch, Agrees.perform keypad m.fetch _,
    Machine.step]
  cases (m.fetch.perform keypad).run { m with pc := m.fetchPc } with
  | ok flow done => rfl
  | error fault left => rfl

/-- **Steps never crash** on a bare machine whose stack pointer is at most 16: every test of a step
passes. It ends well or with a fault, and as the machine's own step does. -/
theorem step_never_crashes (keypad : Keypad) (b : Bare) (h : b.depth ≤ 16) :
    (∃ after : Bare, after.depth ≤ 16 ∧
      ((step keypad).run b = .ok () after ∨
        ∃ fault, (step keypad).run b = .error (.fault fault) after)) ∧
      (step keypad).run b = ((b.machine h).step keypad).bareResult := by
  let outcome := (b.machine h).step keypad
  have hrun : (step keypad).run b = outcome.bareResult := run_step keypad (b.machine h)
  refine ⟨⟨outcome.machine.bare, outcome.machine.stack.depth_le, ?_⟩, hrun⟩
  rw [hrun, Outcome.bareResult]
  cases outcome.fault? with
  | none => exact Or.inl rfl
  | some fault => exact Or.inr ⟨fault, rfl⟩

theorem step_never_crashes_at_limits :
    let memory := (Machine.ofSeed 0).memory.overlay 0x200 [0xFF, 0x65]
    let b : Bare := { (Machine.ofSeed 0).bare with pc := 0xFFFF, i := 0xFFFF, depth := 16, memory }
    b.depth ≤ 16 ∧ ∃ after : Bare, after.pc = 0x200 ∧
      (step fun _ => false).run b = .error (.fault (.outOfBounds 0xFFFF)) after := by
  intro memory b
  let outcome := (b.machine (Nat.le_refl 16)).step fun _ => false
  have hfault : outcome.fault? = some (.outOfBounds 0xFFFF) := by decide +kernel
  have hrun : (step fun _ => false).run b = outcome.bareResult :=
    (step_never_crashes (fun _ => false) b (Nat.le_refl 16)).2
  refine ⟨Nat.le_refl 16, outcome.machine.bare, ?_, ?_⟩
  · exact congrArg Machine.pc (Machine.machine_step_of_fault hfault)
  · rw [hrun, Outcome.bareResult, hfault]

end Guarded

end Chip8
