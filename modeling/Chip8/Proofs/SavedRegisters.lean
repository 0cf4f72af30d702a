import Chip8.Proofs.Footprint

/-!
# Registers saved and restored

Registers that were saved to memory come back from there, whatever words were performed in between,
as long as none of them writes to memory and the index is the same again. The other way round,
registers that were just restored are saved without a change to memory.
-/

namespace Chip8

/-! ## Bytes read and written again -/

theorem Memory.overlay_read {mem : Memory} {start : UInt16} {length : Nat}
    {bytes : Vector UInt8 length} (h : mem.read start length = .ok bytes) :
    mem.overlay start.toNat bytes.toList = mem := by
  refine Vector.ext fun a ha => ?_
  rw [getElem_overlay]
  split
  · next hle =>
    rw [Vector.getElem?_toList]
    by_cases hk : a - start.toNat < length
    · rw [getElem?_read h hk, Nat.add_sub_cancel' hle, Vector.getElem?_eq_getElem ha,
        Option.getD_some]
    · rw [Vector.getElem?_eq_none (Nat.le_of_not_lt hk), Option.getD_none]
  · rfl

namespace Registers

variable (v : Registers) {x r : Nibble}

theorem getElem?_upTo_of_le (h : r ≤ x) : (v.upTo x)[r.val]? = some (v.get r) := by
  have hr : r.val < x.val + 1 := Nat.lt_succ_of_le h
  rw [upTo, List.getElem?_take_of_lt hr, Vector.getElem?_toList]
  exact Vector.getElem?_eq_getElem r.isLt

theorem get_restore_of_lt {count : Nat} {bytes : Vector UInt8 count} {byte : UInt8}
    (h : bytes[r.val]? = some byte) : (v.restore bytes).get r = byte := by
  show (v.restore bytes)[r.val] = byte
  rw [restore, Vector.getElem_ofFn, h]
  rfl

theorem upTo_restore (bytes : Vector UInt8 (x + 1)) : (v.restore bytes).upTo x = bytes.toList := by
  apply List.ext_getElem
  · rw [length_upTo, Vector.length_toList]
  · intro k hk hk'
    rw [length_upTo] at hk
    have hr : k < 16 := by omega
    have hbyte : bytes[k]? = some bytes[k] := Vector.getElem?_eq_getElem hk
    have hget := (v.restore bytes).getElem?_upTo_of_le (r := ⟨k, hr⟩) (Nat.le_of_lt_succ hk)
    rw [v.get_restore_of_lt (r := ⟨k, hr⟩) hbyte] at hget
    rw [Vector.getElem_toList]
    exact (List.getElem?_eq_some_iff.mp hget).2

end Registers

/-! ## Words performed one after the other -/

/-- A word that is performed, with the keypad and the generator that it meets. -/
structure Execution where
  word : Word
  keypad : Keypad
  random : Generator

namespace Machine

/-- The machine that a performed word leaves, also where it failed. -/
def leave (m : Machine) (e : Execution) : Machine :=
  ({ m with random := e.random }.executeWord e.keypad e.word).2

variable {m : Machine}

theorem memory_leave {e : Execution}
    (h : ∀ z, e.word ≠ .ofByte 0xF z 0x33 ∧ e.word ≠ .ofByte 0xF z 0x55) :
    (m.leave e).memory = m.memory := by
  let ready : Machine := { m with random := e.random }
  cases hrefusal : e.word.refusal? m.stack.depth m.i with
  | some fault =>
    -- a word that fails leaves the machine as it found it
    rw [leave, executeWord, perform_word_of_refusal (m := ready) hrefusal, answer]
  | none =>
    obtain ⟨flow, done, hok⟩ :
        ∃ flow done, (e.word.perform e.keypad).run ready = .ok flow done :=
      perform_word_of_accepted (m := ready) hrefusal
    rw [leave, executeWord, hok, answer]
    refine Vector.ext fun a ha => ?_
    refine (footprint_of_perform_word hok).memory a ha fun hwrites => ?_
    rcases writes_byte_iff.mp hwrites with ⟨z, hz, -⟩ | ⟨z, hz, -⟩
    · exact (h z).1 hz
    · exact (h z).2 hz

theorem memory_foldl_leave {work : List Execution}
    (h : ∀ e ∈ work, ∀ z, e.word ≠ .ofByte 0xF z 0x33 ∧ e.word ≠ .ofByte 0xF z 0x55) :
    (work.foldl leave m).memory = m.memory := by
  induction work generalizing m with
  | nil => rfl
  | cons e work ih =>
    rw [List.forall_mem_cons] at h
    rw [List.foldl_cons, ih h.2, memory_leave h.1]

/-! ## Saving and restoring -/

theorem perform_save {x : Nibble} (hfits : m.i.toNat + (x.val + 1) ≤ Memory.size)
    (keypad : Keypad) :
    ((Word.ofByte 0xF x 0x55).perform keypad).run m =
      .ok .next { m with memory := m.memory.overlay m.i.toNat (m.v.upTo x) } := by
  have hwrite : m.memory.write m.i (m.v.upTo x) =
      .ok (m.memory.overlay m.i.toNat (m.v.upTo x)) :=
    if_pos (by rwa [m.v.length_upTo])
  refine (Word.run_toWord (.saveRegisters x)).trans ?_
  simp only [Instruction.perform, EStateM.run_bind, EStateM.run_get, Action.run_writeMemory, hwrite]
  rfl

theorem perform_restore {x : Nibble} {bytes : Vector UInt8 (x + 1)}
    (hread : m.memory.read m.i (x + 1) = .ok bytes) (keypad : Keypad) :
    ((Word.ofByte 0xF x 0x65).perform keypad).run m =
      .ok .next { m with v := m.v.restore bytes } := by
  refine (Word.run_toWord (.restoreRegisters x)).trans ?_
  simp only [Instruction.perform, EStateM.run_bind, Action.run_readMemory, hread]
  rfl

theorem perform_restore_of_written {s : Machine} {bytes : List UInt8} {y : Nibble}
    (hfits : s.i.toNat + bytes.length ≤ Memory.size)
    (hwritten : ∃ mem, s.memory = Memory.overlay mem s.i.toNat bytes) (hy : y.val < bytes.length)
    (keypad : Keypad) :
    ∃ restored,
      ((Word.ofByte 0xF y 0x65).perform keypad).run s = .ok .next { s with v := restored } ∧
      (∀ r ≤ y, bytes[r.val]? = some (restored.get r)) ∧
      ∀ r, y < r → restored.get r = s.v.get r := by
  obtain ⟨read, hread⟩ : ∃ read, s.memory.read s.i (y + 1) = .ok read := ⟨_, dif_pos (by omega)⟩
  obtain ⟨mem, hmem⟩ := hwritten
  refine ⟨_, perform_restore hread keypad, fun r hr => ?_, fun r hr => ?_⟩
  · have hle : r.val ≤ y.val := hr
    have hlt : r.val < bytes.length := Nat.lt_of_le_of_lt hle hy
    have hbyte : read[r.val]? = some bytes[r.val] := by
      rw [Memory.getElem?_read hread (Nat.lt_succ_of_le hle), hmem,
        Memory.getElem?_overlay_of_lt hfits hlt, List.getElem?_eq_getElem hlt]
    rw [Registers.get_restore_of_lt _ hbyte, List.getElem?_eq_getElem hlt]
  · exact Registers.get_restore_of_le _ _ hr

theorem perform_restore_of_saved {s : Machine} {v : Registers} {x y : Nibble}
    (hfits : s.i.toNat + (x.val + 1) ≤ Memory.size)
    (hsaved : ∃ mem, s.memory = Memory.overlay mem s.i.toNat (v.upTo x)) (hy : y ≤ x)
    (keypad : Keypad) :
    ∃ restored,
      ((Word.ofByte 0xF y 0x65).perform keypad).run s = .ok .next { s with v := restored } ∧
      (∀ r ≤ y, restored.get r = v.get r) ∧ ∀ r, y < r → restored.get r = s.v.get r := by
  rw [← v.length_upTo x] at hfits
  have hcount : y.val < (v.upTo x).length := by
    rw [v.length_upTo]
    exact Nat.lt_succ_of_le hy
  obtain ⟨restored, hrun, hback, hkept⟩ := perform_restore_of_written hfits hsaved hcount keypad
  refine ⟨restored, hrun, fun r hr => ?_, hkept⟩
  have hbyte := hback r hr
  rw [v.getElem?_upTo_of_le (Nat.le_trans hr hy)] at hbyte
  exact (Option.some.inj hbyte).symm

/-- **Saved registers come back,** as many as are asked for, after any words that do not write to
memory, failed ones too, with the index where it was. Registers that were restored are saved again
without a change. -/
theorem saved_registers_come_back (m : Machine) (x : Nibble)
    (hfits : m.i.toNat + x.val + 1 ≤ 4096) :
    (∀ keypad, ∃ memory,
      ((Word.ofByte 0xF x 0x55).perform keypad).run m = .ok .next { m with memory } ∧
      ∀ work : List Execution,
        (∀ e ∈ work, ∀ z, e.word ≠ .ofByte 0xF z 0x33 ∧ e.word ≠ .ofByte 0xF z 0x55) →
        let s := work.foldl leave { m with memory }
        s.i = m.i → ∀ y ≤ x, ∀ keypad', ∃ v,
          ((Word.ofByte 0xF y 0x65).perform keypad').run s = .ok .next { s with v } ∧
          (∀ r ≤ y, v.get r = m.v.get r) ∧ ∀ r, y < r → v.get r = s.v.get r) ∧
      ∀ keypad keypad', ∃ v,
        ((Word.ofByte 0xF x 0x65).perform keypad).run m = .ok .next { m with v } ∧
        ((Word.ofByte 0xF x 0x55).perform keypad').run { m with v } = .ok .next { m with v } := by
  constructor
  · intro keypad
    refine ⟨_, perform_save hfits keypad, ?_⟩
    intro work hwork s hindex y hy keypad'
    have hmemory : s.memory = m.memory.overlay m.i.toNat (m.v.upTo x) := memory_foldl_leave hwork
    exact perform_restore_of_saved (hindex ▸ hfits) ⟨_, hindex ▸ hmemory⟩ hy keypad'
  · intro keypad keypad'
    obtain ⟨bytes, hread⟩ : ∃ bytes, m.memory.read m.i (x + 1) = .ok bytes := ⟨_, dif_pos hfits⟩
    refine ⟨_, perform_restore hread keypad, ?_⟩
    have hsave := perform_save (m := { m with v := m.v.restore bytes }) hfits keypad'
    rwa [Registers.upTo_restore, Memory.overlay_read hread] at hsave

theorem saved_registers_come_back_at_end :
    let keypad : Keypad := fun _ => false
    let m : Machine := { ofSeed 0 with v := Vector.ofFn fun r => UInt8.ofNat (r + 7), i := 0xFF0 }
    let work : List Execution :=
      [⟨0x6000, keypad, .ofSeed 0⟩, ⟨0xA123, keypad, .ofSeed 0⟩, ⟨0x00EE, keypad, .ofSeed 0⟩,
        ⟨0xC1FF, keypad, .ofSeed 5⟩, ⟨0x6200, keypad, .ofSeed 5⟩, ⟨0xAFF0, keypad, .ofSeed 5⟩]
    m.i.toNat + (0xF : Nibble).val + 1 ≤ 4096 ∧
      ∃ memory v,
        ((Word.ofByte 0xF 0xF 0x55).perform keypad).run m = .ok .next { m with memory } ∧
        let s := work.foldl leave { m with memory }
        s.i = m.i ∧ ((Word.ofByte 0xF 1 0x65).perform keypad).run s = .ok .next { s with v } ∧
          v.get 1 = 8 ∧ v.get 2 = 0 := by
  intro keypad m work
  have hfits : m.i.toNat + (0xF : Nibble).val + 1 ≤ 4096 := by decide
  obtain ⟨memory, hsave, hback⟩ := (saved_registers_come_back m 0xF hfits).1 keypad
  have hwork : ∀ e ∈ work, ∀ z, e.word ≠ .ofByte 0xF z 0x33 ∧ e.word ≠ .ofByte 0xF z 0x55 := by
    intro e he
    obtain rfl | rfl | rfl | rfl | rfl | rfl := by simpa [work] using he
    all_goals decide
  have hindex : (work.foldl leave { m with memory }).i = 0xFF0 := by
    simp only [work, List.foldl_cons, List.foldl_nil, leave]
    rfl
  have hzero : (work.foldl leave { m with memory }).v.get 2 = 0 := by
    simp only [work, List.foldl_cons, List.foldl_nil, leave]
    rfl
  obtain ⟨v, hrestore, hsaved, hkept⟩ := hback work hwork hindex 1 (by decide) keypad
  have hone : v.get 1 = 8 := hsaved 1 (by decide)
  have htwo : v.get 2 = 0 := (hkept 2 (by decide)).trans hzero
  exact ⟨hfits, memory, v, hsave, hindex, hrestore, hone, htwo⟩

end Machine

end Chip8
