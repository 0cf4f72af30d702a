import Chip8.Proofs.Bounds
import Chip8.Proofs.StraightLine

/-!
# Where control goes

After most words control goes on to the word that follows. `Redirects` lists the words after which
it goes elsewhere, each with its condition and the place, as a number that is not cut off. The six
words that skip come in pairs, of which one skips exactly where the other does not.
-/

namespace Chip8

inductive Skips (keypad : Keypad) (v : Registers) : Word → Prop
  | holds (x : Nibble) (nn : UInt8) : v.get x = nn → Skips keypad v (.ofByte 0x3 x nn)
  | holdsNot (x : Nibble) (nn : UInt8) : v.get x ≠ nn → Skips keypad v (.ofByte 0x4 x nn)
  | equal (x y : Nibble) : v.get x = v.get y → Skips keypad v (.ofNibbles 0x5 x y 0x0)
  | differ (x y : Nibble) : v.get x ≠ v.get y → Skips keypad v (.ofNibbles 0x9 x y 0x0)
  | keyDown (x : Nibble) : keypad (v.get x) = true → Skips keypad v (.ofByte 0xE x 0x9E)
  | keyUp (x : Nibble) : keypad (v.get x) = false → Skips keypad v (.ofByte 0xE x 0xA1)

/-- After a word at `p`, control does not go on to the word that follows, but to `target`. -/
inductive Redirects (keypad : Keypad) (v : Registers) (stack : CallStack) (p : Nat) :
    Word → Nat → Prop
  | jump (nnn : Address) : Redirects keypad v stack p (.ofAddress 0x1 nnn) nnn
  | call (nnn : Address) : Redirects keypad v stack p (.ofAddress 0x2 nnn) nnn
  | jumpByV0 (nnn : Address) :
      Redirects keypad v stack p (.ofAddress 0xB nnn) (nnn + (v.get 0).toNat)
  | returnToCaller (top : Nat) (address : UInt16) : stack.depth = top + 1 →
      stack.slots[top]? = some address → Redirects keypad v stack p 0x00EE address.toNat
  | awaitKey (x : Nibble) : (∀ key : Nibble, keypad (UInt8.ofNat key) = false) →
      Redirects keypad v stack p (.ofByte 0xF x 0x0A) p
  | skip (w : Word) : Skips keypad v w → Redirects keypad v stack p w (p + 4)

/-- Two words that skip on opposite conditions. -/
inductive Opposite : Word → Word → Prop
  | holds (x : Nibble) (nn : UInt8) : Opposite (.ofByte 0x3 x nn) (.ofByte 0x4 x nn)
  | equal (x y : Nibble) : Opposite (.ofNibbles 0x5 x y 0x0) (.ofNibbles 0x9 x y 0x0)
  | keyDown (x : Nibble) : Opposite (.ofByte 0xE x 0x9E) (.ofByte 0xE x 0xA1)

variable {keypad : Keypad} {m done : Machine} {flow : Flow} {w : Word}

/-! ## Skips -/

theorem Skips.exists_condition {v : Registers} (h : Skips keypad v w) :
    ∃ condition : Condition, w = condition.toWord ∧ condition.test keypad v = true := by
  cases h with
  | holds x nn h => exact ⟨.holds x nn, rfl, decide_eq_true h⟩
  | holdsNot x nn h => exact ⟨.holdsNot x nn, rfl, decide_eq_true h⟩
  | equal x y h => exact ⟨.equal x y, rfl, decide_eq_true h⟩
  | differ x y h => exact ⟨.differ x y, rfl, decide_eq_true h⟩
  | keyDown x h => exact ⟨.keyDown x, rfl, h⟩
  | keyUp x h => exact ⟨.keyUp x, rfl, congrArg not h⟩

theorem Opposite.exists_conditions {w' : Word} (h : Opposite w w') :
    ∃ condition other : Condition, w = condition.toWord ∧ w' = other.toWord ∧
      ∀ keypad v, other.test keypad v = !condition.test keypad v := by
  cases h with
  | holds x nn => exact ⟨.holds x nn, .holdsNot x nn, rfl, rfl, fun _ _ => decide_not⟩
  | equal x y => exact ⟨.equal x y, .differ x y, rfl, rfl, fun _ _ => decide_not⟩
  | keyDown x => exact ⟨.keyDown x, .keyUp x, rfl, rfl, fun _ _ => rfl⟩

namespace Condition

variable (condition : Condition)

theorem skips_toWord {v : Registers} (h : condition.test keypad v = true) :
    Skips keypad v condition.toWord := by
  cases condition with
  | holds x nn => exact .holds x nn (of_decide_eq_true h)
  | holdsNot x nn => exact .holdsNot x nn (of_decide_eq_true h)
  | equal x y => exact .equal x y (of_decide_eq_true h)
  | differ x y => exact .differ x y (of_decide_eq_true h)
  | keyDown x => exact .keyDown x h
  | keyUp x => exact .keyUp x (Bool.not_eq_true' _ ▸ h)

theorem perform_toWord (keypad : Keypad) (m : Machine) :
    (condition.toWord.perform keypad).run m =
      .ok (if condition.test keypad m.v then .skip else .next) m :=
  Word.run_toWord (.skipIf condition)

end Condition

/-! ## The flow after a word -/

theorem CallStack.getElem?_of_pop {s t : CallStack} {address : UInt16}
    (h : s.pop = .ok (address, t)) : s.slots[t.depth]? = some address := by
  unfold pop at h
  split at h
  · cases h
  · cases h
    exact Vector.getElem?_eq_getElem _

theorem Redirects.target_eq {p target : Nat} (h : Redirects keypad m.v m.stack p w target)
    (hrun : (w.perform keypad).run m = .ok flow done) : flow.target p = target := by
  cases h with
  | jump nnn =>
    cases (Word.run_toWord (.jump nnn)).symm.trans hrun
    exact nnn.toNat_toUInt16
  | call nnn =>
    have hcall := (Word.run_toWord (.call nnn)).symm.trans hrun
    obtain ⟨_, _, rfl, -⟩ := Instruction.perform_call hcall
    exact nnn.toNat_toUInt16
  | jumpByV0 nnn =>
    cases (Word.run_toWord (.jumpByV0 nnn)).symm.trans hrun
    exact (Address.toNat_byte_add _ nnn).trans (Nat.add_comm _ _)
  | returnToCaller top address hdepth haddress =>
    have hreturn := (Word.run_toWord .returnToCaller).symm.trans hrun
    obtain ⟨popped, stack, hpop, rfl, -⟩ := Instruction.perform_returnToCaller hreturn
    obtain rfl : stack.depth = top := Nat.succ_inj.mp ((CallStack.pop_ok hpop).1.trans hdepth)
    cases (CallStack.getElem?_of_pop hpop).symm.trans haddress
    rfl
  | awaitKey x hup =>
    have hawait := (Word.run_toWord (.awaitKey x)).symm.trans hrun
    rcases Instruction.perform_awaitKey hawait with ⟨-, rfl, -⟩ | ⟨key, hkey, -, -⟩
    · rfl
    · rw [Keypad.firstDown?_eq_none_iff.mpr hup] at hkey
      cases hkey
  | skip _ hskips =>
    obtain ⟨condition, rfl, htest⟩ := hskips.exists_condition
    rw [condition.perform_toWord, if_pos htest] at hrun
    cases hrun
    rfl

theorem Word.Branches.flow_eq_next (h : w.Branches) {p : Nat}
    (hstays : ∀ target, ¬ Redirects keypad m.v m.stack p w target)
    (hrun : (w.perform keypad).run m = .ok flow done) : flow = .next := by
  -- the six conditions are one case: a test that holds would redirect
  have hskip : ∀ condition : Condition, w = condition.toWord → flow = .next := by
    rintro condition rfl
    have htest : ¬ condition.test keypad m.v = true := fun h =>
      hstays _ (.skip _ (condition.skips_toWord h))
    rw [condition.perform_toWord, if_neg htest] at hrun
    cases hrun
    rfl
  cases h with
  | returnToCaller =>
    have hreturn := (Word.run_toWord .returnToCaller).symm.trans hrun
    obtain ⟨address, stack, hpop, -⟩ := Instruction.perform_returnToCaller hreturn
    exact absurd (.returnToCaller stack.depth address (CallStack.pop_ok hpop).1.symm
      (CallStack.getElem?_of_pop hpop)) (hstays address.toNat)
  | jump nnn => exact absurd (.jump nnn) (hstays nnn)
  | call nnn => exact absurd (.call nnn) (hstays nnn)
  | jumpByV0 nnn => exact absurd (.jumpByV0 nnn) (hstays _)
  | holds x nn => exact hskip (.holds x nn) rfl
  | holdsNot x nn => exact hskip (.holdsNot x nn) rfl
  | equal x y => exact hskip (.equal x y) rfl
  | differ x y => exact hskip (.differ x y) rfl
  | keyDown x => exact hskip (.keyDown x) rfl
  | keyUp x => exact hskip (.keyUp x) rfl
  | awaitKey x =>
    have hawait := (Word.run_toWord (.awaitKey x)).symm.trans hrun
    rcases Instruction.perform_awaitKey hawait with ⟨hup, -, -⟩ | ⟨key, -, rfl, -⟩
    · exact absurd (.awaitKey x (Keypad.firstDown?_eq_none_iff.mp hup)) (hstays p)
    · rfl

theorem Word.flow_eq_next {p : Nat} (hstays : ∀ target, ¬ Redirects keypad m.v m.stack p w target)
    (hrun : (w.perform keypad).run m = .ok flow done) : flow = .next := by
  by_cases hbranches : w.Branches
  · exact hbranches.flow_eq_next hstays hrun
  · have hsame := w.perform_of_straight hbranches keypad keypad m m.pc
    rw [hrun] at hsame
    exact (EStateM.Result.ok.inj hsame).1

/-! ## Steps -/

namespace Machine

theorem toNat_fetchPc (m : Machine) :
    m.fetchPc.toNat = if m.pc.toNat ≤ 4094 then m.pc.toNat else 0x200 := by
  rw [fetchPc_eq]
  split <;> rfl

theorem perform_fetch_of_condition {condition : Condition} (h : m.fetch = condition.toWord)
    (keypad : Keypad) :
    (m.fetch.perform keypad).run { m with pc := m.fetchPc } =
      .ok (if condition.test keypad m.v then .skip else .next) { m with pc := m.fetchPc } := by
  rw [h]
  exact condition.perform_toWord keypad _

theorem pc_step_of_skip {condition : Condition} (h : m.fetch = condition.toWord) :
    (m.step keypad).machine.pc.toNat =
      m.fetchPc.toNat + if condition.test keypad m.v then 4 else 2 := by
  rw [pc_step_of_ok (perform_fetch_of_condition h keypad)]
  cases condition.test keypad m.v <;> rfl

theorem step_of_condition (condition : Condition) (h : m.fetch = condition.toWord)
    (keypad : Keypad) :
    m.step keypad = ⟨{ m with
      pc := m.fetchPc + if condition.test keypad m.v then 4 else 2 }, m.stepLog, none⟩ := by
  rw [step, perform_fetch_of_condition h keypad]
  cases condition.test keypad m.v <;> rfl

/-- **Where control goes after a step:** to where the word redirects it, and else to the word that
follows. Of two words with opposite conditions, at one place of the same machine, one skips and the
other does not. -/
theorem control_redirected_or_next (m : Machine) (keypad : Keypad) :
    let p := if m.pc.toNat ≤ 4094 then m.pc.toNat else 0x200
    ((m.step keypad).fault? = none →
        (∀ target, Redirects keypad m.v m.stack p m.fetch target →
          (m.step keypad).machine.pc.toNat = target) ∧
        ((∀ target, ¬ Redirects keypad m.v m.stack p m.fetch target) →
          (m.step keypad).machine.pc.toNat = p + 2)) ∧
      ∀ mem mem' : Memory,
        Opposite { m with memory := mem }.fetch { m with memory := mem' }.fetch →
        let pc := ({ m with memory := mem }.step keypad).machine.pc.toNat
        let pc' := ({ m with memory := mem' }.step keypad).machine.pc.toNat
        (pc = p + 4 ∧ pc' = p + 2) ∨ (pc = p + 2 ∧ pc' = p + 4) := by
  intro p
  have hp : m.fetchPc.toNat = p := m.toNat_fetchPc
  constructor
  · intro hfault
    let ready : Machine := { m with pc := m.fetchPc }
    obtain ⟨flow, done, hrun⟩ : ∃ flow done, (m.fetch.perform keypad).run ready = .ok flow done :=
      perform_of_step_accepted hfault
    have hpc := pc_step_of_ok hrun
    rw [hp] at hpc
    constructor
    · intro target hredirects
      rw [hpc]
      exact Redirects.target_eq (m := ready) hredirects hrun
    · intro hstays
      rw [hpc, Word.flow_eq_next (m := ready) hstays hrun]
      rfl
  · intro mem mem' hopposite pc pc'
    obtain ⟨condition, other, hw, hw', htest⟩ := hopposite.exists_conditions
    have hpc : pc = p + _ := hp ▸ pc_step_of_skip hw
    have hpc' : pc' = p + _ := hp ▸ pc_step_of_skip hw'
    rw [hpc, hpc', htest]
    cases condition.test keypad m.v <;> simp

/-- A return from past the end of memory, and the two words that ask for a key which is none of the
sixteen, though the keypad has it down. -/
theorem control_redirected_or_next_past_end :
    let keypad : Keypad := fun key => key = 0x15
    let program := fun bytes => (ofSeed 0).memory.overlay 0x200 bytes
    let m : Machine := { ofSeed 0 with
      v := Vector.replicate 16 0x15
      pc := 4095
      stack := ⟨Vector.replicate 16 0x300, 2, by decide⟩
      memory := program [0x00, 0xEE] }
    let down : Machine := { m with memory := program [0xE1, 0x9E] }
    let up : Machine := { m with memory := program [0xE1, 0xA1] }
    (m.step keypad).fault? = none ∧ Redirects keypad m.v m.stack 0x200 m.fetch 0x300 ∧
      (m.step keypad).machine.pc.toNat = 0x300 ∧ Opposite down.fetch up.fetch ∧
      (down.step keypad).machine.pc.toNat = 0x204 ∧ (up.step keypad).machine.pc.toNat = 0x202 := by
  intro keypad program m down up
  obtain ⟨hfault, hreturn, hdown, hup, hskips⟩ :
      (m.step keypad).fault? = none ∧ m.fetch = 0x00EE ∧ down.fetch = .ofByte 0xE 1 0x9E ∧
        up.fetch = .ofByte 0xE 1 0xA1 ∧ (down.step keypad).machine.pc ≠ 0x202 := by
    decide +kernel
  have hredirects : Redirects keypad m.v m.stack 0x200 m.fetch 0x300 := by
    rw [hreturn]
    exact .returnToCaller 1 0x300 rfl rfl
  have hopposite : Opposite down.fetch up.fetch := by
    rw [hdown, hup]
    exact .keyDown 1
  obtain ⟨hgoes, hone⟩ := control_redirected_or_next m keypad
  have hpc := (hgoes hfault).1 0x300 hredirects
  have hpair := (hone down.memory up.memory hopposite).resolve_right fun h =>
    hskips (UInt16.toNat_inj.mp h.1)
  exact ⟨hfault, hredirects, hpc, hopposite, hpair⟩

end Machine

end Chip8
