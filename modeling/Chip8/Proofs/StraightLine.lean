import Chip8.Proofs.Footprint
import Mathlib.Data.List.Infix

/-!
# Programs without branches

A program whose words neither branch nor wait, and which does not write over itself, is executed by
steps just as its words are executed one after the other: the same machine comes out but for the
counter, which goes from word to word, and the same word fails with the same fault.
-/

namespace Chip8

namespace Word

def high (w : Word) : UInt8 := UInt8.ofNat (w.toNat / 0x100)

def low (w : Word) : UInt8 := UInt8.ofNat w.toNat

def bytes (ws : List Word) : List UInt8 :=
  ws.flatMap fun w => [w.high, w.low]

theorem ofBytes_high_low (w : Word) : ofBytes w.high w.low = w := by
  have := w.toNat_lt
  rw [← UInt16.toNat_inj, toNat_ofBytes, high, low, UInt8.toNat_ofNat', UInt8.toNat_ofNat']
  omega

theorem length_halves (w : Word) : [w.high, w.low].length = 2 := rfl

theorem length_bytes (ws : List Word) : (bytes ws).length = 2 * ws.length :=
  length_flatMap_of_length length_halves ws

theorem getElem?_bytes {ws : List Word} {k : Nat} {w : Word} (h : ws[k]? = some w) :
    (bytes ws)[2 * k]? = some w.high ∧ (bytes ws)[2 * k + 1]? = some w.low := by
  have hbyte : ∀ j < 2, (bytes ws)[2 * k + j]? = [w.high, w.low][j]? := by
    intro j hj
    rw [bytes, getElem?_flatMap_of_length length_halves ws k hj, h]
    rfl
  exact ⟨hbyte 0 (by decide), hbyte 1 (by decide)⟩

/-- The words after which control need not go on to the next word. -/
inductive Branches : Word → Prop
  | returnToCaller : Branches 0x00EE
  | jump (nnn : Address) : Branches (.ofAddress 0x1 nnn)
  | call (nnn : Address) : Branches (.ofAddress 0x2 nnn)
  | holds (x : Nibble) (nn : UInt8) : Branches (.ofByte 0x3 x nn)
  | holdsNot (x : Nibble) (nn : UInt8) : Branches (.ofByte 0x4 x nn)
  | equal (x y : Nibble) : Branches (.ofNibbles 0x5 x y 0x0)
  | differ (x y : Nibble) : Branches (.ofNibbles 0x9 x y 0x0)
  | jumpByV0 (nnn : Address) : Branches (.ofAddress 0xB nnn)
  | keyDown (x : Nibble) : Branches (.ofByte 0xE x 0x9E)
  | keyUp (x : Nibble) : Branches (.ofByte 0xE x 0xA1)
  | awaitKey (x : Nibble) : Branches (.ofByte 0xF x 0x0A)

end Word

/-! ## Words that do not branch -/

namespace Instruction

def branches : Instruction → Bool
  | returnToCaller => true
  | jump _ => true
  | call _ => true
  | skipIf _ => true
  | jumpByV0 _ => true
  | awaitKey _ => true
  | _ => false

variable {keypad : Keypad} {m done : Machine} {flow : Flow} {i : Instruction}

theorem perform_of_straight (hi : i.branches = false) (keypad keypad' : Keypad) (m : Machine)
    (pc : UInt16) :
    (i.perform keypad').run { m with pc } =
      match (i.perform keypad).run m with
      | .ok _ done => .ok .next { done with pc }
      | .error fault left => .error fault { left with pc } := by
  cases i with
  | returnToCaller | jump | call | skipIf | jumpByV0 | awaitKey => cases hi
  | draw x y rows =>
    simp only [perform, EStateM.run_bind, Action.run_readMemory]
    cases m.memory.read m.i rows <;> rfl
  | restoreRegisters x =>
    simp only [perform, EStateM.run_bind, Action.run_readMemory]
    cases m.memory.read m.i (x + 1) <;> rfl
  | storeDecimal x =>
    simp only [perform, EStateM.run_bind, EStateM.run_get, Action.run_writeMemory]
    cases m.memory.write m.i (decimalDigits (m.v.get x)) <;> rfl
  | saveRegisters x =>
    simp only [perform, EStateM.run_bind, EStateM.run_get, Action.run_writeMemory]
    cases m.memory.write m.i (m.v.upTo x) <;> rfl
  | _ => rfl

end Instruction

namespace Word

theorem branches_iff {w : Word} :
    w.Branches ↔ (Instruction.ofWord? w).any Instruction.branches = true := by
  rw [Instruction.any_ofWord?_iff]
  constructor
  · intro h
    cases h with
    | returnToCaller => exact ⟨.returnToCaller, rfl, rfl⟩
    | jump nnn => exact ⟨.jump nnn, rfl, rfl⟩
    | call nnn => exact ⟨.call nnn, rfl, rfl⟩
    | holds x nn => exact ⟨.skipIf (.holds x nn), rfl, rfl⟩
    | holdsNot x nn => exact ⟨.skipIf (.holdsNot x nn), rfl, rfl⟩
    | equal x y => exact ⟨.skipIf (.equal x y), rfl, rfl⟩
    | differ x y => exact ⟨.skipIf (.differ x y), rfl, rfl⟩
    | jumpByV0 nnn => exact ⟨.jumpByV0 nnn, rfl, rfl⟩
    | keyDown x => exact ⟨.skipIf (.keyDown x), rfl, rfl⟩
    | keyUp x => exact ⟨.skipIf (.keyUp x), rfl, rfl⟩
    | awaitKey x => exact ⟨.awaitKey x, rfl, rfl⟩
  · rintro ⟨i, rfl, hi⟩
    cases i with
    | returnToCaller => exact .returnToCaller
    | jump nnn => exact .jump nnn
    | call nnn => exact .call nnn
    | skipIf condition =>
      cases condition with
      | holds x nn => exact .holds x nn
      | holdsNot x nn => exact .holdsNot x nn
      | equal x y => exact .equal x y
      | differ x y => exact .differ x y
      | keyDown x => exact .keyDown x
      | keyUp x => exact .keyUp x
    | jumpByV0 nnn => exact .jumpByV0 nnn
    | awaitKey x => exact .awaitKey x
    | _ => cases hi

instance (w : Word) : Decidable w.Branches :=
  decidable_of_iff _ branches_iff.symm

theorem perform_of_straight {w : Word} (hw : ¬ w.Branches) (keypad keypad' : Keypad) (m : Machine)
    (pc : UInt16) :
    (w.perform keypad').run { m with pc } =
      match (w.perform keypad).run m with
      | .ok _ done => .ok .next { done with pc }
      | .error fault left => .error fault { left with pc } := by
  rw [branches_iff] at hw
  cases hi : Instruction.ofWord? w with
  | none => rw [perform_none hi, perform_none hi]; rfl
  | some i =>
    rw [hi, Option.any_some, Bool.not_eq_true] at hw
    rw [perform_eq hi, perform_eq hi]
    exact Instruction.perform_of_straight hw keypad keypad' m pc

end Word

namespace Machine

variable {m done next : Machine} {w : Word} {keypad : Keypad} {flow : Flow} {fault : Fault}

/-! ## A step on a word that does not branch -/

section
variable {pc : UInt16} (hpc : pc.toNat + 1 < Memory.size) (hw : ¬ w.Branches)
  (hfetch : { m with pc }.fetch = w)
include hpc hw hfetch

theorem step_of_straight_ok (h : m.executeWord keypad w = (.ok flow, next)) (keypad' : Keypad) :
    ({ m with pc }.step keypad').fault? = none ∧
      ({ m with pc }.step keypad').machine = { next with pc := pc + 2 } := by
  have hstays : { m with pc }.fetchPc = pc := if_pos hpc
  have hrun := w.perform_of_straight hw keypad keypad' m pc
  rw [answer_eq_ok_iff.mp h] at hrun
  simp only [step, hfetch, hstays, hrun]
  exact ⟨trivial, rfl⟩

theorem step_of_straight_error (h : (m.executeWord keypad w).1 = .error fault) (keypad' : Keypad) :
    ({ m with pc }.step keypad').fault? = some fault ∧
      ({ m with pc }.step keypad').machine.pc = pc := by
  have hstays : { m with pc }.fetchPc = pc := if_pos hpc
  have hrun := w.perform_of_straight hw keypad keypad' m pc
  obtain ⟨left, hleft⟩ := answer_eq_error_iff.mp h
  rw [hleft] at hrun
  simp only [step, hfetch, hstays, hrun]
  exact ⟨trivial, trivial⟩

end

/-! ## Programs in memory -/

def HoldsCode (ws : List Word) (m : Machine) : Prop :=
  ∀ k byte, (Word.bytes ws)[k]? = some byte → m.memory[0x200 + k]? = some byte

theorem holdsCode_loadProgram (m : Machine) {ws : List Word} (h : 2 * ws.length ≤ 3584) :
    (m.loadProgram (Word.bytes ws)).fault? = none ∧
      HoldsCode ws (m.loadProgram (Word.bytes ws)).machine := by
  have hlen := Word.length_bytes ws
  have hfits : programStart.toNat + (Word.bytes ws).length ≤ Memory.size := by
    show 0x200 + (Word.bytes ws).length ≤ 4096
    omega
  rw [loadProgram, load, if_pos hfits]
  refine ⟨rfl, fun k byte hk => ?_⟩
  obtain ⟨hlt, -⟩ := List.getElem?_eq_some_iff.mp hk
  exact (Memory.getElem?_overlay_of_lt hfits hlt).trans hk

theorem fetch_of_holdsCode {ws : List Word} (h : HoldsCode ws m) {k : Nat} (hk : ws[k]? = some w)
    (hpc : m.fetchPc.toNat = 0x200 + 2 * k) : m.fetch = w := by
  obtain ⟨hhigh, hlow⟩ := Word.getElem?_bytes hk
  have hhigh := h _ _ hhigh
  have hlow := h _ _ hlow
  simp only [← Nat.add_assoc, ← hpc] at hhigh hlow
  obtain ⟨_, hhigh⟩ := Vector.getElem?_eq_some_iff.mp hhigh
  obtain ⟨_, hlow⟩ := Vector.getElem?_eq_some_iff.mp hlow
  rw [fetch, Memory.word, hhigh, hlow, Word.ofBytes_high_low]

theorem holdsCode_of_footprint {ws : List Word} (h : HoldsCode ws m) (hkept : Footprint w m next)
    (hspares : ∀ a, Writes m.i w (.byte a) → a < 0x200 ∨ 0x200 + 2 * ws.length ≤ a) :
    HoldsCode ws next := by
  intro k byte hk
  have hlen := Word.length_bytes ws
  obtain ⟨hlt, -⟩ := List.getElem?_eq_some_iff.mp hk
  obtain ⟨ha, hbyte⟩ := Vector.getElem?_eq_some_iff.mp (h k byte hk)
  rw [Vector.getElem?_eq_some_iff]
  refine ⟨ha, (hkept.memory _ ha fun hwrites => ?_).trans hbyte⟩
  have := hspares _ hwrites
  omega

/-! ## Words executed in order -/

/-- The words are executed one after the other, each with some keypad; the counter stays. -/
inductive Executes (m : Machine) : List Word → Machine → Prop
  | none : Executes m [] m
  | next {past : List Word} {done next : Machine} {w : Word} {keypad : Keypad} {flow : Flow} :
      Executes m past done → done.executeWord keypad w = (.ok flow, next) →
      Executes m (past ++ [w]) next

theorem executes_nil (h : m.Executes [] done) : done = m := by
  generalize hnil : ([] : List Word) = past at h
  cases h with
  | none => rfl
  | next => simp at hnil

/-- No word that is executed in order writes to where the words lie. -/
def SparesCode (m : Machine) (ws : List Word) : Prop :=
  ∀ k w done, ws[k]? = some w → m.Executes (ws.take k) done →
    ∀ keypad next flow, done.executeWord keypad w = (.ok flow, next) →
    ∀ a, Writes done.i w (.byte a) → a < 0x200 ∨ 0x200 + 2 * ws.length ≤ a

def place (k : Nat) : UInt16 :=
  UInt16.ofNat (0x200 + 2 * k)

theorem place_succ (k : Nat) : place (k + 1) = place k + 2 := by
  rw [place, place, Nat.mul_succ, ← Nat.add_assoc, UInt16.ofNat_add]
  rfl

theorem toNat_place {k : Nat} (h : 2 * k ≤ 3584) : (place k).toNat = 0x200 + 2 * k := by
  rw [place, UInt16.toNat_ofNat']
  omega

section
variable {ws past : List Word}

theorem holdsCode_of_executes (hcode : HoldsCode ws m) (hspares : m.SparesCode ws)
    (h : m.Executes past done) (hpast : past <+: ws) : HoldsCode ws done := by
  induction h with
  | none => exact hcode
  | @next past done next w keypad flow hdone hexec ih =>
    have hprefix : past <+: ws := (List.prefix_append _ _).trans hpast
    obtain ⟨rest, rfl⟩ := hpast
    have hk : (past ++ [w] ++ rest)[past.length]? = some w := by simp
    have htake : (past ++ [w] ++ rest).take past.length = past :=
      (List.prefix_iff_eq_take.mp hprefix).symm
    refine holdsCode_of_footprint (ih hprefix)
      (footprint_of_perform_word (answer_eq_ok_iff.mp hexec)) ?_
    exact hspares _ w done hk (by rwa [htake]) keypad next flow hexec

theorem fetch_at_place (hfits : 2 * ws.length ≤ 3584) (hcode : HoldsCode ws m) {k : Nat}
    (hk : ws[k]? = some w) :
    (place k).toNat + 1 < Memory.size ∧ { m with pc := place k }.fetch = w := by
  obtain ⟨hlt, -⟩ := List.getElem?_eq_some_iff.mp hk
  have hplace : (place k).toNat = 0x200 + 2 * k := toNat_place (by omega)
  have hin : (place k).toNat + 1 < Memory.size := by
    rw [hplace, Memory.size]
    omega
  refine ⟨hin, fetch_of_holdsCode hcode hk ?_⟩
  rw [fetchPc, if_pos hin, hplace]

theorem steps_of_executes (hfits : 2 * ws.length ≤ 3584) (hstraight : ∀ w ∈ ws, ¬ w.Branches)
    (hcode : HoldsCode ws m) (hspares : m.SparesCode ws) (hpc : m.pc = programStart)
    (h : m.Executes past done) (hpast : past <+: ws) (keypads : List Keypad)
    (hlen : keypads.length = past.length) :
    (∀ e ∈ m.history (keypads.map .step), e.stepFault? = none) ∧
      m.after (keypads.map .step) = { done with pc := place past.length } := by
  induction h generalizing keypads with
  | none =>
    obtain rfl := List.length_eq_zero_iff.mp hlen
    refine ⟨fun e he => absurd he List.not_mem_nil, ?_⟩
    show m = { m with pc := programStart }
    rw [← hpc]
  | @next past done next w keypad flow hdone hexec ih =>
    have hprefix : past <+: ws := (List.prefix_append _ _).trans hpast
    have hk : ws[past.length]? = some w := by
      obtain ⟨rest, rfl⟩ := hpast
      simp
    rcases List.eq_nil_or_concat' keypads with rfl | ⟨init, last, rfl⟩
    · simp at hlen
    · rw [List.length_append, List.length_append] at hlen
      obtain ⟨hgood, hafter⟩ := ih hprefix init (Nat.add_right_cancel hlen)
      obtain ⟨hin, hfetch⟩ :=
        fetch_at_place hfits (holdsCode_of_executes hcode hspares hdone hprefix) hk
      obtain ⟨hnone, hmachine⟩ :=
        step_of_straight_ok hin (hstraight w (List.mem_of_getElem? hk)) hfetch hexec last
      rw [List.map_append, history_append, after_append, hafter]
      constructor
      · intro e he
        rcases List.mem_append.mp he with he | he
        · exact hgood e he
        · obtain rfl := List.mem_singleton.mp he
          exact hnone
      · show (step last _).machine = _
        rw [hmachine, List.length_append, List.length_singleton, place_succ]

end

/-- **A program without branches is stepped through as its words are executed.** After `k` steps
the machine is the one that the first `k` words lead to, with the counter at the next word; and if
that word fails, so does its step. -/
theorem straight_line_steps (seed : UInt64) (ws : List Word) (hstraight : ∀ w ∈ ws, ¬ w.Branches)
    (hfits : 2 * ws.length ≤ 3584)
    (hspares : ((ofSeed seed).loadProgram (Word.bytes ws)).machine.SparesCode ws) :
    let start := ((ofSeed seed).loadProgram (Word.bytes ws)).machine
    ((ofSeed seed).loadProgram (Word.bytes ws)).fault? = none ∧
      ∀ k ≤ ws.length, ∀ done, start.Executes (ws.take k) done →
        ∀ keypads : List Keypad, keypads.length = k →
          let s := start.after (keypads.map .step)
          (∀ e ∈ start.history (keypads.map .step), e.stepFault? = none) ∧
            s = { done with pc := s.pc } ∧ s.pc.toNat = 0x200 + 2 * k ∧
            ∀ w keypad fault, ws[k]? = some w → (done.executeWord keypad w).1 = .error fault →
              ∀ keypad', (s.step keypad').fault? = some fault ∧
                (s.step keypad').machine.pc.toNat = 0x200 + 2 * k := by
  intro start
  obtain ⟨hloaded, hcode⟩ := holdsCode_loadProgram (ofSeed seed) hfits
  have hpc : start.pc = programStart := by
    obtain ⟨memory, hload⟩ := (ofSeed seed).machine_load (Word.bytes ws) programStart
    exact congrArg Machine.pc hload
  refine ⟨hloaded, fun k hk done hdone keypads hlen => ?_⟩
  have htake : (ws.take k).length = k := List.length_take_of_le hk
  obtain ⟨hgood, hafter⟩ := steps_of_executes hfits hstraight hcode hspares hpc hdone
    (List.take_prefix k ws) keypads (hlen.trans htake.symm)
  have hplace : (place k).toNat = 0x200 + 2 * k := toNat_place (by omega)
  rw [htake] at hafter
  intro s
  rw [show s = { done with pc := place k } from hafter]
  refine ⟨hgood, rfl, hplace, fun w keypad fault hw hfault keypad' => ?_⟩
  obtain ⟨hin, hfetch⟩ :=
    fetch_at_place hfits (holdsCode_of_executes hcode hspares hdone (List.take_prefix k ws)) hw
  obtain ⟨hsome, hstays⟩ :=
    step_of_straight_error hin (hstraight w (List.mem_of_getElem? hw)) hfetch hfault keypad'
  exact ⟨hsome, (congrArg UInt16.toNat hstays).trans hplace⟩

theorem straight_line_steps_up_to_fault :
    let keypad : Keypad := fun _ => false
    let ws : List Word := [0xF033, 0xAFFF, 0xF165]
    let start := ((ofSeed 0).loadProgram (Word.bytes ws)).machine
    let s := start.after [.step keypad, .step keypad]
    (∀ w ∈ ws, ¬ w.Branches) ∧ 2 * ws.length ≤ 3584 ∧ start.SparesCode ws ∧
      (∃ done, start.Executes (ws.take 2) done ∧
        (done.executeWord keypad 0xF165).1 = .error (.outOfBounds 4096)) ∧
      (s.step keypad).fault? = some (.outOfBounds 4096) ∧
      (s.step keypad).machine.pc.toNat = 0x204 := by
  intro keypad ws start s
  have hstraight : ∀ w ∈ ws, ¬ w.Branches := by
    intro w hw
    obtain rfl | rfl | rfl : w = 0xF033 ∨ w = 0xAFFF ∨ w = 0xF165 := by simpa [ws] using hw
    · decide
    · decide
    · decide
  have hfits : 2 * ws.length ≤ 3584 := by decide
  have hspares : start.SparesCode ws := by
    intro k w done hk hdone keypad next flow hexec a ha
    obtain ⟨hlt, -⟩ := List.getElem?_eq_some_iff.mp hk
    -- only the first word is of a form that writes, and there the index is still zero
    have hdecimal : ∀ k < 3, ∀ x : Nibble, ws[k]? = some (.ofByte 0xF x 0x33) → k = 0 := by decide
    have hsave : ∀ k < 3, ∀ x : Nibble, ws[k]? ≠ some (.ofByte 0xF x 0x55) := by decide
    rcases writes_byte_iff.mp ha with ⟨x, rfl, -, hhigh⟩ | ⟨x, rfl, -, -⟩
    · obtain rfl := hdecimal k hlt x hk
      rw [executes_nil hdone] at hhigh
      exact Or.inl (Nat.lt_of_le_of_lt hhigh (by decide))
    · exact absurd hk (hsave k hlt x)
  have hwrite : start.memory.write start.i (decimalDigits (start.v.get 0)) =
      .ok (start.memory.overlay 0 [0, 0, 0]) := by
    rw [show decimalDigits (start.v.get 0) = [0, 0, 0] by decide]
    exact if_pos (by decide)
  let first : Machine := { start with memory := start.memory.overlay 0 [0, 0, 0] }
  let second : Machine := { first with i := 0xFFF }
  have hfirst : start.executeWord keypad (.ofByte 0xF 0 0x33) = (.ok .next, first) :=
    answer_eq_ok_iff.mpr (perform_storeDecimal hwrite keypad)
  have hsecond : first.executeWord keypad 0xAFFF = (.ok .next, second) :=
    answer_eq_ok_iff.mpr rfl
  have hfault : (second.executeWord keypad 0xF165).1 = .error (.outOfBounds 4096) :=
    answer_eq_error_iff.mpr ⟨second, rfl⟩
  have hdone : start.Executes (ws.take 2) second := .next (.next .none hfirst) hsecond
  obtain ⟨-, hall⟩ := straight_line_steps 0 ws hstraight hfits hspares
  obtain ⟨-, -, -, hfails⟩ := hall 2 (by decide) second hdone [keypad, keypad] rfl
  exact ⟨hstraight, hfits, hspares, ⟨second, hdone, hfault⟩,
    hfails 0xF165 keypad _ rfl hfault keypad⟩

end Machine

end Chip8
