import Chip8.Proofs.Footprint
import Mathlib.Data.List.Forall2

/-!
# What a run depends on

Two machines run side by side. Where they agree in the parts that a program acts on, they go on
agreeing; and as long as no word is executed that reads an input, also with inputs of their own.
`history_lockstep` lifts both from one operation to any two histories.
-/

namespace Chip8

inductive Inputs where
  | shared
  | separate

/-- Two machines are the same to a program; their inputs count only where they are in common. -/
structure Agree (inputs : Inputs) (m s : Machine) : Prop where
  v : m.v = s.v
  i : m.i = s.i
  pc : m.pc = s.pc
  live : m.stack.live = s.stack.live
  memory : m.memory = s.memory
  frame : m.frame = s.frame
  delay : inputs = .shared → m.delay = s.delay
  random : inputs = .shared → m.random = s.random

inductive Word.ReadsInput : Word → Prop
  | randomByte (x : Nibble) (nn : UInt8) : ReadsInput (.ofByte 0xC x nn)
  | keyDown (x : Nibble) : ReadsInput (.ofByte 0xE x 0x9E)
  | keyUp (x : Nibble) : ReadsInput (.ofByte 0xE x 0xA1)
  | readDelay (x : Nibble) : ReadsInput (.ofByte 0xF x 0x07)
  | awaitKey (x : Nibble) : ReadsInput (.ofByte 0xF x 0x0A)

def Instruction.readsInput : Instruction → Bool
  | skipIf (.keyDown _) => true
  | skipIf (.keyUp _) => true
  | randomByte .. => true
  | readDelay _ => true
  | awaitKey _ => true
  | _ => false

theorem Word.readsInput_iff {w : Word} :
    w.ReadsInput ↔ (Instruction.ofWord? w).any Instruction.readsInput = true := by
  rw [Instruction.any_ofWord?_iff]
  constructor
  · intro h
    cases h with
    | randomByte x nn => exact ⟨.randomByte x nn, rfl, rfl⟩
    | keyDown x => exact ⟨.skipIf (.keyDown x), rfl, rfl⟩
    | keyUp x => exact ⟨.skipIf (.keyUp x), rfl, rfl⟩
    | readDelay x => exact ⟨.readDelay x, rfl, rfl⟩
    | awaitKey x => exact ⟨.awaitKey x, rfl, rfl⟩
  · rintro ⟨i, rfl, hi⟩
    cases i with
    | randomByte x nn => exact .randomByte x nn
    | skipIf condition =>
      cases condition with
      | keyDown x => exact .keyDown x
      | keyUp x => exact .keyUp x
      | _ => cases hi
    | readDelay x => exact .readDelay x
    | awaitKey x => exact .awaitKey x
    | _ => cases hi

instance (w : Word) : Decidable w.ReadsInput :=
  decidable_of_iff _ Word.readsInput_iff.symm

/-- Two events turned out the same: the word at the counter, what was executed, which fault came
of it, and what a program sees afterwards. -/
structure Alike (inputs : Inputs) (e e' : Event) : Prop where
  fetched : e.before.fetch = e'.before.fetch
  executed : e.executed? = e'.executed?
  stepFault : e.stepFault? = e'.stepFault?
  loadFault : e.loadFault? = e'.loadFault?
  after : Agree inputs e.after e'.after

namespace Agree

variable {inputs : Inputs} {m s : Machine}

theorem refl (inputs : Inputs) (m : Machine) : Agree inputs m m :=
  ⟨rfl, rfl, rfl, rfl, rfl, rfl, fun _ => rfl, fun _ => rfl⟩

theorem symm (h : Agree inputs m s) : Agree inputs s m :=
  ⟨h.v.symm, h.i.symm, h.pc.symm, h.live.symm, h.memory.symm, h.frame.symm,
    fun hin => (h.delay hin).symm, fun hin => (h.random hin).symm⟩

theorem trans {t : Machine} (h : Agree inputs m s) (h' : Agree inputs s t) : Agree inputs m t :=
  ⟨h.v.trans h'.v, h.i.trans h'.i, h.pc.trans h'.pc, h.live.trans h'.live,
    h.memory.trans h'.memory, h.frame.trans h'.frame,
    fun hin => (h.delay hin).trans (h'.delay hin), fun hin => (h.random hin).trans (h'.random hin)⟩

theorem depth (h : Agree inputs m s) : m.stack.depth = s.stack.depth := by
  rw [← CallStack.length_live, ← CallStack.length_live, h.live]

theorem fetchPc (h : Agree inputs m s) : m.fetchPc = s.fetchPc := by
  simp only [Machine.fetchPc, h.pc]

theorem fetch (h : Agree inputs m s) : m.fetch = s.fetch := by
  simp only [Machine.fetch, h.memory, h.fetchPc]

end Agree

/-! ## Performed words -/

namespace Instruction

variable {inputs : Inputs} {m s done done' : Machine} {flow flow' : Flow} {keypad keypad' : Keypad}
  {i : Instruction}

theorem test_of_agree {condition : Condition} (h : Agree inputs m s)
    (hin : condition.toWord.ReadsInput → keypad = keypad') :
    condition.test keypad m.v = condition.test keypad' s.v := by
  cases condition with
  | keyDown x => simp only [Condition.test, h.v, hin (.keyDown x)]
  | keyUp x => simp only [Condition.test, h.v, hin (.keyUp x)]
  | _ => simp only [Condition.test, h.v]

theorem agree_of_perform (h : Agree inputs m s)
    (hin : i.toWord.ReadsInput → inputs = .shared ∧ keypad = keypad')
    (hm : (i.perform keypad).run m = .ok flow done)
    (hs : (i.perform keypad').run s = .ok flow' done') :
    flow = flow' ∧ Agree inputs done done' := by
  cases i with
  | clearScreen => cases hm; cases hs; exact ⟨rfl, { h with frame := rfl }⟩
  | returnToCaller =>
    obtain ⟨_, _, hpop, rfl, rfl⟩ := perform_returnToCaller hm
    obtain ⟨_, _, hpop', rfl, rfl⟩ := perform_returnToCaller hs
    have hlive := h.live
    rw [CallStack.live_pop hpop, CallStack.live_pop hpop'] at hlive
    obtain ⟨hrest, hlast⟩ := List.append_inj' hlive rfl
    exact ⟨congrArg Flow.jump (List.singleton_inj.mp hlast), { h with live := hrest }⟩
  | jump nnn => cases hm; cases hs; exact ⟨rfl, h⟩
  | call nnn =>
    obtain ⟨_, hpush, rfl, rfl⟩ := perform_call hm
    obtain ⟨_, hpush', rfl, rfl⟩ := perform_call hs
    have hlive := CallStack.live_push hpush
    rw [h.live, h.pc, ← CallStack.live_push hpush'] at hlive
    exact ⟨rfl, { h with live := hlive }⟩
  | skipIf condition =>
    cases hm
    cases hs
    rw [test_of_agree h fun hreads => (hin hreads).2]
    exact ⟨rfl, h⟩
  | setByte x nn => cases hm; cases hs; exact ⟨rfl, { h with v := congrArg (·.set x nn) h.v }⟩
  | addByte x nn =>
    cases hm
    cases hs
    exact ⟨rfl, { h with v := congrArg (fun v => v.set x (v.get x + nn)) h.v }⟩
  | combine how x y =>
    cases hm
    cases hs
    exact ⟨rfl, { h with v := congrArg (·.combine how x y) h.v }⟩
  | setIndex nnn => cases hm; cases hs; exact ⟨rfl, { h with i := rfl }⟩
  | jumpByV0 nnn =>
    cases hm
    cases hs
    exact ⟨congrArg (fun v => Flow.jump ((v.get 0).toUInt16 + nnn.toUInt16)) h.v, h⟩
  | randomByte x mask =>
    cases hm
    cases hs
    have hrandom := h.random (hin (.randomByte x mask)).1
    refine ⟨rfl, { h with v := ?_, random := fun _ => congrArg (·.next.2) hrandom }⟩
    exact congrArg₂ (fun v g => v.set x (g.next.1.toUInt8 &&& mask)) h.v hrandom
  | draw x y rows =>
    obtain ⟨bytes, hread, rfl, rfl⟩ := perform_draw hm
    obtain ⟨bytes', hread', rfl, rfl⟩ := perform_draw hs
    rw [h.memory, h.i, hread'] at hread
    cases hread
    have hdrawn : Sprite.draw m.frame (m.v.get x) (m.v.get y) bytes.toList =
        Sprite.draw s.frame (s.v.get x) (s.v.get y) bytes.toList := by rw [h.frame, h.v]
    refine ⟨rfl, { h with v := ?_, frame := congrArg Prod.snd hdrawn }⟩
    exact congrArg₂ (fun v drawn => v.set 0xF drawn.1.toUInt8) h.v hdrawn
  | readDelay x =>
    cases hm
    cases hs
    have hdelay := h.delay (hin (.readDelay x)).1
    exact ⟨rfl, { h with v := congrArg₂ (fun v delay => v.set x delay) h.v hdelay }⟩
  | awaitKey x =>
    obtain ⟨-, rfl⟩ := hin (.awaitKey x)
    rcases perform_awaitKey hm with ⟨hkey, rfl, rfl⟩ | ⟨key, hkey, rfl, rfl⟩ <;>
      rcases perform_awaitKey hs with ⟨hkey', rfl, rfl⟩ | ⟨key', hkey', rfl, rfl⟩ <;>
      cases hkey.symm.trans hkey'
    · exact ⟨rfl, h⟩
    · exact ⟨rfl, { h with v := congrArg (·.set x (UInt8.ofNat key)) h.v }⟩
  | setDelay x =>
    cases hm
    cases hs
    exact ⟨rfl, { h with delay := fun _ => congrArg (·.get x) h.v }⟩
  | setSound x => cases hm; cases hs; exact ⟨rfl, { h with }⟩
  | addToIndex x =>
    cases hm
    cases hs
    exact ⟨rfl, { h with i := congrArg₂ (fun i v => i + (v.get x).toUInt16) h.i h.v }⟩
  | pointAtGlyph x =>
    cases hm
    cases hs
    have hglyph : Font.glyphAddress (m.v.get x) = Font.glyphAddress (s.v.get x) := by rw [h.v]
    exact ⟨rfl, { h with i := hglyph }⟩
  | storeDecimal x =>
    obtain ⟨_, hwrite, rfl, rfl⟩ := perform_storeDecimal hm
    obtain ⟨_, hwrite', rfl, rfl⟩ := perform_storeDecimal hs
    rw [h.memory, h.i, h.v, hwrite'] at hwrite
    cases hwrite
    exact ⟨rfl, { h with memory := rfl }⟩
  | saveRegisters x =>
    obtain ⟨_, hwrite, rfl, rfl⟩ := perform_saveRegisters hm
    obtain ⟨_, hwrite', rfl, rfl⟩ := perform_saveRegisters hs
    rw [h.memory, h.i, h.v, hwrite'] at hwrite
    cases hwrite
    exact ⟨rfl, { h with memory := rfl }⟩
  | restoreRegisters x =>
    obtain ⟨bytes, hread, rfl, rfl⟩ := perform_restoreRegisters hm
    obtain ⟨bytes', hread', rfl, rfl⟩ := perform_restoreRegisters hs
    rw [h.memory, h.i, hread'] at hread
    cases hread
    exact ⟨rfl, { h with v := congrArg (·.restore bytes) h.v }⟩

end Instruction

theorem agree_of_perform_word {inputs : Inputs} {m s done done' : Machine} {flow flow' : Flow}
    {keypad keypad' : Keypad} {w : Word} (h : Agree inputs m s)
    (hin : w.ReadsInput → inputs = .shared ∧ keypad = keypad')
    (hm : (w.perform keypad).run m = .ok flow done)
    (hs : (w.perform keypad').run s = .ok flow' done') :
    flow = flow' ∧ Agree inputs done done' := by
  cases hi : Instruction.ofWord? w with
  | none =>
    rw [Word.perform_none hi] at hm hs
    cases hm
    cases hs
    exact ⟨rfl, h⟩
  | some i =>
    rw [Word.perform_eq hi] at hm hs
    obtain rfl := Instruction.ofWord?_eq_some_iff.mp hi
    exact Instruction.agree_of_perform h hin hm hs

/-! ## Operations on both sides -/

namespace Agree

variable {inputs : Inputs} {m s : Machine} {keypad keypad' : Keypad}

theorem fault?_step (h : Agree inputs m s) (keypad keypad' : Keypad) :
    (m.step keypad).fault? = (s.step keypad').fault? := by
  rw [Machine.fault?_step, Machine.fault?_step, h.fetch, h.depth, h.i]

theorem machine_step (h : Agree inputs m s)
    (hin : ∀ w, Event.executed? ⟨m, .step keypad⟩ = some w → w.ReadsInput →
      inputs = .shared ∧ keypad = keypad') :
    Agree inputs (m.step keypad).machine (s.step keypad').machine := by
  have hready : Agree inputs { m with pc := m.fetchPc } { s with pc := s.fetchPc } :=
    { h with pc := h.fetchPc }
  have hsame := h.fault?_step keypad keypad'
  cases hfault : (m.step keypad).fault? with
  | some fault =>
    rw [Machine.machine_step_of_fault hfault,
      Machine.machine_step_of_fault (hsame.symm.trans hfault)]
    exact hready
  | none =>
    obtain ⟨flow, done, hok⟩ := Machine.perform_of_step_accepted hfault
    obtain ⟨flow', done', hok'⟩ := Machine.perform_of_step_accepted (hsame.symm.trans hfault)
    rw [Machine.machine_step_of_ok hok, Machine.machine_step_of_ok hok']
    rw [← h.fetch] at hok'
    obtain ⟨rfl, hdone⟩ :=
      agree_of_perform_word hready (hin m.fetch (Event.executed?_step hfault)) hok hok'
    exact { hdone with pc := congrArg flow.after hdone.pc }

theorem alike_step (h : Agree inputs m s)
    (hin : ∀ w, Event.executed? ⟨m, .step keypad⟩ = some w → w.ReadsInput →
      inputs = .shared ∧ keypad = keypad') :
    Alike inputs ⟨m, .step keypad⟩ ⟨s, .step keypad'⟩ where
  fetched := h.fetch
  executed := by simp only [Event.executed?, h.fault?_step keypad keypad', h.fetch]
  stepFault := h.fault?_step keypad keypad'
  loadFault := rfl
  after := h.machine_step hin

theorem load (h : Agree inputs m s) (bytes : List UInt8) (origin : UInt16) :
    (m.load bytes origin).fault? = (s.load bytes origin).fault? ∧
      Agree inputs (m.load bytes origin).machine (s.load bytes origin).machine := by
  unfold Machine.load
  split
  · exact ⟨rfl, { h with memory := congrArg (·.overlay origin.toNat bytes) h.memory }⟩
  · exact ⟨rfl, h⟩

theorem loadRom (h : Agree inputs m s) (source : Source) :
    (m.loadRom source).fault? = (s.loadRom source).fault? ∧
      Agree inputs (m.loadRom source).machine (s.loadRom source).machine := by
  unfold Machine.loadRom
  cases source.readToEnd with
  | error cause => exact ⟨rfl, h⟩
  | ok bytes =>
    obtain ⟨hfault, hloaded⟩ := h.load bytes Machine.programStart
    exact ⟨congrArg (·.map LoadFault.rejected) hfault, hloaded⟩

theorem alike (h : Agree .shared m s) (op : Operation) : Alike .shared ⟨m, op⟩ ⟨s, op⟩ := by
  cases op with
  | step keypad => exact h.alike_step fun _ _ _ => ⟨rfl, rfl⟩
  | load bytes origin =>
    obtain ⟨hfault, hloaded⟩ := h.load bytes origin
    exact ⟨h.fetch, rfl, rfl, congrArg (·.map LoadFault.rejected) hfault, hloaded⟩
  | loadProgram bytes =>
    obtain ⟨hfault, hloaded⟩ := h.load bytes Machine.programStart
    exact ⟨h.fetch, rfl, rfl, congrArg (·.map LoadFault.rejected) hfault, hloaded⟩
  | loadRom source =>
    obtain ⟨hfault, hloaded⟩ := h.loadRom source
    exact ⟨h.fetch, rfl, rfl, hfault, hloaded⟩
  | tick =>
    have hdelay : Agree .shared m.tick s.tick :=
      { h with delay := fun hin => congrArg (fun d => if d = 0 then 0 else d - 1) (h.delay hin) }
    exact ⟨h.fetch, rfl, rfl, rfl, hdelay⟩
  | setDelay value => exact ⟨h.fetch, rfl, rfl, rfl, { h with delay := fun _ => rfl }⟩
  | setSound | takeFrame => exact ⟨h.fetch, rfl, rfl, rfl, { h with }⟩

end Agree

/-! ## Operations on one side -/

namespace Operation

def isStep : Operation → Bool
  | step _ => true
  | _ => false

def isSeen : Operation → Bool
  | setSound _ => false
  | takeFrame => false
  | _ => true

def Unseen (inputs : Inputs) (op : Operation) : Prop :=
  ∀ m : Machine, Agree inputs m (m.apply op)

variable {op : Operation}

theorem unseen_of_isSeen (inputs : Inputs) (h : op.isSeen = false) : op.Unseen inputs := by
  intro m
  have same := Agree.refl inputs m
  cases op with
  | setSound | takeFrame => exact { same with }
  | _ => cases h

theorem unseen_of_outside (hstep : op.isStep = false) (hload : op.isLoad = false) :
    op.Unseen .separate := by
  intro m
  have same := Agree.refl .separate m
  cases op with
  | step => cases hstep
  | load | loadProgram | loadRom => cases hload
  | tick | setDelay => exact { same with delay := nofun }
  | setSound | takeFrame => exact { same with }

end Operation

/-! ## Histories in lockstep -/

section
variable {joint : Operation → Bool}

def Machine.eventsOf (m : Machine) (joint : Operation → Bool) (ops : List Operation) :
    List Event :=
  (m.history ops).filter fun e => joint e.operation

theorem Machine.eventsOf_append (m : Machine) (ops ops' : List Operation) :
    m.eventsOf joint (ops ++ ops') = m.eventsOf joint ops ++ (m.after ops).eventsOf joint ops' := by
  rw [eventsOf, history_append, List.filter_append]
  rfl

theorem Machine.eventsOf_cons_of_pos (m : Machine) {op : Operation} (h : joint op = true)
    (ops : List Operation) :
    m.eventsOf joint (op :: ops) = ⟨m, op⟩ :: (m.apply op).eventsOf joint ops :=
  List.filter_cons_of_pos h

theorem Machine.eventsOf_eq_nil (m : Machine) {ops : List Operation}
    (h : ∀ op ∈ ops, ¬ joint op = true) : m.eventsOf joint ops = [] :=
  List.filter_eq_nil_iff.mpr fun _ he => h _ (m.operation_mem_of_mem_history he)

/-- Two machines make their joint operations in pairs, and between these each makes operations of
its own. A relation between them that all of these keep holds throughout, and the pairs turn out
alike. -/
theorem lockstep {R : Machine → Machine → Prop} {Like : Event → Event → Prop}
    (Pair : Operation → Operation → Prop) (Allowed : Event → Prop)
    (hpair : ∀ {m s op op'}, Pair op op' → Allowed ⟨m, op⟩ → R m s →
      Like ⟨m, op⟩ ⟨s, op'⟩ ∧ R (m.apply op) (s.apply op'))
    {ops ops' : List Operation}
    (hops : ∀ op ∈ ops, ¬ joint op = true → ∀ {m s}, R m s → R (m.apply op) s)
    (hops' : ∀ op ∈ ops', ¬ joint op = true → ∀ {m s}, R m s → R m (s.apply op))
    (hpairs : List.Forall₂ Pair (ops.filter joint) (ops'.filter joint))
    {m s : Machine} (hallowed : ∀ e ∈ m.history ops, Allowed e) (h : R m s) :
    R (m.after ops) (s.after ops') ∧
      List.Forall₂ Like (m.eventsOf joint ops) (s.eventsOf joint ops') := by
  induction ops generalizing m s ops' with
  | nil =>
    have hown := List.filter_eq_nil_iff.mp (List.forall₂_nil_left_iff.mp hpairs)
    rw [s.eventsOf_eq_nil hown]
    have hend : R m (s.after ops') :=
      s.after_induction (P := fun _ => R m) ops' h fun _ _ op hop h => hops' op hop (hown op hop) h
    exact ⟨hend, .nil⟩
  | cons op ops ih =>
    rw [List.forall_mem_cons] at hops
    rw [Machine.history, List.forall_mem_cons] at hallowed
    by_cases hjoint : joint op = true
    · rw [List.filter_cons_of_pos hjoint, List.forall₂_cons_left_iff] at hpairs
      obtain ⟨op', _, hop, hrest, hfilter⟩ := hpairs
      -- the other side first makes operations of its own, then the partner of `op`
      obtain ⟨own, rest, rfl, hown, hjoint', rfl⟩ := List.filter_eq_cons_iff.mp hfilter
      rw [List.forall_mem_append, List.forall_mem_cons] at hops'
      have hready : R m (s.after own) :=
        s.after_induction (P := fun _ => R m) own h
          fun _ _ op hop h => hops'.1 op hop (hown op hop) h
      obtain ⟨hlike, hnext⟩ := hpair hop hallowed.1 hready
      obtain ⟨hend, hevents⟩ := ih hops.2 hops'.2.2 hrest hallowed.2 hnext
      rw [Machine.after_append, m.eventsOf_cons_of_pos hjoint, Machine.eventsOf_append,
        s.eventsOf_eq_nil hown, List.nil_append, Machine.eventsOf_cons_of_pos _ hjoint']
      exact ⟨hend, .cons hlike hevents⟩
    · rw [List.filter_cons_of_neg hjoint] at hpairs
      have hskip : m.eventsOf joint (op :: ops) = (m.apply op).eventsOf joint ops :=
        List.filter_cons_of_neg hjoint
      rw [hskip]
      exact ih hops.2 hops' hpairs hallowed.2 (hops.1 hjoint h)

theorem history_lockstep {inputs : Inputs} (Pair : Operation → Operation → Prop)
    (Allowed : Event → Prop)
    (hpair : ∀ {m s op op'}, Pair op op' → Allowed ⟨m, op⟩ → Agree inputs m s →
      Alike inputs ⟨m, op⟩ ⟨s, op'⟩)
    {ops ops' : List Operation} (hops : ∀ op ∈ ops, ¬ joint op = true → op.Unseen inputs)
    (hops' : ∀ op ∈ ops', ¬ joint op = true → op.Unseen inputs)
    (hpairs : List.Forall₂ Pair (ops.filter joint) (ops'.filter joint))
    {m s : Machine} (hallowed : ∀ e ∈ m.history ops, Allowed e) (h : Agree inputs m s) :
    Agree inputs (m.after ops) (s.after ops') ∧
      List.Forall₂ (Alike inputs) (m.eventsOf joint ops) (s.eventsOf joint ops') := by
  refine lockstep Pair Allowed ?_ ?_ ?_ hpairs hallowed h
  · intro m s op op' hop hallowed h
    have halike := hpair hop hallowed h
    exact ⟨halike, halike.after⟩
  · exact fun op hop hown m _ h => (hops op hop hown m).symm.trans h
  · exact fun op hop hown _ s h => h.trans (hops' op hop hown s)

end

/-! ## Hidden parts -/

namespace Machine

variable {m s : Machine} {ops ops' : List Operation}

/-- **Sound, redraw flag and free slots stay hidden.** Machines that agree in the rest agree again
after the same operations, which turn out the same on both. -/
theorem hidden_parts_stay_hidden (h : Agree .shared m s)
    (hops : ops.filter (·.isSeen) = ops'.filter (·.isSeen)) :
    Agree .shared (m.after ops) (s.after ops') ∧
      List.Forall₂ (Alike .shared) (m.eventsOf (·.isSeen) ops) (s.eventsOf (·.isSeen) ops') := by
  have hunseen : ∀ op : Operation, ¬ op.isSeen = true → op.Unseen .shared :=
    fun _ hop => Operation.unseen_of_isSeen .shared (Bool.eq_false_iff.mpr hop)
  refine history_lockstep Eq (fun _ => True) ?_ (fun op _ => hunseen op) (fun op _ => hunseen op) ?_
    (fun _ _ => trivial) h
  · rintro m s op _ rfl - h
    exact h.alike op
  · rw [hops, List.forall₂_eq_eq_eq]

theorem hidden_parts_stay_hidden_over_old_slots :
    let keypad : Keypad := fun _ => false
    let s := ofSeed 0
    let m : Machine :=
      { s with sound := 3, redraw := true, stack := ⟨Vector.replicate 16 0x345, 0, by decide⟩ }
    let program := [0x22, 0x04, 0x00, 0x00, 0x00, 0xEE]
    let ops := [.takeFrame, .loadProgram program, .step keypad, .step keypad]
    let ops' := [.loadProgram program, .setSound 9, .step keypad, .takeFrame, .step keypad]
    Agree .shared m s ∧ ops.filter (·.isSeen) = ops'.filter (·.isSeen) ∧
      Agree .shared (m.after ops) (s.after ops') ∧
      List.Forall₂ (Alike .shared) (m.eventsOf (·.isSeen) ops) (s.eventsOf (·.isSeen) ops') := by
  intro keypad s m program ops ops'
  have h : Agree .shared m s := { Agree.refl .shared s with live := rfl }
  have hops : ops.filter (·.isSeen) = ops'.filter (·.isSeen) := by
    simp only [ops, ops', List.filter_cons, List.filter_nil, Operation.isSeen]
    rfl
  exact ⟨h, hops, hidden_parts_stay_hidden h hops⟩

/-! ## Inputs -/

/-- **Inputs act only through the words that read them.** As long as one run executes no such word,
another that begins alike executes the same words with the same faults, whatever its keypads, its
generator and its timers are. -/
theorem inputs_act_through_readers (h : Agree .separate m s)
    (hops : ∀ op ∈ ops, op.isLoad = false) (hops' : ∀ op ∈ ops', op.isLoad = false)
    (hcount : ops.countP (·.isStep) = ops'.countP (·.isStep))
    (hreads : ∀ e ∈ m.history ops, ∀ w, e.executed? = some w → ¬ w.ReadsInput) :
    List.Forall₂ (Alike .separate) (m.eventsOf (·.isStep) ops) (s.eventsOf (·.isStep) ops') := by
  have hunseen : ∀ ops : List Operation, (∀ op ∈ ops, op.isLoad = false) →
      ∀ op ∈ ops, ¬ op.isStep = true → op.Unseen .separate := by
    intro ops hload op hop hstep
    exact Operation.unseen_of_outside (Bool.eq_false_iff.mpr hstep) (hload op hop)
  refine (history_lockstep (fun op op' => op.isStep ∧ op'.isStep)
    (fun e => ∀ w, e.executed? = some w → ¬ w.ReadsInput) ?_ (hunseen ops hops)
    (hunseen ops' hops') ?_ hreads h).2
  · rintro m s op op' ⟨hstep, hstep'⟩ hallowed h
    cases op with
    | step keypad =>
      cases op' with
      | step keypad' => exact h.alike_step fun w hw hread => absurd hread (hallowed w hw)
      | _ => cases hstep'
    | _ => cases hstep
  · rw [List.countP_eq_length_filter, List.countP_eq_length_filter] at hcount
    refine List.forall₂_iff_zip.mpr ⟨hcount, fun hzip => ?_⟩
    obtain ⟨hleft, hright⟩ := List.of_mem_zip hzip
    exact ⟨List.of_mem_filter hleft, List.of_mem_filter hright⟩

theorem inputs_act_through_readers_up_to_fault :
    let up : Keypad := fun _ => false
    let down : Keypad := fun _ => true
    let program := Operation.loadProgram [0x60, 0x7B, 0xF0, 0x33, 0x00, 0xEE]
    let m := (ofSeed 0).apply program
    let s := ((ofSeed 7).setDelay 5).apply program
    let ops := [.step up, .tick, .step up, .step up]
    let ops' := [.step down, .step up, .setDelay 9, .takeFrame, .step down]
    Agree .separate m s ∧
      (∀ op ∈ ops, op.isLoad = false) ∧ (∀ op ∈ ops', op.isLoad = false) ∧
      ops.countP (·.isStep) = ops'.countP (·.isStep) ∧
      (∀ e ∈ m.history ops, ∀ w, e.executed? = some w → ¬ w.ReadsInput) ∧
      (m.history ops).map Event.stepFault? = [none, none, none, some .stackUnderflow] ∧
      List.Forall₂ (Alike .separate) (m.eventsOf (·.isStep) ops) (s.eventsOf (·.isStep) ops') := by
  intro up down program m s ops ops'
  have h : Agree .separate m s := ⟨rfl, rfl, rfl, rfl, rfl, rfl, nofun, nofun⟩
  have hops : ∀ op ∈ ops, op.isLoad = false := by simp [ops, Operation.isLoad]
  have hops' : ∀ op ∈ ops', op.isLoad = false := by simp [ops', Operation.isLoad]
  have hexecuted :
      (m.history ops).map Event.executed? = [some 0x607B, none, some 0xF033, none] := by
    decide +kernel
  have hfaults : (m.history ops).map Event.stepFault? =
      [none, none, none, some .stackUnderflow] := by
    decide +kernel
  have hreads : ∀ e ∈ m.history ops, ∀ w, e.executed? = some w → ¬ w.ReadsInput := by
    intro e he w hw
    have hmem := List.mem_map_of_mem (f := Event.executed?) he
    rw [hexecuted, hw] at hmem
    obtain rfl | rfl : w = 0x607B ∨ w = 0xF033 := by simpa using hmem
    · decide
    · decide
  exact ⟨h, hops, hops', rfl, hreads, hfaults, inputs_act_through_readers h hops hops' rfl hreads⟩

end Machine

end Chip8
