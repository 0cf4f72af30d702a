import Chip8.Machine.Step
import Mathlib.Data.List.DropRight

/-!
# What a host does with a machine

A host loads programs, steps, sets and ticks the timers and takes frames, in any order. The history
of a list of operations keeps each with the machine it met, so what was executed or handed out can
be read off it afterwards. `after_induction` is the induction along a history.
-/

namespace Chip8

/-! ## The last of a list -/

section
variable {α β : Type} {f : α → Option β} {past : List α} {a : α}

/-- The value of `f` at the last member that has one. -/
def last? (f : α → Option β) (past : List α) : Option β :=
  (past.filterMap f).getLast?

/-- The members behind the last one that has a value. -/
def sinceLast (f : α → Option β) (past : List α) : List α :=
  past.rtakeWhile fun a => (f a).isNone

@[simp] theorem last?_nil : last? f [] = none := rfl

theorem last?_cons : last? f (a :: past) = (last? f past).or (f a) := by
  unfold last?
  cases h : f a with
  | none => simp [h]
  | some b =>
    simp only [List.filterMap_cons, h, List.getLast?_cons]
    cases (past.filterMap f).getLast? <;> rfl

theorem last?_concat : last? f (past ++ [a]) = (f a).or (last? f past) := by
  unfold last?
  rw [List.filterMap_append]
  cases h : f a <;> simp [h]

theorem sinceLast_concat_of_some {b : β} (h : f a = some b) : sinceLast f (past ++ [a]) = [] :=
  List.rtakeWhile_concat_neg _ _ _ (by simp [h])

theorem sinceLast_concat_of_none (h : f a = none) :
    sinceLast f (past ++ [a]) = sinceLast f past ++ [a] :=
  List.rtakeWhile_concat_pos _ _ _ (by simp [h])

end

/-! ## Operations -/

inductive Operation where
  | step (keypad : Keypad)
  | load (bytes : List UInt8) (origin : UInt16)
  | loadProgram (bytes : List UInt8)
  | loadRom (source : Source)
  | tick
  | setDelay (value : UInt8)
  | setSound (value : UInt8)
  | takeFrame

def Operation.isLoad : Operation → Bool
  | load .. => true
  | loadProgram .. => true
  | loadRom .. => true
  | _ => false

namespace Machine

def apply (m : Machine) : Operation → Machine
  | .step keypad => (m.step keypad).machine
  | .load bytes origin => (m.load bytes origin).machine
  | .loadProgram bytes => (m.loadProgram bytes).machine
  | .loadRom source => (m.loadRom source).machine
  | .tick => m.tick
  | .setDelay value => m.setDelay value
  | .setSound value => m.setSound value
  | .takeFrame => m.takeFrame.2

def after (m : Machine) (ops : List Operation) : Machine :=
  ops.foldl apply m

end Machine

structure Event where
  before : Machine
  operation : Operation

namespace Event

def after (e : Event) : Machine :=
  e.before.apply e.operation

def stepFault? (e : Event) : Option Fault :=
  match e.operation with
  | .step keypad => (e.before.step keypad).fault?
  | _ => none

def loadFault? (e : Event) : Option LoadFault :=
  match e.operation with
  | .load bytes origin => (e.before.load bytes origin).fault?.map .rejected
  | .loadProgram bytes => (e.before.loadProgram bytes).fault?.map .rejected
  | .loadRom source => (e.before.loadRom source).fault?
  | _ => none

def executed? (e : Event) : Option Word :=
  match e.operation with
  | .step keypad => if (e.before.step keypad).fault? = none then some e.before.fetch else none
  | _ => none

def taken? (e : Event) : Option (Option Frame) :=
  match e.operation with
  | .takeFrame => some e.before.takeFrame.1
  | _ => none

end Event

namespace Machine

def history (m : Machine) : List Operation → List Event
  | [] => []
  | op :: ops => ⟨m, op⟩ :: history (m.apply op) ops

variable (m : Machine)

@[simp] theorem after_nil : m.after [] = m := rfl

@[simp] theorem after_cons (op : Operation) (ops : List Operation) :
    m.after (op :: ops) = (m.apply op).after ops := rfl

theorem after_append (ops ops' : List Operation) :
    m.after (ops ++ ops') = (m.after ops).after ops' :=
  List.foldl_append

theorem history_append (ops ops' : List Operation) :
    m.history (ops ++ ops') = m.history ops ++ (m.after ops).history ops' := by
  induction ops generalizing m with
  | nil => rfl
  | cons op ops ih => simp only [List.cons_append, history, ih, after_cons]

theorem apply_of_isLoad {op : Operation} (h : op.isLoad = true) :
    ∃ memory, m.apply op = { m with memory } := by
  cases op with
  | load bytes origin => exact m.machine_load bytes origin
  | loadProgram bytes => exact m.machine_load bytes programStart
  | loadRom source => exact m.machine_loadRom source
  | _ => cases h

theorem operation_mem_of_mem_history {ops : List Operation} {e : Event} (h : e ∈ m.history ops) :
    e.operation ∈ ops := by
  induction ops generalizing m with
  | nil => cases h
  | cons op ops ih =>
    rcases List.mem_cons.mp h with rfl | h
    · exact List.mem_cons_self
    · exact List.mem_cons_of_mem op (ih _ h)

/-- What holds at first and is kept by each operation of the list holds of history and machine at
the end. -/
theorem after_induction {P : List Event → Machine → Prop} (ops : List Operation) (start : P [] m)
    (next : ∀ past s, ∀ op ∈ ops, P past s → P (past ++ [⟨s, op⟩]) (s.apply op)) :
    P (m.history ops) (m.after ops) := by
  suffices ∀ past s, P past s → P (past ++ s.history ops) (s.after ops) by
    simpa using this [] m start
  clear start
  induction ops with
  | nil =>
    intro past s h
    rwa [history, List.append_nil]
  | cons op ops ih =>
    intro past s h
    have hop := next past s op (by simp) h
    have hrest := ih (fun past s op' h' => next past s op' (by simp [h'])) _ _ hop
    rwa [List.append_assoc, List.singleton_append] at hrest

end Machine

end Chip8
