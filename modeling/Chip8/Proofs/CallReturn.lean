import Chip8.Proofs.Footprint
import Mathlib.Data.List.Infix

/-!
# Calls and their returns

The live stack is the list of addresses after the calls that are not over yet, where a call is over
once more returns than calls came after it. A run that goes deeper with a call and comes back to the
depth before it comes back right after that call.
-/

namespace Chip8

namespace Event

def isCall (e : Event) : Bool :=
  e.executed?.any fun w => w.family = 0x2

def isReturn (e : Event) : Bool :=
  e.executed? = some 0x00EE

variable {e : Event}

theorem isCall_iff : e.isCall ↔ ∃ w, e.executed? = some w ∧ w.family = 0x2 := by
  unfold isCall
  cases e.executed? <;> simp

theorem isReturn_iff : e.isReturn ↔ e.executed? = some 0x00EE := by
  simp [isReturn]

theorem isReturn_of_isCall (h : e.isCall) : e.isReturn = false := by
  obtain ⟨w, hw, hfam⟩ := isCall_iff.mp h
  rw [Bool.eq_false_iff, ne_eq, isReturn_iff, hw]
  intro hret
  cases hret
  exact absurd hfam (by decide)

/-! ## The stack after an event -/

theorem live_of_isCall (h : e.isCall) :
    e.after.stack.live = e.before.stack.live ++ [e.before.fetchPc + 2] := by
  obtain ⟨w, hw, hfam⟩ := isCall_iff.mp h
  obtain ⟨-, keypad, flow, done, hrun, hafter⟩ := step_of_executed hw
  rw [Word.perform_eq (Instruction.ofWord?_call hfam)] at hrun
  obtain ⟨stack, hpush, -, rfl⟩ := Instruction.perform_call hrun
  rw [hafter]
  exact CallStack.live_push hpush

theorem live_of_isReturn (h : e.isReturn) :
    e.before.stack.live = e.after.stack.live ++ [e.after.pc] := by
  obtain ⟨-, keypad, flow, done, hrun, hafter⟩ := step_of_executed (isReturn_iff.mp h)
  rw [Word.perform_eq (i := .returnToCaller) rfl] at hrun
  obtain ⟨address, stack, hpop, rfl, rfl⟩ := Instruction.perform_returnToCaller hrun
  rw [hafter]
  exact CallStack.live_pop hpop

theorem stack_of_neither (hc : e.isCall = false) (hr : e.isReturn = false) :
    e.after.stack = e.before.stack := by
  cases hw : e.executed? with
  | none => obtain ⟨_, _, _, _, h⟩ := after_of_not_executed hw; rw [h]
  | some w =>
    refine (footprint_of_executed hw).stack fun hwrites => ?_
    cases hwrites with
    | returnToCaller => rw [isReturn, hw] at hr; cases hr
    | call nnn =>
      have : e.isCall := isCall_iff.mpr ⟨_, hw, Word.family_ofAddress _ _⟩
      rw [this] at hc; cases hc

end Event

/-! ## Calls that are not over -/

/-- A call is over once more returns than calls came after it. -/
def Returned (later : List Event) : Prop :=
  ∃ part, part <+: later ∧ part.countP Event.isCall < part.countP Event.isReturn

instance (later : List Event) : Decidable (Returned later) :=
  decidable_of_iff
    (∃ part ∈ later.inits, part.countP Event.isCall < part.countP Event.isReturn) <| by
    simp only [List.mem_inits, Returned]

/-- Where the calls of a history lie that are not over at its end, oldest first. -/
def outstanding : List Event → List UInt16
  | [] => []
  | e :: later =>
    if e.isCall ∧ ¬ Returned later then e.before.fetchPc :: outstanding later
    else outstanding later

theorem returned_concat {h : List Event} {e : Event} :
    Returned (h ++ [e]) ↔ Returned h ∨
      (h ++ [e]).countP Event.isCall < (h ++ [e]).countP Event.isReturn := by
  simp only [Returned, List.prefix_concat_iff]
  constructor
  · intro h
    obtain ⟨part, rfl | hpart, hlt⟩ := h
    · exact Or.inr hlt
    · exact Or.inl ⟨part, hpart, hlt⟩
  · intro h
    rcases h with ⟨part, hpart, hlt⟩ | hlt
    · exact ⟨part, Or.inr hpart, hlt⟩
    · exact ⟨_, Or.inl rfl, hlt⟩

theorem returned_concat_of_not_return {h : List Event} {e : Event} (he : e.isReturn = false) :
    Returned (h ++ [e]) ↔ Returned h := by
  rw [returned_concat, or_iff_left_iff_imp]
  intro hlt
  refine ⟨h, List.prefix_refl h, ?_⟩
  simp only [List.countP_append, List.countP_singleton, he] at hlt
  simp at hlt
  omega

theorem exists_beginning_cons {e : Event} {later : List Event} {k : Nat} :
    (∃ part, part <+: e :: later ∧ part.countP Event.isCall + k < part.countP Event.isReturn) ↔
      ∃ part, part <+: later ∧ part.countP Event.isCall + (if e.isCall then 1 else 0) + k <
        part.countP Event.isReturn + (if e.isReturn then 1 else 0) := by
  simp only [List.prefix_cons_iff]
  constructor
  · intro h
    obtain ⟨part, rfl | ⟨rest, rfl, hrest⟩, hlt⟩ := h
    · cases hlt
    · exact ⟨rest, hrest, by simpa only [List.countP_cons] using hlt⟩
  · intro h
    obtain ⟨rest, hrest, hlt⟩ := h
    exact ⟨e :: rest, Or.inr ⟨rest, rfl, hrest⟩, by simpa only [List.countP_cons] using hlt⟩

/-- Outstanding calls and returns, less the calls, number the returns that end calls made before the
history. This is the greatest lead of returns over calls in any beginning of the history. -/
theorem lt_outstanding_iff (h : List Event) :
    h.countP Event.isCall ≤ (outstanding h).length + h.countP Event.isReturn ∧
      ∀ k, h.countP Event.isCall + k < (outstanding h).length + h.countP Event.isReturn ↔
        ∃ part, part <+: h ∧ part.countP Event.isCall + k < part.countP Event.isReturn := by
  induction h with
  | nil => simp [outstanding]
  | cons e later ih =>
    obtain ⟨hle, ih⟩ := ih
    simp only [exists_beginning_cons, List.countP_cons, outstanding]
    have hover : Returned later ↔
        later.countP Event.isCall < (outstanding later).length + later.countP Event.isReturn :=
      (ih 0).symm
    cases hc : e.isCall with
    | true =>
      simp only [Event.isReturn_of_isCall hc, hover, if_true, true_and, Bool.false_eq_true,
          if_false]
      split
      · rename_i hopen
        rw [List.length_cons]
        refine ⟨by omega, fun k => ?_⟩
        have := ih (k + 1)
        simp only [Nat.add_zero, Nat.add_assoc, Nat.add_comm 1 k] at this ⊢
        rw [← this]
        omega
      · refine ⟨by omega, fun k => ?_⟩
        have := ih (k + 1)
        simp only [Nat.add_zero, Nat.add_assoc, Nat.add_comm 1 k] at this ⊢
        rw [← this]
    | false =>
      simp only [Bool.false_eq_true, false_and, if_false, Nat.add_zero]
      cases hr : e.isReturn with
      | false =>
        simp only [Bool.false_eq_true, if_false, Nat.add_zero]
        exact ⟨hle, ih⟩
      | true =>
        simp only [if_true]
        refine ⟨by omega, fun k => ?_⟩
        cases k with
        | zero => exact ⟨fun _ => ⟨[], List.nil_prefix, Nat.zero_lt_one⟩, fun _ => by omega⟩
        | succ k =>
          simp only [← Nat.add_assoc, Nat.add_lt_add_iff_right]
          exact ih k

theorem length_outstanding {h : List Event} (ho : ¬ Returned h) :
    (outstanding h).length + h.countP Event.isReturn = h.countP Event.isCall := by
  obtain ⟨hle, hlt⟩ := lt_outstanding_iff h
  have := mt (hlt 0).mp ho
  omega

/-! ## One more event -/

section
variable (h : List Event) {e : Event}

theorem outstanding_concat_of_not_return (he : e.isReturn = false) :
    outstanding (h ++ [e]) = outstanding h ++ if e.isCall then [e.before.fetchPc] else [] := by
  induction h with
  | nil =>
    have : ¬ Returned [] := by
      intro hover
      obtain ⟨part, hpart, hlt⟩ := hover
      rw [List.prefix_nil.mp hpart] at hlt
      cases hlt
    simp [outstanding, this]
  | cons x later ih =>
    simp only [List.cons_append, outstanding, returned_concat_of_not_return he, ih]
    split
    · rw [List.cons_append]
    · rfl

theorem outstanding_concat_of_return (he : e.isReturn) :
    outstanding (h ++ [e]) = (outstanding h).dropLast := by
  have hc : e.isCall = false := by
    rw [Bool.eq_false_iff]
    intro hc
    rw [Event.isReturn_of_isCall hc] at he
    cases he
  induction h with
  | nil => simp [outstanding, hc]
  | cons x later ih =>
    rw [List.cons_append, outstanding, outstanding, ih]
    by_cases hx : x.isCall
    · by_cases hover : Returned later
      · have hover' : Returned (later ++ [e]) := returned_concat.mpr (Or.inl hover)
        simp [hx, hover, hover']
      · -- the return ends `x` exactly if no call after `x` is outstanding
        have hover' : Returned (later ++ [e]) ↔ outstanding later = [] := by
          have hlen := length_outstanding hover
          rw [returned_concat, or_iff_right hover, ← List.length_eq_zero_iff]
          simp only [List.countP_append, List.countP_singleton, hc, he, Bool.false_eq_true,
            if_false, if_true]
          omega
        cases hout : outstanding later with
        | nil => simp [hx, hover, hover', hout]
        | cons p ps => simp [hx, hover, hover', hout]
    · simp [hx]

end

/-! ## Runs -/

namespace Machine

theorem toNat_fetchPc_add_two (m : Machine) : (m.fetchPc + 2).toNat = m.fetchPc.toNat + 2 := by
  have := m.fetchPc_le
  rw [UInt16.toNat_add]
  exact Nat.mod_eq_of_lt (by simp only [UInt16.reduceToNat]; omega)

theorem live_eq_outstanding (seed : UInt64) (ops : List Operation) :
    ((ofSeed seed).after ops).stack.live.map UInt16.toNat =
      (outstanding ((ofSeed seed).history ops)).map (·.toNat + 2) := by
  let P : List Event → Machine → Prop := fun past s =>
    s.stack.live.map UInt16.toNat = (outstanding past).map (·.toNat + 2)
  apply (ofSeed seed).after_induction (P := P) ops rfl
  intro past s op _ (ih : _ = _)
  let e : Event := ⟨s, op⟩
  show (e.after.stack.live).map _ = (outstanding (past ++ [e])).map _
  cases hc : e.isCall with
  | true =>
    rw [outstanding_concat_of_not_return past (Event.isReturn_of_isCall hc), hc, if_pos rfl,
      Event.live_of_isCall hc, List.map_append, List.map_append, ih]
    simp only [List.map_cons, List.map_nil, toNat_fetchPc_add_two]
  | false =>
    cases hr : e.isReturn with
    | true =>
      have hlive : s.stack.live = _ := Event.live_of_isReturn hr
      rw [outstanding_concat_of_return past hr, List.map_dropLast, ← ih, hlive, List.map_append,
        List.map_singleton, List.dropLast_concat]
    | false =>
      rw [outstanding_concat_of_not_return past hr, hc, Event.stack_of_neither hc hr]
      simpa using ih

/-! ## From a call back to its depth -/

theorem prefix_live_apply {base : List UInt16} {s : Machine} {op : Operation}
    (hbase : base <+: s.stack.live) (hdeep : base.length ≤ (s.apply op).stack.depth) :
    base <+: (s.apply op).stack.live := by
  let e : Event := ⟨s, op⟩
  cases hc : e.isCall with
  | true =>
    rw [show (s.apply op).stack.live = _ from Event.live_of_isCall hc]
    exact List.prefix_append_of_prefix hbase
  | false =>
    cases hr : e.isReturn with
    | true =>
      rw [show s.stack.live = _ from Event.live_of_isReturn hr] at hbase
      rw [← CallStack.length_live] at hdeep
      exact List.prefix_of_prefix_length_le hbase (List.prefix_append _ _) hdeep
    | false =>
      rw [show (s.apply op).stack = _ from Event.stack_of_neither hc hr]
      exact hbase

theorem prefix_live_after {base : List UInt16} (last : Operation) (ops : List Operation)
    {s : Machine} (hbase : base <+: s.stack.live)
    (hdeep : ∀ e ∈ s.history (ops ++ [last]), base.length ≤ e.before.stack.depth) :
    base <+: (s.after ops).stack.live := by
  induction ops generalizing s with
  | nil => exact hbase
  | cons op ops ih =>
    rw [List.cons_append, history] at hdeep
    have hrest := fun e he => hdeep e (List.mem_cons_of_mem _ he)
    refine ih (prefix_live_apply hbase ?_) hrest
    cases ops with
    | nil => exact hrest ⟨s.apply op, last⟩ List.mem_cons_self
    | cons op' ops => exact hrest ⟨s.apply op, op'⟩ List.mem_cons_self

/-- A run that starts with a call and stays deeper than before it until its last step, which comes
back to that depth. -/
structure Activation (m : Machine) (enter : Keypad) (body : List Operation) (leave : Keypad) :
    Prop where
  room : m.stack.depth < CallStack.capacity
  calls : m.fetch.family = 0x2
  succeeds : ∀ e ∈ m.history (.step enter :: body ++ [.step leave]), e.stepFault? = none
  deeper : ∀ e ∈ (m.apply (.step enter)).history (body ++ [.step leave]),
    m.stack.depth < e.before.stack.depth
  back : (m.after (.step enter :: body ++ [.step leave])).stack.depth = m.stack.depth

theorem return_of_activation {m : Machine} {enter leave : Keypad} {body : List Operation}
    (h : Activation m enter body leave) :
    (m.after (.step enter :: body)).fetch = 0x00EE ∧
      (m.after (.step enter :: body ++ [.step leave])).pc = m.fetchPc + 2 ∧
      (m.after (.step enter :: body ++ [.step leave])).stack.live = m.stack.live := by
  have hfirst : (m.step enter).fault? = none := h.succeeds ⟨m, .step enter⟩ List.mem_cons_self
  have hcall : Event.isCall ⟨m, .step enter⟩ :=
    Event.isCall_iff.mpr ⟨_, Event.executed?_step hfirst, h.calls⟩
  have hlive : (m.apply (.step enter)).stack.live = m.stack.live ++ [m.fetchPc + 2] :=
    Event.live_of_isCall hcall
  -- the address pushed by the call stays in its place until the last step
  let s := m.after (.step enter :: body)
  let e : Event := ⟨s, .step leave⟩
  have hlast : m.after (.step enter :: body ++ [.step leave]) = e.after := m.after_append _ _
  have hbase : m.stack.live ++ [m.fetchPc + 2] <+: s.stack.live := by
    refine prefix_live_after (.step leave) body (hlive ▸ List.prefix_refl _) fun e he => ?_
    rw [List.length_append, CallStack.length_live]
    exact h.deeper e he
  have hdeep : m.stack.depth < s.stack.depth := by
    have := hbase.length_le
    rw [List.length_append, CallStack.length_live, CallStack.length_live] at this
    exact this
  have hback : e.after.stack.depth = m.stack.depth := hlast ▸ h.back
  rw [hlast]
  have hret : e.isReturn := by
    cases hr : e.isReturn with
    | true => rfl
    | false =>
      cases hc : e.isCall with
      | true =>
        have hgrown := congrArg List.length (Event.live_of_isCall hc)
        rw [List.length_append, CallStack.length_live, CallStack.length_live, hback] at hgrown
        exact absurd hdeep (hgrown ▸ Nat.not_lt.mpr (Nat.le_add_right _ _))
      | false =>
        have hsame := congrArg CallStack.depth (Event.stack_of_neither hc hr)
        exact absurd (hback.symm.trans hsame) (Nat.ne_of_lt hdeep)
  have hpop : s.stack.live = e.after.stack.live ++ [e.after.pc] := Event.live_of_isReturn hret
  rw [hpop] at hbase
  have heq := hbase.eq_of_length (by
    simp only [List.length_append, CallStack.length_live, List.length_singleton, hback])
  obtain ⟨hsame, hpc⟩ := List.append_inj' heq rfl
  refine ⟨?_, (List.singleton_inj.mp hpc).symm, hsame.symm⟩
  exact (Event.step_of_executed (Event.isReturn_iff.mp hret)).1.symm

/-- **Calls and returns match.** A call whose depth is first reached again by a step is left by a
return to the word after it, with the stack as it was; and the live stack always holds the
addresses after the outstanding calls. -/
theorem calls_match_returns (seed : UInt64) (ops : List Operation) :
    let m := (ofSeed seed).after ops
    let calls := outstanding ((ofSeed seed).history ops)
    (∀ enter body leave, Activation m enter body leave →
      (m.after (.step enter :: body)).fetch = 0x00EE ∧
        (m.after (.step enter :: body ++ [.step leave])).pc.toNat = m.fetchPc.toNat + 2 ∧
        (m.after (.step enter :: body ++ [.step leave])).stack.live = m.stack.live) ∧
      m.stack.live.map UInt16.toNat = calls.map (·.toNat + 2) ∧ calls.length ≤ 16 := by
  intro m calls
  have hlive : m.stack.live.map UInt16.toNat = calls.map (·.toNat + 2) :=
    live_eq_outstanding seed ops
  refine ⟨fun enter body leave h => ?_, hlive, ?_⟩
  · obtain ⟨hfetch, hpc, hsame⟩ := return_of_activation h
    exact ⟨hfetch, hpc ▸ m.toNat_fetchPc_add_two, hsame⟩
  · have hlen := congrArg List.length hlive
    rw [List.length_map, List.length_map, CallStack.length_live] at hlen
    exact hlen ▸ m.stack.depth_le

theorem calls_match_returns_nested :
    let program : List Operation := [.loadProgram [0x22, 0x04, 0, 0, 0x22, 0x08, 0, 0xEE, 0, 0xEE]]
    let m := (ofSeed 0).after program
    let keypad : Keypad := fun _ => false
    let body : List Operation := [.step keypad, .tick, .step keypad, .takeFrame]
    Activation m keypad body keypad ∧
      (m.after (.step keypad :: body ++ [.step keypad])).pc.toNat = 0x202 := by
  intro program m keypad body
  have h : Activation m keypad body keypad := by
    constructor <;> decide +kernel
  exact ⟨h, ((calls_match_returns 0 program).1 keypad body keypad h).2.1⟩

end Machine

end Chip8
