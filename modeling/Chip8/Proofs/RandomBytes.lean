import Chip8.Proofs.Footprint

/-!
# Random bytes

A seed fixes a stream of words. A random byte takes the next of them and nothing else takes any, so
the bytes that a program gets depend on the seed alone. Of the generator only `next` is used here.
-/

namespace Chip8

namespace Generator

def skip (g : Generator) : Nat → Generator
  | 0 => g
  | count + 1 => (g.skip count).next.2

def word (g : Generator) (k : Nat) : UInt32 :=
  (g.skip k).next.1

theorem drawn_skip (g : Generator) (count : Nat) : (g.skip count).drawn = g.drawn + count := by
  induction count with
  | zero => rfl
  | succ count ih => rw [skip, next, ih, Nat.add_assoc]

end Generator

theorem Word.family_eq_iff_ofByte {w : Word} {f : Nibble} :
    w.family = f ↔ ∃ x nn, w = .ofByte f x nn := by
  constructor
  · intro h
    exact ⟨w.x, w.nn, (Word.ofByte_views (congrArg Fin.val h)).symm⟩
  · rintro ⟨x, nn, rfl⟩
    exact Word.family_ofByte f x nn

namespace Event

def takesRandom (e : Event) : Bool :=
  e.executed?.any fun w => w.family = 0xC

variable {e : Event}

theorem takesRandom_iff :
    e.takesRandom ↔ ∃ x nn, e.executed? = some (.ofByte 0xC x nn) := by
  unfold takesRandom
  cases e.executed? with
  | none => simp
  | some w => simp [Word.family_eq_iff_ofByte]

theorem random_of_executed {x : Nibble} {nn : UInt8}
    (h : e.executed? = some (.ofByte 0xC x nn)) :
    e.after.random = e.before.random.next.2 ∧
      e.after.v.get x = e.before.random.next.1.toUInt8 &&& nn := by
  obtain ⟨-, keypad, flow, done, hrun, hafter⟩ := step_of_executed h
  cases (Word.run_toWord (.randomByte x nn)).symm.trans hrun
  rw [hafter]
  exact ⟨rfl, Registers.get_set_self _ x _⟩

theorem random_of_not_takesRandom (h : e.takesRandom = false) :
    e.after.random = e.before.random := by
  cases hw : e.executed? with
  | none => obtain ⟨_, _, _, _, hafter⟩ := after_of_not_executed hw; rw [hafter]
  | some w =>
    refine (footprint_of_executed hw).random fun hwrites => ?_
    rw [Bool.eq_false_iff, ne_eq, takesRandom_iff] at h
    cases hwrites with
    | taken x nn => exact h ⟨x, nn, hw⟩

end Event

namespace Machine

def draws (past : List Event) : List Event :=
  past.filter (·.takesRandom)

theorem draws_concat (past : List Event) (e : Event) :
    draws (past ++ [e]) = if e.takesRandom then draws past ++ [e] else draws past := by
  cases htakes : e.takesRandom <;> simp [draws, htakes]

/-- What ties the generator of a machine to its past: it has gone one word ahead for each draw, and
each draw met it where those before had left it. -/
structure InStep (start : Generator) (past : List Event) (m : Machine) : Prop where
  random : m.random = start.skip (draws past).length
  met : ∀ k e, (draws past)[k]? = some e → e.before.random = start.skip k

theorem inStep_concat {start : Generator} {past : List Event} {e : Event}
    (h : InStep start past e.before) : InStep start (past ++ [e]) e.after := by
  cases htakes : e.takesRandom with
  | false =>
    have hdraws : draws (past ++ [e]) = draws past := by simp [draws_concat, htakes]
    constructor
    · rw [hdraws, Event.random_of_not_takesRandom htakes]
      exact h.random
    · rw [hdraws]
      exact h.met
  | true =>
    have hdraws : draws (past ++ [e]) = draws past ++ [e] := by simp [draws_concat, htakes]
    constructor
    · obtain ⟨x, nn, hw⟩ := Event.takesRandom_iff.mp htakes
      rw [hdraws, List.length_append, (Event.random_of_executed hw).1, h.random]
      rfl
    · intro k e' hk
      rw [hdraws, List.getElem?_append] at hk
      split at hk
      · exact h.met k e' hk
      · next hge =>
        obtain ⟨j, rfl⟩ := Nat.exists_eq_add_of_le (Nat.le_of_not_lt hge)
        rw [Nat.add_sub_cancel_left] at hk
        cases j with
        | zero => cases hk; exact h.random
        | succ j => cases hk

theorem inStep_after (m : Machine) (ops : List Operation) :
    InStep m.random (m.history ops) (m.after ops) := by
  refine m.after_induction (P := InStep m.random) ops ⟨rfl, ?_⟩ fun _ _ _ _ h => inStep_concat h
  intro k e hk
  cases hk

/-- **Random bytes come from the stream of the seed, one word for each and in order.** Draw `k`,
also one whose mask is zero, gives the low byte of word `k` under its mask; nothing else moves the
generator. -/
theorem random_bytes_in_order (seed : UInt64) (ops : List Operation) :
    let g := Generator.ofSeed seed
    let m := (ofSeed seed).after ops
    let past := (ofSeed seed).history ops
    (∀ k e, (draws past)[k]? = some e → ∃ x nn, e.executed? = some (.ofByte 0xC x nn) ∧
        (e.after.v.get x).toNat = (g.word k).toNat % 256 &&& nn.toNat) ∧
      m.random = g.skip (draws past).length ∧ m.random.drawn = (draws past).length ∧
      ∀ e ∈ past, (∀ x nn, e.executed? ≠ some (.ofByte 0xC x nn)) →
        e.after.random = e.before.random := by
  intro g m past
  have hstep : InStep g past m := inStep_after (ofSeed seed) ops
  refine ⟨?_, hstep.random, ?_, ?_⟩
  · intro k e hk
    have htakes : e.takesRandom := (List.mem_filter.mp (List.mem_of_getElem? hk)).2
    obtain ⟨x, nn, hw⟩ := Event.takesRandom_iff.mp htakes
    refine ⟨x, nn, hw, ?_⟩
    rw [(Event.random_of_executed hw).2, hstep.met k e hk, UInt8.toNat_and, UInt32.toNat_toUInt8]
    rfl
  · rw [hstep.random, Generator.drawn_skip]
    exact Nat.zero_add _
  · intro e _ hother
    refine Event.random_of_not_takesRandom ?_
    rw [Bool.eq_false_iff, ne_eq, Event.takesRandom_iff]
    rintro ⟨x, nn, hw⟩
    exact hother x nn hw

theorem random_bytes_in_order_past_key_wait :
    let up : Keypad := fun _ => false
    let down : Keypad := fun key => key = 7
    let program := Operation.loadProgram [0xC0, 0x00, 0xF1, 0x0A, 0xC2, 0xFF]
    let ops := [program, .step up, .step up, .tick, .step down]
    let last : Event := ⟨(ofSeed 0).after ops, .step up⟩
    let past := (ofSeed 0).history (ops ++ [.step up])
    (draws past)[1]? = some last ∧ last.executed? = some (.ofByte 0xC 2 0xFF) ∧
      (last.after.v.get 2).toNat = ((Generator.ofSeed 0).word 1).toNat % 256 &&& 0xFF ∧
      (last.after.v.get 2).toNat = 0xB2 := by
  intro up down program ops last past
  obtain ⟨hword, hbefore, hvalue⟩ : last.executed? = some (.ofByte 0xC 2 0xFF) ∧
      (draws ((ofSeed 0).history ops)).length = 1 ∧ (last.after.v.get 2).toNat = 0xB2 := by
    decide +kernel
  have hsecond : (draws past)[1]? = some last := by
    have hpast : past = (ofSeed 0).history ops ++ [last] := history_append _ ops [.step up]
    rw [hpast, draws_concat, if_pos (Event.takesRandom_iff.mpr ⟨2, 0xFF, hword⟩), ← hbefore]
    exact List.getElem?_concat_length
  have hdraw := (random_bytes_in_order 0 (ops ++ [.step up])).1 1 last
  obtain ⟨x, nn, hw, hbyte⟩ := hdraw hsecond
  have hsame := Option.some.inj (hw.symm.trans hword)
  obtain rfl : x = 2 := by rw [← Word.x_ofByte 0xC x nn, hsame, Word.x_ofByte]
  obtain rfl : nn = 0xFF := by rw [← Word.nn_ofByte 0xC 2 nn, hsame, Word.nn_ofByte]
  exact ⟨hsecond, hword, hbyte, hvalue⟩

end Machine

end Chip8
