import Chip8.CommandLine.Parse

/-!
# What is pending and what is settled

What is given last on a command line is pending until a later word, or the end, settles it. Without
a fault it may as well be settled at once (`outcome_of_settle`); with one, `Reports` says of the
words that are left that they come to it first.
-/

namespace Chip8.CommandLine

/-! ## Drafts -/

namespace Draft

variable {d d' : Draft} {s : Setting} {text : String}

theorem give_ok (h : d.give s text = .ok d') :
    ∃ n, s.read text = .ok n ∧ d' = { d with given := (s, n) :: d.given } := by
  unfold give at h
  split at h
  · cases h
  · split at h
    · next n hread => exact ⟨n, hread, (Except.ok.inj h).symm⟩
    · cases h

theorem rom?_of_give (h : d.give s text = .ok d') : d'.rom? = d.rom? := by
  obtain ⟨n, -, rfl⟩ := give_ok h
  rfl

theorem give_of_read {n : Nat} (hfresh : d.value? s = none) (hread : s.read text = .ok n) :
    d.give s text = .ok { d with given := (s, n) :: d.given } := by
  unfold give
  rw [hfresh, hread]
  rfl

theorem give_of_misread {fault : ValueFault} (hfresh : d.value? s = none)
    (hread : s.read text = .error fault) :
    d.give s text = .error (.refused (.badValue s text fault)) := by
  unfold give
  rw [hfresh, hread]
  rfl

theorem value?_given (d : Draft) (s s' : Setting) (n : Nat) :
    Draft.value? { d with given := (s, n) :: d.given } s' =
      if s' = s then some n else d.value? s' := by
  unfold value?
  rw [List.lookup_cons]
  by_cases h : s' = s
  · simp [h]
  · rw [beq_false_of_ne h, if_neg h]

theorem give_withRom (d : Draft) (rom? : Option String) (s : Setting) (text : String) :
    { d with rom? }.give s text = (d.give s text).map ({ · with rom? }) := by
  unfold give value?
  split
  · rfl
  · cases s.read text <;> rfl

end Draft

namespace Reading

variable {r : Reading} {d : Draft}

/-! ## Settling at once -/

def outcome (r : Reading) (ws : List String) : Except Stop Options :=
  (ws.foldlM absorb r).bind finish

abbrev settled (d : Draft) : Reading := ⟨d, .nothing, false⟩

theorem settle_nothing (d : Draft) (ended : Bool) : settle ⟨d, .nothing, ended⟩ = .ok d := rfl

theorem settle_value (d : Draft) (s : Setting) (text : String) (ended : Bool) :
    settle ⟨d, .value s text, ended⟩ = d.give s text := rfl

theorem settle_rom {rom : String} (hne : rom ≠ "") (ended : Bool) :
    settle ⟨d, .rom rom, ended⟩ = .ok { d with rom? := some rom } := by
  simp [settle, hne]

theorem outcome_nil (r : Reading) : r.outcome [] = r.settle.bind Draft.options := rfl

theorem outcome_cons (r : Reading) (w : String) (ws : List String) :
    r.outcome (w :: ws) = (r.absorb w).bind (·.outcome ws) := by
  unfold outcome
  rw [List.foldlM_cons]
  cases r.absorb w <;> rfl

theorem push_of_settle (h : r.settle = .ok d) (pending : Pending) :
    r.push pending = .ok ⟨d, pending, r.optionsEnded⟩ := by
  unfold push
  rw [h]
  rfl

theorem romGiven_of_settle (h : r.settle = .ok d) : r.romGiven = d.rom?.isSome := by
  obtain ⟨draft, pending, ended⟩ := r
  cases pending with
  | nothing =>
    cases h
    rfl
  | awaiting s => cases h
  | value s text =>
    rw [settle_value] at h
    rw [Draft.rom?_of_give h]
    rfl
  | rom text =>
    by_cases hempty : text = ""
    · simp [settle, hempty] at h
    · rw [settle_rom hempty] at h
      cases h
      rfl

theorem operand_of_settle (h : r.settle = .ok d) (w : String) :
    r.operand w =
      if d.rom?.isSome then .error (.refused (.unexpectedArgument w))
      else .ok ⟨d, .rom w, r.optionsEnded⟩ := by
  unfold operand
  rw [romGiven_of_settle h, push_of_settle h]

/-- Where what is pending has no fault, it may as well be settled at once. -/
theorem outcome_of_settle (h : r.settle = .ok d) (ws : List String) :
    r.outcome ws = Reading.outcome ⟨d, .nothing, r.optionsEnded⟩ ws := by
  induction ws generalizing r with
  | nil => rw [outcome_nil, outcome_nil, h, settle_nothing]
  | cons w ws ih =>
    rw [outcome_cons, outcome_cons]
    have hnow := settle_nothing d r.optionsEnded
    have hawaits : ∀ s, r.pending ≠ .awaiting s := by
      intro s hpending
      rw [settle, hpending] at h
      cases h
    unfold absorb
    split
    · rw [operand_of_settle h, operand_of_settle hnow]
    · cases Token.ofWord w with
      -- Only the end of the options leaves what is pending as it is.
      | endOfOptions => exact ih h
      | setting s attached? =>
        cases attached? with
        | none => simp only [push_of_settle h, push_of_settle hnow]
        | some text => simp only [h, hnow]
      | switch s attached? =>
        cases attached? with
        | none => cases s <;> simp only [stopAt, h, hnow]
        | some text => rfl
      | unknown spelling => rfl
      | plain =>
        simp only
        rw [operand_of_settle h, operand_of_settle hnow]

/-! ## Words that settle -/

variable {w value rom : String} {s : Setting} {ws : List String}

/-- These words come to a value that is pending and report what is wrong with it. -/
def Reports (d : Draft) (ws : List String) : Prop :=
  ∀ s text stop, d.give s text = .error stop →
    Reading.outcome ⟨d, .value s text, false⟩ ws = .error stop

theorem reports_nil : Reports d [] := by
  intro s text stop hgive
  rw [outcome_nil, settle_value, hgive]
  rfl

theorem outcome_value (hws : Reports d ws) (s : Setting) (text : String) :
    Reading.outcome ⟨d, .value s text, false⟩ ws =
      (d.give s text).bind fun d => (settled d).outcome ws := by
  cases hgive : d.give s text with
  | error stop => exact hws s text stop hgive
  | ok d' => exact outcome_of_settle (r := ⟨d, .value s text, false⟩) hgive ws

theorem outcome_awaiting (hvalue : Token.ofWord value = .plain) (ws : List String) :
    Reading.outcome ⟨d, .awaiting s, false⟩ (value :: ws) =
      Reading.outcome ⟨d, .value s value, false⟩ ws := by
  rw [outcome_cons]
  unfold absorb
  rw [if_neg Bool.false_ne_true, hvalue]
  rfl

theorem outcome_apart (hopen : r.optionsEnded = false) (hword : Token.ofWord w = .setting s none)
    (hvalue : Token.ofWord value = .plain) (hws : ∀ d, r.settle = .ok d → Reports d ws) :
    r.outcome (w :: value :: ws) =
      r.settle.bind fun d => (d.give s value).bind fun d => (settled d).outcome ws := by
  rw [outcome_cons]
  unfold absorb push
  rw [hopen, hword]
  cases hsettle : r.settle with
  | error stop => rfl
  | ok d =>
    show Reading.outcome ⟨d, .awaiting s, false⟩ (value :: ws) = _
    rw [outcome_awaiting hvalue, outcome_value (hws d hsettle)]
    rfl

theorem outcome_attached (hopen : r.optionsEnded = false)
    (hword : Token.ofWord w = .setting s (some value)) (ws : List String) :
    r.outcome (w :: ws) =
      r.settle.bind fun d => (d.give s value).bind fun d => (settled d).outcome ws := by
  rw [outcome_cons]
  unfold absorb
  rw [hopen, hword]
  cases r.settle with
  | error stop => rfl
  | ok d =>
    show ((d.give s value).map _).bind _ = (d.give s value).bind _
    cases d.give s value <;> rfl

theorem outcome_end (hopen : r.optionsEnded = false) (ws : List String) :
    r.outcome ("--" :: ws) = Reading.outcome { r with optionsEnded := true } ws := by
  have hend : Token.ofWord "--" = .endOfOptions := by decide +kernel
  rw [outcome_cons]
  unfold absorb
  rw [hopen, hend]
  rfl

/-! ## The operand -/

theorem outcome_operand (hgiven : r.romGiven = false) (hawaits : ∀ s, r.pending ≠ .awaiting s)
    (hplain : r.optionsEnded = true ∨ Token.ofWord rom = .plain) (ws : List String) :
    r.outcome (rom :: ws) =
      r.settle.bind fun d => Reading.outcome ⟨d, .rom rom, r.optionsEnded⟩ ws := by
  have habsorb : r.absorb rom = r.push (.rom rom) := by
    unfold absorb operand
    by_cases hended : r.optionsEnded = true
    · simp [hended, hgiven]
    · simp [hended, hplain.resolve_left hended, hgiven]
  rw [outcome_cons, habsorb]
  unfold push
  cases r.settle <;> rfl

section
variable (hrom : d.rom? = none)
include hrom

theorem reports_rom (hplain : Token.ofWord rom = .plain) (ws : List String) :
    Reports d (rom :: ws) := by
  intro s text stop hgive
  have hgiven : Reading.romGiven ⟨d, .value s text, false⟩ = false := by simp [romGiven, hrom]
  rw [outcome_operand hgiven (by simp) (.inr hplain), settle_value, hgive]
  rfl

theorem reports_ended (rom : String) : Reports d ["--", rom] := by
  intro s text stop hgive
  have hgiven : Reading.romGiven ⟨d, .value s text, true⟩ = false := by simp [romGiven, hrom]
  rw [outcome_end rfl, outcome_operand hgiven (by simp) (.inl rfl), settle_value, hgive]
  rfl

theorem outcome_rom (hne : rom ≠ "") (hplain : Token.ofWord rom = .plain) (ws : List String) :
    (settled d).outcome (rom :: ws) = (settled { d with rom? := some rom }).outcome ws := by
  have hgiven : (settled d).romGiven = false := by simp [romGiven, hrom]
  rw [outcome_operand hgiven (by simp) (.inr hplain)]
  exact outcome_of_settle (settle_rom hne false) ws

theorem outcome_ended (hne : rom ≠ "") :
    (settled d).outcome ["--", rom] = Draft.options { d with rom? := some rom } := by
  have hgiven : Reading.romGiven ⟨d, .nothing, true⟩ = false := by simp [romGiven, hrom]
  rw [outcome_end rfl, outcome_operand hgiven (by simp) (.inl rfl), settle_nothing]
  show Reading.outcome ⟨d, .rom rom, true⟩ [] = _
  rw [outcome_nil, settle_rom hne]
  rfl

end

end Reading

end Chip8.CommandLine
