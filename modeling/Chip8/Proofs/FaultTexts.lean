import Chip8.Report
import Chip8.Proofs.Numerals

/-!
# Faults read back from their texts

The text of a fault gives its kind and its numbers, counts in decimal and addresses in at least four
capital hexadecimal digits. `Worded` is that format and `ofMessage?` reads it, so no two faults have
one text.
-/

namespace Chip8

namespace Fault

open Numeral

/-! ## The wording -/

def IsDecimal (text : String) (n : Nat) : Prop := Written Nat.digitChar 10 1 text.toList n

def IsAddress (text : String) (n : Nat) : Prop :=
  ∃ digits : String, text = "0x" ++ digits ∧ Written capitalDigit 16 4 digits.toList n

inductive Worded : Fault → String → Prop
  | stackUnderflow :
    Worded .stackUnderflow "stack underflow: returned from a subroutine with an empty call stack"
  | stackOverflow {depth : Nat} {text : String} (hdepth : IsDecimal text depth) :
    Worded (.stackOverflow depth) ("stack overflow: call depth exceeded " ++ text)
  | outOfBounds {address : Nat} {text : String} (haddress : IsAddress text address) :
    Worded (.outOfBounds address) ("memory access out of bounds at address " ++ text)
  | programTooLarge {size capacity : Nat} {origin : UInt16}
    {sizeText originText capacityText : String} (hsize : IsDecimal sizeText size)
    (horigin : IsAddress originText origin.toNat) (hcapacity : IsDecimal capacityText capacity) :
    Worded (.programTooLarge size origin capacity)
      ("program of " ++ sizeText ++ " bytes loaded at " ++ originText ++ " does not fit in "
        ++ capacityText ++ " bytes of memory")

theorem isDecimal_decimal (n : Nat) : IsDecimal (decimal n) n := by
  unfold IsDecimal
  rw [toList_decimal]
  exact written_padded alphabet_decimal Nat.one_pos n

theorem isAddress_address (n : Nat) : IsAddress (address n) n := by
  refine ⟨hex 4 n, rfl, ?_⟩
  rw [toList_hex]
  exact written_padded alphabet_hex (by decide) n

theorem worded_message (e : Fault) : Worded e e.message := by
  cases e with
  | stackUnderflow => exact .stackUnderflow
  | stackOverflow depth => exact .stackOverflow (isDecimal_decimal depth)
  | outOfBounds a => exact .outOfBounds (isAddress_address a)
  | programTooLarge size origin capacity =>
    exact .programTooLarge (isDecimal_decimal size) (isAddress_address origin.toNat)
      (isDecimal_decimal capacity)

/-! ## Reading -/

def after? (words : String) (text : List Char) : Option (List Char) :=
  words.toList.isPrefixOf? text

theorem after?_append (words : String) (rest : List Char) :
    after? words (words.toList ++ rest) = some rest :=
  List.isPrefixOf?_eq_some_iff_append_eq.mpr rfl

theorem after?_eq_none {words other : String} (h : ¬ words.toList <+: other.toList)
    (h' : ¬ other.toList <+: words.toList) (rest : List Char) :
    after? words (other.toList ++ rest) = none := by
  cases hafter : after? words (other.toList ++ rest) with
  | none => rfl
  | some left =>
    have hwords : words.toList <+: other.toList ++ rest :=
      ⟨left, List.isPrefixOf?_eq_some_iff_append_eq.mp hafter⟩
    cases List.prefix_or_prefix_of_prefix hwords (other.toList.prefix_append rest) with
    | inl hprefix => exact absurd hprefix h
    | inr hprefix => exact absurd hprefix h'

inductive Kind where
  | stackUnderflow
  | stackOverflow
  | outOfBounds
  | programTooLarge
deriving DecidableEq

def Kind.words : Kind → String
  | stackUnderflow => "stack underflow: returned from a subroutine with an empty call stack"
  | stackOverflow => "stack overflow: call depth exceeded "
  | outOfBounds => "memory access out of bounds at address "
  | programTooLarge => "program of "

theorem Kind.words_apart {kind other : Kind} (h : kind ≠ other) :
    ¬ kind.words.toList <+: other.words.toList := by
  revert h
  cases kind <;> cases other <;> decide

def Kind.all : List Kind := [stackUnderflow, stackOverflow, outOfBounds, programTooLarge]

def kind? (text : List Char) : Option (Kind × List Char) :=
  Kind.all.findSome? fun kind => (after? kind.words text).map (kind, ·)

theorem kind?_append (kind : Kind) (rest : List Char) :
    kind? (kind.words.toList ++ rest) = some (kind, rest) := by
  have hother : ∀ other, other ≠ kind → after? other.words (kind.words.toList ++ rest) = none :=
    fun _ hne => after?_eq_none (Kind.words_apart hne) (Kind.words_apart hne.symm) rest
  cases kind <;> simp [kind?, Kind.all, after?_append, hother]

def scanAddress? (text : List Char) : Option (Nat × List Char) :=
  (after? "0x" text).map (scan capitalDigit 16)

def readNumbers? (kind : Kind) (text : List Char) : Option Fault :=
  match kind with
  | .stackUnderflow => if text = [] then some .stackUnderflow else none
  | .stackOverflow =>
    match scan Nat.digitChar 10 text with
    | (depth, []) => some (.stackOverflow depth)
    | _ => none
  | .outOfBounds =>
    match scanAddress? text with
    | some (address, []) => some (.outOfBounds address)
    | _ => none
  | .programTooLarge => do
    let (size, text) := scan Nat.digitChar 10 text
    let text ← after? " bytes loaded at " text
    let (origin, text) ← scanAddress? text
    let text ← after? " does not fit in " text
    let (capacity, text) := scan Nat.digitChar 10 text
    if text = " bytes of memory".toList then some (.programTooLarge size (.ofNat origin) capacity)
    else none

def ofMessage? (message : String) : Option Fault := do
  let (kind, text) ← kind? message.toList
  readNumbers? kind text

theorem scan_decimal {text : String} {n : Nat} (h : IsDecimal text n) {rest : List Char}
    (hrest : Ends Nat.digitChar 10 rest) :
    scan Nat.digitChar 10 (text.toList ++ rest) = (n, rest) :=
  scan_append h hrest

theorem scanAddress?_append {text : String} {n : Nat} (h : IsAddress text n) {rest : List Char}
    (hrest : Ends capitalDigit 16 rest) : scanAddress? (text.toList ++ rest) = some (n, rest) := by
  obtain ⟨digits, rfl, hdigits⟩ := h
  unfold scanAddress?
  rw [String.toList_append, List.append_assoc, after?_append, Option.map_some,
    scan_append hdigits hrest]

theorem ofMessage?_append (kind : Kind) (rest : String) :
    ofMessage? (kind.words ++ rest) = readNumbers? kind rest.toList := by
  unfold ofMessage?
  rw [String.toList_append, kind?_append]
  rfl

theorem ofMessage?_of_worded {e : Fault} {text : String} (h : Worded e text) :
    ofMessage? text = some e := by
  cases h with
  | stackUnderflow =>
    have hread := ofMessage?_append .stackUnderflow ""
    rwa [String.append_empty] at hread
  | stackOverflow hdepth =>
    refine (ofMessage?_append .stackOverflow _).trans ?_
    have hread := scan_decimal hdepth ends_nil
    rw [List.append_nil] at hread
    simp [readNumbers?, hread]
  | outOfBounds haddress =>
    refine (ofMessage?_append .outOfBounds _).trans ?_
    have hread := scanAddress?_append haddress ends_nil
    rw [List.append_nil] at hread
    simp [readNumbers?, hread]
  | programTooLarge hsize horigin hcapacity =>
    -- Each number ends at the words after it, which begin with a blank.
    have hloaded : ∀ rest, Ends Nat.digitChar 10 (" bytes loaded at ".toList ++ rest) :=
      fun rest => ends_cons rfl _
    have hfit : ∀ rest, Ends capitalDigit 16 (" does not fit in ".toList ++ rest) :=
      fun rest => ends_cons rfl _
    have hbytes : Ends Nat.digitChar 10 " bytes of memory".toList := ends_cons rfl _
    simp only [String.append_assoc]
    refine (ofMessage?_append .programTooLarge _).trans ?_
    simp only [readNumbers?, String.toList_append, scan_decimal hsize (hloaded _), after?_append,
      scanAddress?_append horigin (hfit _), scan_decimal hcapacity hbytes, Option.bind_eq_bind,
      Option.bind_some, if_true, UInt16.ofNat_toNat]

/-- **The text of a fault identifies it.** Kind and numbers are read back from it, so two faults
with one message are the same fault; and no fault has the message of a source that cannot be read.
-/
theorem message_identifies_fault (e : Fault) :
    Worded e e.message ∧ ofMessage? e.message = some e ∧
      (∀ text, Worded e text → ofMessage? text = some e) ∧
      (∀ e' : Fault, e.message = e'.message ↔ e = e') ∧
      (LoadFault.rejected e).message = e.message ∧
      ∀ cause, (LoadFault.rejected e).message ≠ (LoadFault.unreadable cause).message := by
  have hread : ∀ e' : Fault, ofMessage? e'.message = some e' :=
    fun e' => ofMessage?_of_worded e'.worded_message
  refine ⟨e.worded_message, hread e, fun text => ofMessage?_of_worded, ?_, rfl, ?_⟩
  · intro e'
    refine ⟨fun hsame => ?_, fun h => h ▸ rfl⟩
    have he := hread e
    rw [hsame, hread e'] at he
    exact (Option.some.inj he).symm
  · intro cause hsame
    have hother : ofMessage? "unable to read ROM" = none := by decide +kernel
    rw [show "unable to read ROM" = e.message from hsame.symm, hread e] at hother
    exact Option.some_ne_none e hother

example : (outOfBounds 0x1ABCDE).message = "memory access out of bounds at address 0x1ABCDE" := by
  decide +kernel

end Fault

end Chip8
