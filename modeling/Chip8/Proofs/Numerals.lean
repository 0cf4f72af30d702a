import Chip8.Numeral
import Mathlib.Data.List.Nodup

/-!
# Numbers read back from their texts

Reading a written number gives the number, whatever the width it was padded to. In a longer text it
reaches up to the first character that is no digit, so numbers that stand between other characters
come back from the whole text, however many digits each of them has.
-/

namespace Chip8.Numeral

/-- Characters that tell the digits of a base apart; that of zero is the one for padding. -/
structure Alphabet (digit : Nat → Char) (b : Nat) : Prop where
  two_le : 2 ≤ b
  zero : digit 0 = '0'
  nodup : ((List.range b).map digit).Nodup

theorem alphabet_hex : Alphabet capitalDigit 16 := ⟨by decide, rfl, by decide⟩

theorem alphabet_decimal : Alphabet Nat.digitChar 10 := ⟨by decide, rfl, by decide⟩

theorem toList_hex (width n : Nat) : (hex width n).toList = padded capitalDigit 16 width n :=
  String.toList_ofList

theorem toList_decimal (n : Nat) : (decimal n).toList = padded Nat.digitChar 10 1 n :=
  String.toList_ofList

def digitValue (digit : Nat → Char) (b : Nat) (c : Char) : Nat :=
  ((List.range b).map digit).idxOf c

def read (digit : Nat → Char) (b : Nat) (text : List Char) : Nat :=
  value b (text.map (digitValue digit b))

def isDigit (digit : Nat → Char) (b : Nat) (c : Char) : Bool :=
  ((List.range b).map digit).contains c

/-- No digit comes first, so a number that this text follows ends before it. -/
def Ends (digit : Nat → Char) (b : Nat) (rest : List Char) : Prop :=
  rest.takeWhile (isDigit digit b) = []

/-- Digits that denote a number, at least `width` of them and no zero in front for nothing. -/
structure Written (digit : Nat → Char) (b width : Nat) (text : List Char) (n : Nat) : Prop where
  digits : ∀ c ∈ text, isDigit digit b c = true
  value : read digit b text = n
  width_le : width ≤ text.length
  no_zero : width < text.length → text.head? ≠ some '0'

def scan (digit : Nat → Char) (b : Nat) (text : List Char) : Nat × List Char :=
  (read digit b (text.takeWhile (isDigit digit b)), text.dropWhile (isDigit digit b))

variable {digit : Nat → Char} {b : Nat}

theorem ends_nil : Ends digit b [] := rfl

theorem ends_cons {c : Char} (h : isDigit digit b c = false) (rest : List Char) :
    Ends digit b (c :: rest) := by
  rw [Ends, List.takeWhile_cons_of_neg]
  simp [h]

theorem scan_append {width n : Nat} {text rest : List Char} (hn : Written digit b width text n)
    (hrest : Ends digit b rest) : scan digit b (text ++ rest) = (n, rest) := by
  have hdrop : rest.dropWhile (isDigit digit b) = rest := by
    simpa [show rest.takeWhile (isDigit digit b) = [] from hrest] using
      List.takeWhile_append_dropWhile (p := isDigit digit b) (l := rest)
  unfold scan
  rw [List.takeWhile_append_of_pos hn.digits, List.dropWhile_append_of_pos hn.digits, hrest, hdrop,
    List.append_nil, hn.value]

/-! ## One number -/

theorem value_replicate_zero_append (k : Nat) (ds : List Nat) :
    value b (List.replicate k 0 ++ ds) = value b ds := by
  induction k with
  | zero => rfl
  | succ k ih => rwa [List.replicate_succ, List.cons_append, value, List.foldl_cons]

theorem eq_zero_of_head?_digits {n : Nat} (hb : 2 ≤ b) (hzero : (digits b n).head? = some 0) :
    n = 0 := by
  fun_induction digits b n with
  | case1 n hlt => simpa using hzero
  | case2 n hge ih =>
    rw [List.head?_append_of_ne_nil _ (digits_ne_nil b (n / b))] at hzero
    have hpos : 0 < n / b := Nat.div_pos (by omega) (by omega)
    exact absurd (ih hzero) (Nat.ne_of_gt hpos)

section
variable (h : Alphabet digit b)
include h

theorem digitValue_digit {d : Nat} (hd : d < b) : digitValue digit b (digit d) = d := by
  have hplace := h.nodup.idxOf_getElem d (by simpa using hd)
  simpa [digitValue] using hplace

theorem padded_eq (width n : Nat) :
    padded digit b width n =
      (List.replicate (width - (digits b n).length) 0 ++ digits b n).map digit := by
  simp [padded, List.leftpad, h.zero]

theorem lt_of_mem_padding {width n d : Nat}
    (hd : d ∈ List.replicate (width - (digits b n).length) 0 ++ digits b n) : d < b := by
  rcases List.mem_append.mp hd with hzero | hdigit
  · have := h.two_le
    rw [List.eq_of_mem_replicate hzero]
    omega
  · exact digits_lt h.two_le n d hdigit

theorem read_padded (width n : Nat) : read digit b (padded digit b width n) = n := by
  rw [read, padded_eq h, List.map_map]
  have hvalues : ∀ d ∈ List.replicate (width - (digits b n).length) 0 ++ digits b n,
      (digitValue digit b ∘ digit) d = id d :=
    fun d hd => digitValue_digit h (lt_of_mem_padding h hd)
  rw [List.map_congr_left hvalues, List.map_id, value_replicate_zero_append, value_digits]

theorem isDigit_of_mem_padded {width n : Nat} {c : Char} (hc : c ∈ padded digit b width n) :
    isDigit digit b c = true := by
  rw [padded_eq h, List.mem_map] at hc
  obtain ⟨d, hd, rfl⟩ := hc
  have hlt := lt_of_mem_padding h hd
  simpa [isDigit] using ⟨d, hlt, rfl⟩

theorem written_padded {width : Nat} (hwidth : 0 < width) (n : Nat) :
    Written digit b width (padded digit b width n) n := by
  refine ⟨fun c hc => isDigit_of_mem_padded h hc, read_padded h width n, ?_, ?_⟩
  · simp [padded, List.leftpad]
    omega
  · intro hlong hzero
    have hbare : padded digit b width n = (digits b n).map digit := by
      rw [padded_eq h] at hlong ⊢
      simp only [List.length_map, List.length_append, List.length_replicate] at hlong
      rw [show width - (digits b n).length = 0 by omega]
      rfl
    rw [hbare, List.length_map] at hlong
    rw [hbare, List.head?_map, Option.map_eq_some_iff] at hzero
    obtain ⟨d, hd, hchar⟩ := hzero
    have hpos : 0 < b := Nat.lt_of_lt_of_le Nat.zero_lt_two h.two_le
    have hd0 : d = 0 := by
      rw [← digitValue_digit h (digits_lt h.two_le n d (List.mem_of_mem_head? hd)), hchar, ← h.zero,
        digitValue_digit h hpos]
    -- Only zero begins with the digit zero, and it has no second digit.
    rw [hd0] at hd
    rw [eq_zero_of_head?_digits h.two_le hd, digits, if_pos (Or.inl hpos)] at hlong
    simp at hlong
    omega

/-! ## Numbers in a longer text -/

theorem takeWhile_padded_append {width n : Nat} {rest : List Char} (hrest : Ends digit b rest) :
    (padded digit b width n ++ rest).takeWhile (isDigit digit b) = padded digit b width n := by
  rw [List.takeWhile_append_of_pos fun c hc => isDigit_of_mem_padded h hc, hrest,
    List.append_nil]

theorem padded_append_inj {width n n' : Nat} {rest rest' : List Char}
    (hrest : Ends digit b rest) (hrest' : Ends digit b rest')
    (heq : padded digit b width n ++ rest = padded digit b width n' ++ rest') :
    n = n' ∧ rest = rest' := by
  have htext := congrArg (List.takeWhile (isDigit digit b)) heq
  rw [takeWhile_padded_append h hrest, takeWhile_padded_append h hrest'] at htext
  have hn : n = n' := by
    rw [← read_padded h width n, htext, read_padded h]
  subst hn
  exact ⟨rfl, List.append_cancel_left heq⟩

theorem intercalate_append_inj {width : Nat} {sep : List Char}
    (hsep : ∀ rest, Ends digit b (sep ++ rest)) {ns ns' : List Nat} {rest rest' : List Char}
    (hlength : ns.length = ns'.length) (hrest : Ends digit b rest) (hrest' : Ends digit b rest')
    (heq : sep.intercalate (ns.map (padded digit b width)) ++ rest =
      sep.intercalate (ns'.map (padded digit b width)) ++ rest') :
    ns = ns' ∧ rest = rest' := by
  induction ns generalizing ns' with
  | nil =>
    obtain rfl := List.eq_nil_of_length_eq_zero hlength.symm
    exact ⟨rfl, heq⟩
  | cons n ns ih =>
    obtain ⟨n', ns', rfl⟩ := List.exists_cons_of_length_eq_add_one hlength.symm
    have htail : ns.length = ns'.length := Nat.succ_inj.mp hlength
    cases ns with
    | nil =>
      obtain rfl := List.eq_nil_of_length_eq_zero htail.symm
      simp only [List.map_cons, List.map_nil, List.intercalate_singleton] at heq
      obtain ⟨rfl, hsame⟩ := padded_append_inj h hrest hrest' heq
      exact ⟨rfl, hsame⟩
    | cons m ns =>
      obtain ⟨m', ns', rfl⟩ := List.exists_cons_of_length_eq_add_one htail.symm
      simp only [List.map_cons, List.intercalate_cons_cons, List.append_assoc] at heq
      obtain ⟨rfl, hseparated⟩ := padded_append_inj h (hsep _) (hsep _) heq
      obtain ⟨hsame, hrests⟩ := ih htail (List.append_cancel_left hseparated)
      exact ⟨congrArg _ hsame, hrests⟩

end

end Chip8.Numeral
