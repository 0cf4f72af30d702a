import Chip8.Instruction

/-!
# Reading words back as instructions

The views of a word return the parts it was built from, and reading is the inverse of writing:
`ofWord?_eq_some_iff` says that a word stands for an instruction exactly when it is that
instruction's word.
-/

namespace Chip8

namespace Word

/-! ## The parts of a word -/

section
variable (f x y n : Nibble) (nn : UInt8) (nnn : Address)

theorem family_ofNibbles : (ofNibbles f x y n).family = f := by
  apply Fin.ext; simp only [family, toNat_ofNibbles]; omega

theorem x_ofNibbles : (ofNibbles f x y n).x = x := by
  apply Fin.ext; simp only [Word.x, toNat_ofNibbles]; omega

theorem y_ofNibbles : (ofNibbles f x y n).y = y := by
  apply Fin.ext; simp only [Word.y, toNat_ofNibbles]; omega

theorem n_ofNibbles : (ofNibbles f x y n).n = n := by
  apply Fin.ext; simp only [Word.n, toNat_ofNibbles]; omega

theorem family_ofByte : (ofByte f x nn).family = f := by
  have := nn.toNat_lt
  apply Fin.ext; simp only [family, toNat_ofByte]; omega

theorem x_ofByte : (ofByte f x nn).x = x := by
  have := nn.toNat_lt
  apply Fin.ext; simp only [Word.x, toNat_ofByte]; omega

theorem nn_ofByte : (ofByte f x nn).nn = nn := by
  have := nn.toNat_lt
  rw [← UInt8.toNat_inj, Word.nn, UInt8.toNat_ofNat', toNat_ofByte]; omega

theorem family_ofAddress : (ofAddress f nnn).family = f := by
  apply Fin.ext; simp only [family, toNat_ofAddress]; omega

theorem nnn_ofAddress : (ofAddress f nnn).nnn = nnn := by
  apply Fin.ext; simp only [Word.nnn, toNat_ofAddress]; omega

end

/-! ## A word from its parts -/

section
variable {w : Word} {f : Nibble} (h : w.family.val = f.val)
include h

theorem ofNibbles_views : ofNibbles f w.x w.y w.n = w := by
  have := w.toNat_lt
  rw [← UInt16.toNat_inj, toNat_ofNibbles, ← h]
  simp only [family, Word.x, Word.y, Word.n]; omega

theorem ofByte_views : ofByte f w.x w.nn = w := by
  have := w.toNat_lt
  rw [← UInt16.toNat_inj, toNat_ofByte, ← h, Word.nn, UInt8.toNat_ofNat']
  simp only [family, Word.x]; omega

theorem ofAddress_views : ofAddress f w.nnn = w := by
  have := w.toNat_lt
  rw [← UInt16.toNat_inj, toNat_ofAddress, ← h]
  simp only [family, Word.nnn]; omega

end

end Word

namespace Instruction

open Word

theorem ofWord?_toWord (i : Instruction) : ofWord? i.toWord = some i := by
  cases i with
  | clearScreen => rfl
  | returnToCaller => rfl
  | skipIf condition =>
    cases condition <;>
      simp only [toWord, Condition.toWord, ofWord?, family_ofByte, x_ofByte, nn_ofByte,
        family_ofNibbles, x_ofNibbles, y_ofNibbles, n_ofNibbles] <;> rfl
  | combine how x y =>
    simp only [toWord, ofWord?, family_ofNibbles, x_ofNibbles, y_ofNibbles, n_ofNibbles,
      Combination.ofCode?_code]
    rfl
  | _ =>
    simp only [toWord, ofWord?, ofRegisterByte?, family_ofByte, x_ofByte, nn_ofByte,
      family_ofNibbles, x_ofNibbles, y_ofNibbles, n_ofNibbles, family_ofAddress, nnn_ofAddress]
    rfl

theorem code_of_ofCode? {n : Nibble} {how : Combination} (h : Combination.ofCode? n = some how) :
    how.code = n := by
  revert n
  cases how <;> decide

theorem toWord_of_ofRegisterByte? {x : Nibble} {nn : UInt8} {i : Instruction}
    (h : ofRegisterByte? x nn = some i) : i.toWord = ofByte 0xF x nn := by
  have hnn : ∀ k, nn.toNat = k → nn = UInt8.ofNat k := fun k hk => by rw [← hk, UInt8.ofNat_toNat]
  unfold ofRegisterByte? at h
  split at h
  case h_10 => cases h
  all_goals
    rename_i hk
    obtain rfl := hnn _ hk
    cases h
    rfl

theorem toWord_of_ofWord? {w : Word} {i : Instruction} (h : ofWord? w = some i) :
    i.toWord = w := by
  unfold ofWord? at h
  split at h
  case h_1 =>
    split at h
    · rename_i hw; cases h; exact hw.symm
    · split at h
      · rename_i hw; cases h; exact hw.symm
      · cases h
  case h_2 hf => cases h; exact ofAddress_views hf
  case h_3 hf => cases h; exact ofAddress_views hf
  case h_4 hf => cases h; exact ofByte_views hf
  case h_5 hf => cases h; exact ofByte_views hf
  case h_6 hf =>
    split at h
    · rename_i hn; cases h; exact (congrArg _ hn.symm).trans (ofNibbles_views hf)
    · cases h
  case h_7 hf => cases h; exact ofByte_views hf
  case h_8 hf => cases h; exact ofByte_views hf
  case h_9 hf =>
    obtain ⟨how, hhow, rfl⟩ := Option.map_eq_some_iff.mp h
    rw [toWord, code_of_ofCode? hhow]
    exact ofNibbles_views hf
  case h_10 hf =>
    split at h
    · rename_i hn; cases h; exact (congrArg _ hn.symm).trans (ofNibbles_views hf)
    · cases h
  case h_11 hf => cases h; exact ofAddress_views hf
  case h_12 hf => cases h; exact ofAddress_views hf
  case h_13 hf => cases h; exact ofByte_views hf
  case h_14 hf => cases h; exact ofNibbles_views hf
  case h_15 hf =>
    split at h
    · rename_i hn; cases h; exact (congrArg _ hn.symm).trans (ofByte_views hf)
    · split at h
      · rename_i hn; cases h; exact (congrArg _ hn.symm).trans (ofByte_views hf)
      · cases h
  case h_16 hf => exact (toWord_of_ofRegisterByte? h).trans (ofByte_views hf)
  case h_17 => cases h

theorem ofWord?_eq_some_iff {w : Word} {i : Instruction} : ofWord? w = some i ↔ w = i.toWord :=
  ⟨fun h => (toWord_of_ofWord? h).symm, fun h => h ▸ ofWord?_toWord i⟩

theorem any_ofWord?_iff {p : Instruction → Bool} {w : Word} :
    (ofWord? w).any p = true ↔ ∃ i, w = i.toWord ∧ p i = true := by
  simp only [Option.any_eq_true, ofWord?_eq_some_iff]

theorem ofWord?_call {w : Word} (h : w.family = 0x2) : ofWord? w = some (call w.nnn) :=
  ofWord?_eq_some_iff.mpr (ofAddress_views (congrArg Fin.val h)).symm

theorem ofWord?_draw {w : Word} (h : w.family = 0xD) : ofWord? w = some (draw w.x w.y w.n) :=
  ofWord?_eq_some_iff.mpr (ofNibbles_views (congrArg Fin.val h)).symm

end Instruction

end Chip8
