import Chip8.Proofs.Amounts
import Chip8.Proofs.Settling

/-!
# Command lines read back

`Gives` says which lines name a program and give numbers to settings, in each spelling and place.
Such a line is read as if its settings were given one by one (`parse_of_gives`), so what was written
comes back, and a number that is too large is refused.
-/

namespace Chip8.CommandLine

/-! ## Spellings -/

inductive Letter where
  | s
  | c

namespace Letter

def setting : Letter → Setting
  | s => .scale
  | c => .cyclesPerFrame

def text : Letter → String
  | s => "s"
  | c => "c"

end Letter

inductive Spelling where
  | nameApart (s : Setting)
  | nameEquals (s : Setting)
  | letterApart (l : Letter)
  | letterEquals (l : Letter)
  | letterJoined (l : Letter)

namespace Spelling

def setting : Spelling → Setting
  | nameApart s => s
  | nameEquals s => s
  | letterApart l => l.setting
  | letterEquals l => l.setting
  | letterJoined l => l.setting

def words (value : String) : Spelling → List String
  | nameApart s => ["--" ++ s.name, value]
  | nameEquals s => ["--" ++ s.name ++ "=" ++ value]
  | letterApart l => ["-" ++ l.text, value]
  | letterEquals l => ["-" ++ l.text ++ "=" ++ value]
  | letterJoined l => ["-" ++ l.text ++ value]

end Spelling

structure Assignment where
  spelling : Spelling
  amount : Amount

namespace Assignment

def setting (a : Assignment) : Setting := a.spelling.setting

def number (a : Assignment) : Nat := a.amount.number

def words (a : Assignment) : List String := a.spelling.words a.amount.text

end Assignment

/-- The words of a line with these settings, in this order. The program may stand anywhere among
them if it does not look like an option, and in any case behind the end of the options. -/
inductive Gives (rom : String) : List Assignment → List String → Prop
  | among (before after : List Assignment) (hplain : rom.toList.head? ≠ some '-') :
    Gives rom (before ++ after) (before.flatMap (·.words) ++ rom :: after.flatMap (·.words))
  | ended (settings : List Assignment) :
    Gives rom settings (settings.flatMap (·.words) ++ ["--", rom])

/-! ## Words -/

namespace Token

theorem ofWord_name (s : Setting) : ofWord ("--" ++ s.name) = .setting s none := by
  cases s <;> decide +kernel

theorem ofWord_nameEquals (s : Setting) (value : String) :
    ofWord ("--" ++ s.name ++ "=" ++ value) = .setting s (some value) := by
  have htext : ("--" ++ s.name ++ "=" ++ value).toList =
      '-' :: '-' :: (s.name.toList ++ '=' :: value.toList) := by
    simp
  unfold ofWord
  rw [htext]
  cases s <;> simp [ofLong, splitValue, Setting.name]

theorem ofWord_letter (l : Letter) : ofWord ("-" ++ l.text) = .setting l.setting none := by
  cases l <;> decide +kernel

theorem ofWord_letterEquals (l : Letter) (value : String) :
    ofWord ("-" ++ l.text ++ "=" ++ value) = .setting l.setting (some value) := by
  have htext : ("-" ++ l.text ++ "=" ++ value).toList =
      '-' :: (l.text.toList ++ '=' :: value.toList) := by
    simp
  unfold ofWord
  rw [htext]
  cases l <;> simp [ofShort, Letter.text, attachedTo, Letter.setting]

theorem ofWord_letterJoined (l : Letter) (a : Amount) :
    ofWord ("-" ++ l.text ++ a.text) = .setting l.setting (some a.text) := by
  obtain ⟨c, rest, hvalue, -, hequals⟩ := a.exists_toList_text
  have htext : ("-" ++ l.text ++ a.text).toList = '-' :: (l.text.toList ++ c :: rest) := by
    simp [hvalue]
  have hattached : attachedTo (c :: rest) = some a.text := by
    rw [← String.ofList_toList (s := a.text), hvalue]
    unfold attachedTo
    split
    · contradiction
    · next heq => exact absurd (List.cons.inj heq).1 hequals
    · rfl
  unfold ofWord
  rw [htext]
  cases l <;> simp [ofShort, Letter.text, hattached, Letter.setting]

theorem ofWord_plain {word : String} (h : word.toList.head? ≠ some '-') : ofWord word = .plain := by
  unfold ofWord
  split
  · simp_all
  · simp_all
  · simp_all
  · rfl

theorem ofWord_amount (a : Amount) : ofWord a.text = .plain := by
  obtain ⟨c, rest, htext, hminus, -⟩ := a.exists_toList_text
  apply ofWord_plain
  simpa [htext] using hminus

end Token

/-! ## Settings given one by one -/

namespace Draft

def giveAll (d : Draft) (settings : List Assignment) : Except Stop Draft :=
  settings.foldlM (fun d a => d.give a.setting a.amount.text) d

variable {d d' : Draft} {settings : List Assignment}

theorem giveAll_cons (d : Draft) (a : Assignment) (settings : List Assignment) :
    d.giveAll (a :: settings) = (d.give a.setting a.amount.text).bind (·.giveAll settings) :=
  List.foldlM_cons ..

theorem giveAll_append (d : Draft) (before after : List Assignment) :
    d.giveAll (before ++ after) = (d.giveAll before).bind (·.giveAll after) :=
  List.foldlM_append ..

theorem giveAll_withRom (d : Draft) (rom? : Option String) (settings : List Assignment) :
    { d with rom? }.giveAll settings = (d.giveAll settings).map ({ · with rom? }) := by
  induction settings generalizing d with
  | nil => rfl
  | cons a settings ih =>
    rw [giveAll_cons, giveAll_cons, give_withRom]
    cases d.give a.setting a.amount.text with
    | error stop => rfl
    | ok next => exact ih next

theorem rom?_of_giveAll (h : d.giveAll settings = .ok d') : d'.rom? = d.rom? := by
  induction settings generalizing d with
  | nil =>
    cases h
    rfl
  | cons a settings ih =>
    rw [giveAll_cons] at h
    cases hgive : d.give a.setting a.amount.text with
    | error stop =>
      rw [hgive] at h
      cases h
    | ok next =>
      rw [hgive] at h
      rw [ih h, rom?_of_give hgive]

theorem exists_giveAll (hfresh : ∀ a ∈ settings, d.value? a.setting = none)
    (honce : (settings.map (·.setting)).Nodup)
    (hbound : ∀ a ∈ settings, a.number < a.setting.bound) :
    ∃ d', d.giveAll settings = .ok d' ∧
      (∀ a ∈ settings, d'.value? a.setting = some a.number) ∧
      ∀ s, s ∉ settings.map (·.setting) → d'.value? s = d.value? s := by
  induction settings generalizing d with
  | nil => exact ⟨d, rfl, nofun, fun _ _ => rfl⟩
  | cons a settings ih =>
    rw [List.map_cons, List.nodup_cons] at honce
    let next : Draft := { d with given := (a.setting, a.number) :: d.given }
    have hgive : d.give a.setting a.amount.text = .ok next :=
      give_of_read (hfresh a List.mem_cons_self)
        (Setting.read_of_lt (hbound a List.mem_cons_self))
    have hnext : ∀ b ∈ settings, next.value? b.setting = none := by
      intro b hb
      have hne : b.setting ≠ a.setting := fun h => honce.1 (h ▸ List.mem_map_of_mem hb)
      rw [value?_given, if_neg hne, hfresh b (List.mem_cons_of_mem a hb)]
    obtain ⟨d', hd', hgiven, hkept⟩ :=
      ih hnext honce.2 fun b hb => hbound b (List.mem_cons_of_mem a hb)
    refine ⟨d', ?_, ?_, ?_⟩
    · rw [giveAll_cons, hgive]
      exact hd'
    · intro b hb
      cases hb with
      | head => rw [hkept a.setting honce.1, value?_given, if_pos rfl]
      | tail _ hb => exact hgiven b hb
    · intro s hs
      rw [List.map_cons, List.mem_cons, not_or] at hs
      rw [hkept s hs.2, value?_given, if_neg hs.1]

end Draft

/-! ## Lines -/

namespace Reading

theorem outcome_assignment {r : Reading} (hopen : r.optionsEnded = false) (a : Assignment)
    {ws : List String} (hws : ∀ d, r.settle = .ok d → Reports d ws) :
    r.outcome (a.words ++ ws) = r.settle.bind fun d =>
      (d.give a.setting a.amount.text).bind fun d => (settled d).outcome ws := by
  obtain ⟨spelling, amount⟩ := a
  cases spelling with
  | nameApart s => exact outcome_apart hopen (Token.ofWord_name s) (Token.ofWord_amount amount) hws
  | letterApart l =>
    exact outcome_apart hopen (Token.ofWord_letter l) (Token.ofWord_amount amount) hws
  | nameEquals s => exact outcome_attached hopen (Token.ofWord_nameEquals s amount.text) ws
  | letterEquals l => exact outcome_attached hopen (Token.ofWord_letterEquals l amount.text) ws
  | letterJoined l => exact outcome_attached hopen (Token.ofWord_letterJoined l amount) ws

theorem reports_assignment (d : Draft) (a : Assignment) (ws : List String) :
    Reports d (a.words ++ ws) := by
  intro s text stop hgive
  have hsettle := (settle_value d s text false).trans hgive
  rw [outcome_assignment rfl a, hsettle]
  · rfl
  · intro d' hd'
    rw [hsettle] at hd'
    cases hd'

theorem reports_settings {d : Draft} {ws : List String} (hws : Reports d ws)
    (settings : List Assignment) : Reports d (settings.flatMap (·.words) ++ ws) := by
  cases settings with
  | nil => exact hws
  | cons a settings =>
    rw [List.flatMap_cons, List.append_assoc]
    exact reports_assignment d a _

theorem outcome_settings (d : Draft) (settings : List Assignment) {ws : List String}
    (hws : ∀ d', d'.rom? = d.rom? → Reports d' ws) :
    (settled d).outcome (settings.flatMap (·.words) ++ ws) =
      (d.giveAll settings).bind fun d => (settled d).outcome ws := by
  induction settings generalizing d with
  | nil => rfl
  | cons a settings ih =>
    rw [List.flatMap_cons, List.append_assoc, outcome_assignment rfl a, Draft.giveAll_cons]
    · show (d.give a.setting a.amount.text).bind _ = _
      cases hgive : d.give a.setting a.amount.text with
      | error stop => rfl
      | ok next => exact ih next fun d' hd' => hws d' (hd'.trans (Draft.rom?_of_give hgive))
    · rintro d' ⟨⟩
      exact reports_settings (hws d rfl) settings

end Reading

/-- A line is read as if its settings were given one by one, with the program known from the start.
-/
theorem parse_of_gives {rom : String} {settings : List Assignment} {words : List String}
    (h : Gives rom settings words) (hrom : rom ≠ "") :
    parse words = (Draft.giveAll ⟨some rom, []⟩ settings).bind Draft.options := by
  have hgiven : ∀ settings, Draft.giveAll ⟨some rom, []⟩ settings =
      (Draft.empty.giveAll settings).map ({ · with rom? := some rom }) :=
    Draft.giveAll_withRom Draft.empty (some rom)
  show (Reading.settled .empty).outcome words = _
  cases h with
  | among before after hplain =>
    have hword : Token.ofWord rom = .plain := Token.ofWord_plain hplain
    rw [Reading.outcome_settings .empty before fun d hd => Reading.reports_rom hd hword _,
      Draft.giveAll_append, hgiven]
    cases hbefore : Draft.empty.giveAll before with
    | error stop => rfl
    | ok d =>
      have hnone : d.rom? = none := Draft.rom?_of_giveAll hbefore
      show (Reading.settled d).outcome (rom :: _) = _
      rw [Reading.outcome_rom hnone hrom hword, ← List.append_nil (after.flatMap _),
        Reading.outcome_settings _ after fun d _ => Reading.reports_nil]
      rfl
  | ended =>
    rw [Reading.outcome_settings .empty settings fun d hd => Reading.reports_ended hd rom, hgiven]
    cases hsettings : Draft.empty.giveAll settings with
    | error stop => rfl
    | ok d => exact Reading.outcome_ended (Draft.rom?_of_giveAll hsettings) hrom

/-! ## Values -/

def Setting.default? : Setting → Option Nat
  | scale => some 10
  | cyclesPerFrame => some 8
  | seed => none

def Options.value? (o : Options) : Setting → Option Nat
  | .scale => some o.scale.toNat
  | .cyclesPerFrame => some o.cyclesPerFrame.toNat
  | .seed => o.seed?.map UInt64.toNat

theorem Draft.exists_options {d : Draft} {rom : String} (hrom : d.rom? = some rom)
    (hbound : ∀ s n, d.value? s = some n → n < s.bound) :
    ∃ o, d.options = .ok o ∧ o.rom = rom ∧ ∀ s, o.value? s = (d.value? s).or s.default? := by
  unfold options
  rw [hrom]
  refine ⟨_, rfl, rfl, fun s => ?_⟩
  cases s with
  | scale =>
    cases hvalue : d.value? .scale with
    | none => rfl
    | some n => exact congrArg some (UInt32.toNat_ofNat_of_lt' (hbound .scale n hvalue))
  | cyclesPerFrame =>
    cases hvalue : d.value? .cyclesPerFrame with
    | none => rfl
    | some n => exact congrArg some (UInt32.toNat_ofNat_of_lt' (hbound .cyclesPerFrame n hvalue))
  | seed =>
    cases hvalue : d.value? .seed with
    | none => rfl
    | some n => exact congrArg some (UInt64.toNat_ofNat_of_lt' (hbound .seed n hvalue))

/-- **A command line gives back what was written on it:** the program, the numbers in range, and
the defaults of the settings that were left out. The first number that is too large is refused as a
bad value, however large it is. -/
theorem command_line_read_back {rom : String} {settings : List Assignment} {words : List String}
    (hline : Gives rom settings words) (hrom : rom ≠ "")
    (honce : (settings.map (·.setting)).Nodup) :
    ((∀ a ∈ settings, a.number < a.setting.bound) →
      ∃ o, parse words = .ok o ∧ o.rom = rom ∧
        (∀ a ∈ settings, o.value? a.setting = some a.number) ∧
        ∀ s, s ∉ settings.map (·.setting) → o.value? s = s.default?) ∧
      ∀ before a after, settings = before ++ a :: after →
        (∀ b ∈ before, b.number < b.setting.bound) → a.setting.bound ≤ a.number →
        ∃ fault, parse words = .error (.refused (.badValue a.setting a.amount.text fault)) ∧
          (fault = .misread .tooLarge ∨ fault = .outOfRange a.number a.setting.limit) := by
  have hparse := parse_of_gives hline hrom
  refine ⟨fun hbound => ?_, ?_⟩
  · obtain ⟨d, hgive, hgiven, hkept⟩ := Draft.exists_giveAll (d := ⟨some rom, []⟩)
      (fun _ _ => rfl) honce hbound
    have hvalues : ∀ s n, d.value? s = some n → n < s.bound := by
      intro s n hvalue
      by_cases hs : s ∈ settings.map (·.setting)
      · obtain ⟨a, ha, rfl⟩ := List.mem_map.mp hs
        rw [hgiven a ha] at hvalue
        cases hvalue
        exact hbound a ha
      · rw [hkept s hs] at hvalue
        cases hvalue
    obtain ⟨o, ho, horom, hovalue⟩ := Draft.exists_options (Draft.rom?_of_giveAll hgive) hvalues
    refine ⟨o, ?_, horom, fun a ha => ?_, fun s hs => ?_⟩
    · rw [hparse, hgive]
      exact ho
    · rw [hovalue, hgiven a ha]
      rfl
    · rw [hovalue, hkept s hs]
      rfl
  · rintro before a after rfl hbefore ha
    rw [List.map_append, List.map_cons, List.nodup_append] at honce
    obtain ⟨hbeforeOnce, -, hapart⟩ := honce
    obtain ⟨d, hgive, -, hkept⟩ := Draft.exists_giveAll (d := ⟨some rom, []⟩)
      (fun _ _ => rfl) hbeforeOnce hbefore
    have hfresh : d.value? a.setting = none :=
      hkept a.setting fun hmem => hapart _ hmem _ List.mem_cons_self rfl
    have hrefused : ∀ fault, a.setting.read a.amount.text = .error fault →
        parse words = .error (.refused (.badValue a.setting a.amount.text fault)) := by
      intro fault hread
      rw [hparse, Draft.giveAll_append, hgive]
      show (d.giveAll (a :: after)).bind _ = _
      rw [Draft.giveAll_cons, Draft.give_of_misread hfresh hread]
      rfl
    cases Setting.read_of_bound_le ha with
    | inl hread => exact ⟨_, hrefused _ hread, .inl rfl⟩
    | inr hread => exact ⟨_, hrefused _ hread, .inr rfl⟩

theorem command_line_read_back_at_limits :
    let cycles : Assignment := ⟨.letterJoined .c, ⟨true, 2, 4294967295⟩⟩
    let seed : Assignment := ⟨.nameApart .seed, ⟨false, 0, 18446744073709551615⟩⟩
    let huge : Assignment := ⟨.letterEquals .s, ⟨false, 1, 18446744073709551616⟩⟩
    let words := ["-c+004294967295", "my game", "--seed", "18446744073709551615"]
    let words' := ["-s=018446744073709551616", "--", "-c"]
    Gives "my game" [cycles, seed] words ∧ Gives "-c" [huge] words' ∧
      (∃ o, parse words = .ok o ∧ o.rom = "my game" ∧ o.value? .cyclesPerFrame = some 4294967295 ∧
        o.value? .seed = some 18446744073709551615 ∧ o.value? .scale = some 10) ∧
      ∃ fault,
        parse words' = .error (.refused (.badValue .scale "018446744073709551616" fault)) := by
  intro cycles seed huge words words'
  have hwords : [cycles].flatMap (·.words) ++ "my game" :: [seed].flatMap (·.words) = words := by
    decide +kernel
  have hwords' : [huge].flatMap (·.words) ++ ["--", "-c"] = words' := by decide +kernel
  have hline : Gives "my game" [cycles, seed] words := hwords ▸ .among [cycles] [seed] (by decide)
  have hline' : Gives "-c" [huge] words' := hwords' ▸ .ended [huge]
  have htext : huge.amount.text = "018446744073709551616" := by decide +kernel
  obtain ⟨o, hparse, hrom, hgiven, hdefault⟩ :=
    (command_line_read_back hline (by decide) (by decide)).1 (by decide)
  obtain ⟨fault, hrefused, -⟩ := (command_line_read_back hline' (by decide) (by decide)).2
    [] huge [] rfl nofun (by decide)
  exact ⟨hline, hline', ⟨o, hparse, hrom, hgiven cycles (by simp), hgiven seed (by simp),
    hdefault .scale (by decide)⟩, fault, htext ▸ hrefused⟩

end Chip8.CommandLine
