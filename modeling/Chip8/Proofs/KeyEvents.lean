import Chip8.Proofs.Control

/-!
# Keys after press and release events

A host can keep the keypad from its events in two ways, as `Keys` or as plain switches that it sets
itself. Both answer for each key from the last event that named it (`Follows.down_iff`), so they
agree with each other, and a byte above 15 is never down in either.
-/

namespace Chip8

inductive KeyEvent where
  | press (key : UInt8)
  | release (key : UInt8)
deriving DecidableEq, Repr

namespace KeyEvent

def key : KeyEvent → UInt8
  | press key => key
  | release key => key

def closes : KeyEvent → Bool
  | press _ => true
  | release _ => false

theorem eq_press_iff {e : KeyEvent} {key : UInt8} :
    e = press key ↔ e.key = key ∧ e.closes = true := by
  cases e with
  | press pressed => simp [KeyEvent.key, closes]
  | release released => simp [closes]

end KeyEvent

def lastEvent? (events : List KeyEvent) (key : UInt8) : Option KeyEvent :=
  last? (Option.guard (·.key = key)) events

theorem lastEvent?_concat (events : List KeyEvent) (e : KeyEvent) (key : UInt8) :
    lastEvent? (events ++ [e]) key = if e.key = key then some e else lastEvent? events key := by
  unfold lastEvent?
  rw [last?_concat, Option.guard]
  by_cases h : e.key = key <;> simp [h]

/-! ## Two ways to follow events -/

def Keys.handle (keys : Keys) : KeyEvent → Keys
  | .press key => keys.press key
  | .release key => keys.release key

def KeyEvent.assign (closed : Vector Bool 16) (e : KeyEvent) : Vector Bool 16 :=
  if h : e.key.toNat < 16 then closed.set e.key.toNat e.closes else closed

/-- A keypad that is kept from events: at first no key is down, and each event changes the key that
it names and no other. -/
structure Follows {σ : Type} (keypad : σ → Keypad) (start : σ) (handle : σ → KeyEvent → σ) :
    Prop where
  start_up : ∀ key, keypad start key = false
  handle_eq : ∀ s e key, keypad (handle s e) key =
    if e.key = key then e.closes && decide (key.toNat < Keypad.size) else keypad s key

theorem follows_keys : Follows Keys.isDown .none Keys.handle where
  start_up := Keys.isDown_none
  handle_eq keys e key := by
    cases e with
    | press pressed =>
      exact (keys.isDown_press pressed key).trans (by simp [KeyEvent.key, KeyEvent.closes])
    | release released =>
      exact (keys.isDown_release released key).trans (by simp [KeyEvent.key, KeyEvent.closes])

theorem follows_switches :
    Follows Keypad.ofSwitches (Vector.replicate 16 false) KeyEvent.assign where
  start_up := Keys.isDown_none
  handle_eq closed e key := by
    unfold KeyEvent.assign
    by_cases hkey : e.key.toNat < 16
    · rw [dif_pos hkey]
      simp only [Keypad.ofSwitches, Vector.getElem?_set, UInt8.toNat_inj]
      split
      · next h =>
        subst h
        simp [hkey]
      · rfl
    · rw [dif_neg hkey]
      split
      · next h =>
        subst h
        simp [Keypad.ofSwitches, hkey]
      · rfl

/-! ## What is down after the events -/

variable {σ : Type} {keypad : σ → Keypad} {start : σ} {handle : σ → KeyEvent → σ}

theorem Follows.down_iff (h : Follows keypad start handle) (events : List KeyEvent) (key : UInt8) :
    keypad (events.foldl handle start) key = true ↔
      key.toNat < 16 ∧ lastEvent? events key = some (.press key) := by
  induction events using List.reverseRecOn with
  | nil => simp [h.start_up, lastEvent?]
  | append_singleton events e ih =>
    rw [List.foldl_append, List.foldl_cons, List.foldl_nil, h.handle_eq, lastEvent?_concat]
    -- the last event decides for the key that it names and changes nothing for the others
    by_cases hkey : e.key = key
    · rw [if_pos hkey, if_pos hkey, Option.some_inj, KeyEvent.eq_press_iff]
      simp [hkey, and_comm]
    · rw [if_neg hkey, if_neg hkey, ih]

/-! ## What the machine is told -/

namespace Keypad

variable {held : Keypad}

theorem firstDown?_eq_some_iff_bytes {key : Nibble} :
    held.firstDown? = some key ↔ held (UInt8.ofNat key) = true ∧
      ∀ lower : UInt8, lower.toNat < key → held lower = false := by
  rw [firstDown?_eq_some_iff]
  refine and_congr_right fun _ => ⟨fun h lower hlower => ?_, fun h lower hlower => ?_⟩
  · have hup : held (UInt8.ofNat lower.toNat) = false :=
      h ⟨lower.toNat, Nat.lt_trans hlower key.isLt⟩ hlower
    rwa [UInt8.ofNat_toNat] at hup
  · have hlt : lower.val < key.val := hlower
    exact h _ (by rwa [UInt8.toNat_ofNat_of_lt' (by show _ < 256; omega)])

theorem firstDown?_eq_none_iff_bytes (hnone : ∀ key, 15 < key.toNat → held key = false) :
    held.firstDown? = none ↔ ∀ key, held key = false := by
  rw [firstDown?_eq_none_iff]
  refine ⟨fun h key => ?_, fun h key => h _⟩
  by_cases hkey : 15 < key.toNat
  · exact hnone key hkey
  · have hup : held (UInt8.ofNat key.toNat) = false := h ⟨key.toNat, by omega⟩
    rwa [UInt8.ofNat_toNat] at hup

end Keypad

/-- What a keypad that follows `events` answers, and with it to the words that ask for one key.
`first?` is the key that a machine waiting for one would take. -/
structure Answers (events : List KeyEvent) (held : Keypad) (first? : Option Nibble) : Prop where
  down_iff : ∀ key, held key = true ↔
    key.toNat < 16 ∧ lastEvent? events key = some (.press key)
  first_some : ∀ key : Nibble, first? = some key ↔ held (UInt8.ofNat key) = true ∧
    ∀ lower : UInt8, lower.toNat < key → held lower = false
  first_none : first? = none ↔ ∀ key, held key = false
  never_skips : ∀ (m : Machine) (x : Nibble),
    m.fetch = .ofByte 0xE x 0x9E → 15 < (m.v.get x).toNat →
    m.step held = ⟨{ m with pc := m.fetchPc + 2 }, m.stepLog, none⟩
  always_skips : ∀ (m : Machine) (x : Nibble),
    m.fetch = .ofByte 0xE x 0xA1 → 15 < (m.v.get x).toNat →
    m.step held = ⟨{ m with pc := m.fetchPc + 4 }, m.stepLog, none⟩

theorem Follows.answers (h : Follows keypad start handle) (events : List KeyEvent) :
    Answers events (keypad (events.foldl handle start))
      (keypad (events.foldl handle start)).firstDown? := by
  generalize hheld : keypad (events.foldl handle start) = held
  have hdown : ∀ key, held key = true ↔ _ := hheld ▸ h.down_iff events
  have hnone : ∀ key, 15 < key.toNat → held key = false := by
    intro key hkey
    refine Bool.eq_false_iff.mpr fun hkeyDown => ?_
    exact absurd ((hdown key).mp hkeyDown).1 (by omega)
  refine ⟨hdown, fun key => Keypad.firstDown?_eq_some_iff_bytes,
    Keypad.firstDown?_eq_none_iff_bytes hnone, fun m x hfetch hx => ?_, fun m x hfetch hx => ?_⟩
  · have htest : (Condition.keyDown x).test held m.v = false := hnone _ hx
    rw [Machine.step_of_condition (.keyDown x) hfetch, htest]
    rfl
  · have htest : (Condition.keyUp x).test held m.v = true := congrArg not (hnone _ hx)
    rw [Machine.step_of_condition (.keyUp x) hfetch, htest]
    rfl

theorem Keys.handle_of_no_key {e : KeyEvent} (h : 15 < e.key.toNat) (keys : Keys) :
    keys.handle e = keys := by
  have hset : ∀ value, keys.closed.setIfInBounds e.key.toNat value = keys.closed := fun value =>
    Vector.setIfInBounds_eq_of_size_le h
  cases e with
  | press key => exact congrArg Keys.mk (hset true)
  | release key => exact congrArg Keys.mk (hset false)

theorem Keys.eq_none_iff {keys : Keys} : keys = .none ↔ ∀ key, keys.isDown key = false := by
  refine ⟨fun h key => h ▸ Keys.isDown_none key, fun h => congrArg Keys.mk ?_⟩
  refine Vector.ext fun i hi => ?_
  have hplace : (UInt8.ofNat i).toNat = i :=
    UInt8.toNat_ofNat_of_lt' (Nat.lt_trans hi (by decide))
  have hup : (keys.closed[(UInt8.ofNat i).toNat]?).getD false = false := h (UInt8.ofNat i)
  rw [hplace, Vector.getElem?_eq_getElem hi, Option.getD_some] at hup
  rw [hup, Vector.getElem_replicate]

/-- **A keypad answers from the last event of each key,** whether the events are given to `Keys` or
set one switch each: a key is down just where that event was its press. No byte above 15 is ever
down. -/
theorem keypads_answer_last_event (events : List KeyEvent) :
    let keys := events.foldl Keys.handle .none
    let closed := events.foldl KeyEvent.assign (Vector.replicate 16 false)
    Answers events keys.isDown keys.firstDown? ∧
      Answers events (.ofSwitches closed) (Keypad.ofSwitches closed).firstDown? ∧
      keys.isDown = Keypad.ofSwitches closed ∧
      (∀ e : KeyEvent, 15 < e.key.toNat → keys.handle e = keys) ∧
      (keys = .none ↔ ∀ key, keys.isDown key = false) := by
  intro keys closed
  have hkeys : Answers events keys.isDown keys.firstDown? := follows_keys.answers events
  have hclosed : Answers events (.ofSwitches closed) _ := follows_switches.answers events
  refine ⟨hkeys, hclosed, funext fun key => ?_, fun e he => Keys.handle_of_no_key he keys,
    Keys.eq_none_iff⟩
  exact Bool.eq_iff_iff.mpr ((hkeys.down_iff key).trans (hclosed.down_iff key).symm)

/-- Two keys of which one comes up again, and a byte that names no key but has the low half of the
other. It is pressed last, and both words that ask for one key ask for it. -/
theorem keypads_answer_last_event_half :
    let events : List KeyEvent := [.press 3, .press 0xB, .release 3, .release 0x1B, .press 0x1B]
    let keys := events.foldl Keys.handle .none
    let closed := events.foldl KeyEvent.assign (Vector.replicate 16 false)
    let m : Machine := { Machine.ofSeed 0 with v := Vector.replicate 16 0x1B }
    let down : Machine := { m with memory := m.memory.overlay 0x200 [0xE1, 0x9E] }
    let up : Machine := { m with memory := m.memory.overlay 0x200 [0xE1, 0xA1] }
    keys.isDown 0xB = true ∧ Keypad.ofSwitches closed 3 = false ∧ keys.isDown 0x1B = false ∧
      keys.firstDown? = some 0xB ∧
      (∀ lower : UInt8, lower.toNat < 0xB → keys.isDown lower = false) ∧
      keys.handle (.press 0x1B) = keys ∧ keys ≠ .none ∧
      (down.step keys.isDown).machine.pc = 0x202 ∧ (up.step keys.isDown).machine.pc = 0x204 := by
  intro events keys closed m down up
  obtain ⟨hkeys, hclosed, -, hignored, hnone⟩ := keypads_answer_last_event events
  have hB : keys.isDown 0xB = true := (hkeys.down_iff 0xB).mpr (by decide)
  have h3 : Keypad.ofSwitches closed 3 = false :=
    Bool.eq_false_iff.mpr fun h => absurd ((hclosed.down_iff 3).mp h).2 (by decide)
  have h1B : keys.isDown 0x1B = false :=
    Bool.eq_false_iff.mpr fun h => absurd ((hkeys.down_iff 0x1B).mp h).1 (by decide)
  have hfirst : keys.firstDown? = some 0xB := by decide
  have hdown : down.fetch = .ofByte 0xE 1 0x9E := by decide +kernel
  have hup : up.fetch = .ofByte 0xE 1 0xA1 := by decide +kernel
  have hpast : 15 < (m.v.get 1).toNat := by decide
  refine ⟨hB, h3, h1B, hfirst, ((hkeys.first_some 0xB).mp hfirst).2,
    hignored (.press 0x1B) (by decide), ?_, ?_, ?_⟩
  · intro hempty
    rw [hnone.mp hempty 0xB] at hB
    cases hB
  · rw [hkeys.never_skips down 1 hdown hpast]
    rfl
  · rw [hkeys.always_skips up 1 hup hpast]
    rfl

end Chip8
