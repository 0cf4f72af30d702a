/-!
# Random numbers

A 64-bit seed is spread over a key of eight words. The stream of a key is made of blocks that ChaCha
computes in twelve rounds, and the generator hands out its words in order.
-/

namespace Chip8

namespace ChaCha

abbrev Key := Vector UInt32 8

abbrev Block := Vector UInt32 16

def rotateLeft (w : UInt32) (bits : UInt32) : UInt32 :=
  (w <<< bits) ||| (w >>> (32 - bits))

def mix (block : Block) (a b d : Fin 16) (bits : UInt32) : Block :=
  let sum := block[a] + block[b]
  (block.set a sum).set d (rotateLeft (block[d] ^^^ sum) bits)

def quarterRound (block : Block) (a b c d : Fin 16) : Block :=
  let block := mix block a b d 16
  let block := mix block c d b 12
  let block := mix block a b d 8
  mix block c d b 7

def doubleRound (block : Block) : Block :=
  let block := quarterRound block 0 4 8 12
  let block := quarterRound block 1 5 9 13
  let block := quarterRound block 2 6 10 14
  let block := quarterRound block 3 7 11 15
  let block := quarterRound block 0 5 10 15
  let block := quarterRound block 1 6 11 12
  let block := quarterRound block 2 7 8 13
  quarterRound block 3 4 9 14

/-- Four constant words, the key, the block number in two words, and two words that are zero. -/
def initialBlock (key : Key) (number : UInt64) : Block :=
  let constants : Vector UInt32 4 := #v[0x61707865, 0x3320646e, 0x79622d32, 0x6b206574]
  let position : Vector UInt32 4 := #v[number.toUInt32, (number >>> 32).toUInt32, 0, 0]
  constants ++ key ++ position

def block (key : Key) (number : UInt64) : Block :=
  let start := initialBlock key number
  (Nat.repeat doubleRound 6 start).zipWith (· + ·) start

def streamWord (key : Key) (k : Nat) : UInt32 :=
  (block key (UInt64.ofNat (k / 16)))[k % 16]

end ChaCha

/-! ## From a seed to a key -/

namespace Seed

def advance (s : UInt64) : UInt64 :=
  s * 6364136223846793005 + 11634580027462260723

/-- The key word of a state of the sequence: its high bits folded in, rotated by its highest five. -/
def output (s : UInt64) : UInt32 :=
  let folded := (((s >>> 18) ^^^ s) >>> 27).toUInt32
  let bits := (s >>> 59).toUInt32
  (folded >>> bits) ||| (folded <<< (32 - bits))

def state (seed : UInt64) : Nat → UInt64
  | 0 => seed
  | count + 1 => advance (state seed count)

def key (seed : UInt64) : ChaCha.Key :=
  Vector.ofFn fun k => output (state seed (k + 1))

end Seed

/-! ## The generator -/

structure Generator where
  key : ChaCha.Key
  /-- Words taken so far. -/
  drawn : Nat
deriving DecidableEq

namespace Generator

def ofSeed (seed : UInt64) : Generator := ⟨Seed.key seed, 0⟩

def next (g : Generator) : UInt32 × Generator :=
  (ChaCha.streamWord g.key g.drawn, { g with drawn := g.drawn + 1 })

end Generator

end Chip8
