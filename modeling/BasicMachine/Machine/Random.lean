/-!
# Random numbers

A generator is a key and the number of words drawn. Word `n` of the stream is word `n % 16` of block `n / 16` of the
ChaCha cipher with twelve rounds.
-/
namespace BasicMachine

structure Random where
  key : Vector UInt32 8
  drawn : Nat := 0
  deriving DecidableEq

namespace Random

abbrev Block := Vector UInt32 16

def rotateLeft (x n : UInt32) : UInt32 := x <<< n ||| x >>> (32 - n)

def rotateRight (x n : UInt32) : UInt32 := x >>> n ||| x <<< ((32 - n) % 32)

/-- Mixes four words of a block. -/
def quarter (s : Block) (i j k l : Fin 16) : Block :=
  let a := s[i]
  let b := s[j]
  let c := s[k]
  let d := s[l]
  let a := a + b
  let d := rotateLeft (d ^^^ a) 16
  let c := c + d
  let b := rotateLeft (b ^^^ c) 12
  let a := a + b
  let d := rotateLeft (d ^^^ a) 8
  let c := c + d
  let b := rotateLeft (b ^^^ c) 7
  (((s.set i a).set j b).set k c).set l d

/-- A round over the columns and one over the diagonals. -/
def doubleRound (s : Block) : Block :=
  let s := quarter s 0 4 8 12
  let s := quarter s 1 5 9 13
  let s := quarter s 2 6 10 14
  let s := quarter s 3 7 11 15
  let s := quarter s 0 5 10 15
  let s := quarter s 1 6 11 12
  let s := quarter s 2 7 8 13
  quarter s 3 4 9 14

/-- The input of a block: four constants, the key, and the number of the block. -/
def input (key : Vector UInt32 8) (n : Nat) : Block :=
  #v[0x61707865, 0x3320646e, 0x79622d32, 0x6b206574, key[0], key[1], key[2], key[3], key[4], key[5], key[6], key[7],
    UInt32.ofNat n, UInt32.ofNat (n / 0x100000000), 0, 0]

def block (key : Vector UInt32 8) (n : Nat) : Block :=
  let start := input key n
  let mixed := doubleRound (doubleRound (doubleRound (doubleRound (doubleRound (doubleRound start)))))
  mixed.zipWith (· + ·) start

/-- The next state of the generator that spreads a seed over a key, and the key word that it gives. -/
def spread (state : UInt64) : UInt64 × UInt32 :=
  let next := state * 6364136223846793005 + 11634580027462260723
  let x := (((next >>> 18) ^^^ next) >>> 27).toUInt32
  (next, rotateRight x (next >>> 59).toUInt32)

def keyOf (seed : UInt64) : Vector UInt32 8 :=
  let (s, a) := spread seed
  let (s, b) := spread s
  let (s, c) := spread s
  let (s, d) := spread s
  let (s, e) := spread s
  let (s, f) := spread s
  let (s, g) := spread s
  let (_, h) := spread s
  #v[a, b, c, d, e, f, g, h]

def ofSeed (seed : UInt64) : Random := { key := keyOf seed }

def word (r : Random) : UInt32 := (block r.key (r.drawn / 16)).get ⟨r.drawn % 16, Nat.mod_lt _ (by decide)⟩

def next (r : Random) : Random := { r with drawn := r.drawn + 1 }

/-- A single from 0 up to but not including 1, with 24 random bits. -/
def float (r : Random) : Float32 := Float32.ofNat (r.word >>> 8).toNat / 16777216

end Random

end BasicMachine
