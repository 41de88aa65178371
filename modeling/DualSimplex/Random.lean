import DualSimplex.Scalar

/-!
# Random numbers

The key stream of the ChaCha cipher with eight rounds, read as a sequence of
64-bit words.  The generator is a key and the number of words drawn so far, and
the word with a given number is a function of both.
-/

namespace DualSimplex

structure Random where
  key : List UInt32
  drawn : Nat
  deriving DecidableEq

namespace Random

/-- Rotate to the left, by an amount from 1 to 31. -/
def rotateLeft (x n : UInt32) : UInt32 :=
  (x <<< n) ||| (x >>> (32 - n))

def rotateRight (x n : UInt32) : UInt32 :=
  if n == 0 then x else rotateLeft x (32 - n)

/-- The multiplier and the increment that spread a seed over a key. -/
def seedMultiplier : UInt64 := 6364136223846793005

def seedIncrement : UInt64 := 11634580027462260723

/-- The key words that a seed gives, that many of them. -/
def keyWords : Nat → UInt64 → List UInt32
  | 0, _ => []
  | n + 1, state =>
    let state := state * seedMultiplier + seedIncrement
    let mixed := (((state >>> 18) ^^^ state) >>> 27).toUInt32
    rotateRight mixed (state >>> 59).toUInt32 :: keyWords n state

def ofSeed (seed : UInt64) : Random :=
  { key := keyWords 8 seed, drawn := 0 }

/-- One addition, exclusive or and rotation of a quarter round. -/
def mix (s : Array UInt32) (a b d : Nat) (n : UInt32) : Array UInt32 :=
  let s := s.modify a (· + s.getD b 0)
  s.modify d fun x => rotateLeft (x ^^^ s.getD a 0) n

def quarterRound (s : Array UInt32) (a b c d : Nat) : Array UInt32 :=
  mix (mix (mix (mix s a b d 16) c d b 12) a b d 8) c d b 7

/-- A round on the columns of the state and one on its diagonals. -/
def doubleRound (s : Array UInt32) : Array UInt32 :=
  let s := quarterRound s 0 4 8 12
  let s := quarterRound s 1 5 9 13
  let s := quarterRound s 2 6 10 14
  let s := quarterRound s 3 7 11 15
  let s := quarterRound s 0 5 10 15
  let s := quarterRound s 1 6 11 12
  let s := quarterRound s 2 7 8 13
  quarterRound s 3 4 9 14

/-- The words that every state starts with. -/
def constants : List UInt32 :=
  [0x61707865, 0x3320646e, 0x79622d32, 0x6b206574]

/-- The state from which a block is made: constants, key, block number, and a
stream number of zero. -/
def initial (key : List UInt32) (number : UInt64) : Array UInt32 :=
  (constants ++ key ++ [number.toUInt32, (number >>> 32).toUInt32, 0, 0]).toArray

/-- A block of the key stream. -/
def block (key : List UInt32) (number : UInt64) : Array UInt32 :=
  let start := initial key number
  let mixed := doubleRound (doubleRound (doubleRound (doubleRound start)))
  Array.zipWith (· + ·) mixed start

/-- The `k`th word of the sequence: the two words of the key stream from twice
that number on, the low half first. -/
def word (r : Random) (k : Nat) : UInt64 :=
  let words := block r.key (UInt64.ofNat (k / 8))
  let low := words.getD (2 * (k % 8)) 0
  let high := words.getD (2 * (k % 8) + 1) 0
  (high.toUInt64 <<< 32) ||| low.toUInt64

/-- Draw a multiple of `2 ^ -52` from `[0, 1)`. -/
def fraction {α : Type} [Scalar α] (r : Random) : α × Random :=
  let k := (r.word r.drawn >>> 12).toNat
  ((k : α) / (Nat.pow 2 52 : α), { r with drawn := r.drawn + 1 })

end Random
end DualSimplex
