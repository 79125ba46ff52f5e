import PlanLowering.Random.Source

/-! # The ChaCha stream

The stream cipher of twelve rounds as a source of random words, keyed by a 64-bit seed.
-/

namespace PlanLowering.ChaCha

abbrev Block := Vector UInt32 16

def rotateLeft (x : UInt32) (n : UInt32) : UInt32 := (x <<< n) ||| (x >>> (32 - n))

def quarterRound (s : Block) (a b c d : Fin 16) : Block :=
  let s := s.set a (s.get a + s.get b)
  let s := s.set d (rotateLeft (s.get d ^^^ s.get a) 16)
  let s := s.set c (s.get c + s.get d)
  let s := s.set b (rotateLeft (s.get b ^^^ s.get c) 12)
  let s := s.set a (s.get a + s.get b)
  let s := s.set d (rotateLeft (s.get d ^^^ s.get a) 8)
  let s := s.set c (s.get c + s.get d)
  s.set b (rotateLeft (s.get b ^^^ s.get c) 7)

def doubleRound (s : Block) : Block :=
  let s := quarterRound s 0 4 8 12
  let s := quarterRound s 1 5 9 13
  let s := quarterRound s 2 6 10 14
  let s := quarterRound s 3 7 11 15
  let s := quarterRound s 0 5 10 15
  let s := quarterRound s 1 6 11 12
  let s := quarterRound s 2 7 8 13
  quarterRound s 3 4 9 14

def start (key : Vector UInt32 8) (counter : Nat) : Block :=
  let constants : Vector UInt32 4 := #v[0x61707865, 0x3320646e, 0x79622d32, 0x6b206574]
  constants ++ key ++ #v[UInt32.ofNat counter, UInt32.ofNat (counter >>> 32), 0, 0]

def block (key : Vector UInt32 8) (counter : Nat) : Block :=
  let s := start key counter
  (Nat.repeat doubleRound 6 s).zipWith (· + ·) s

/-- Word of the stream; each block gives sixteen. -/
def stream (key : Vector UInt32 8) (n : Nat) : UInt32 :=
  (block key (n / 16))[n % 16]

def spread (state : UInt64) : UInt64 := state * 6364136223846793005 + 11634580027462260723

def keyWord (state : UInt64) : UInt32 :=
  let x := (((state >>> 18) ^^^ state) >>> 27).toUInt32
  let n := (state >>> 59).toUInt32
  (x >>> n) ||| (x <<< ((32 - n) % 32))

def key (seed : UInt64) : Vector UInt32 8 :=
  Vector.ofFn fun i => keyWord (Nat.repeat spread (i + 1) seed)

end PlanLowering.ChaCha

namespace PlanLowering

def RandomSource.ofSeed (seed : UInt64) : RandomSource := .fair (ChaCha.stream (ChaCha.key seed))

end PlanLowering
