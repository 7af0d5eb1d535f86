/-! # The keystream of a seed

The stream is that of ChaCha with eight rounds, under a key that a seed is
expanded to. A block is a function of the key and its number, so the `k`-th
draw is a function of the seed and `k`.
-/

namespace HookRig.Keystream

@[inline] def rotateLeft (w : UInt32) (k : UInt32) : UInt32 := (w <<< k) ||| (w >>> (32 - k))

def rotateRight (w : UInt32) (k : UInt32) : UInt32 := rotateLeft w ((32 - k) % 32)

/-- Four words: a row of the square that a block is computed on. -/
structure Row where
  a : UInt32
  b : UInt32
  c : UInt32
  d : UInt32
deriving DecidableEq

namespace Row

@[inline] def zipWith (f : UInt32 → UInt32 → UInt32) (r s : Row) : Row :=
  ⟨f r.a s.a, f r.b s.b, f r.c s.c, f r.d s.d⟩

@[inline] def add (r s : Row) : Row := zipWith (· + ·) r s

/-- Exclusive or, then a rotation of each word. -/
@[inline] def mix (k : UInt32) (r s : Row) : Row := zipWith (fun x y => rotateLeft (x ^^^ y) k) r s

/-- Move each word one column to the left, the first one to the end. -/
@[inline] def turn (r : Row) : Row := ⟨r.b, r.c, r.d, r.a⟩

def toList (r : Row) : List UInt32 := [r.a, r.b, r.c, r.d]

end Row

structure Square where
  top : Row
  upper : Row
  lower : Row
  bottom : Row
deriving DecidableEq

namespace Square

def columnRound (s : Square) : Square :=
  let top := s.top.add s.upper
  let bottom := s.bottom.mix 16 top
  let lower := s.lower.add bottom
  let upper := s.upper.mix 12 lower
  let top := top.add upper
  let bottom := bottom.mix 8 top
  let lower := lower.add bottom
  let upper := upper.mix 7 lower
  ⟨top, upper, lower, bottom⟩

/-- Bring the diagonals into the columns. -/
def slant (s : Square) : Square :=
  ⟨s.top, s.upper.turn, s.lower.turn.turn, s.bottom.turn.turn.turn⟩

/-- Undo `slant`. -/
def straighten (s : Square) : Square :=
  ⟨s.top, s.upper.turn.turn.turn, s.lower.turn.turn, s.bottom.turn⟩

def doubleRound (s : Square) : Square := s.columnRound.slant.columnRound.straighten

def add (s t : Square) : Square :=
  ⟨s.top.add t.top, s.upper.add t.upper, s.lower.add t.lower, s.bottom.add t.bottom⟩

def toList (s : Square) : List UInt32 :=
  s.top.toList ++ s.upper.toList ++ s.lower.toList ++ s.bottom.toList

end Square

/-- One step of the generator that a seed is expanded with. -/
def expandStep (s : UInt64) : UInt64 := s * 6364136223846793005 + 11634580027462260723

def expandWord (s : UInt64) : UInt32 :=
  rotateRight ((((s >>> 18) ^^^ s) >>> 27).toUInt32) (s >>> 59).toUInt32

/-- The two rows of the key that a seed is expanded to. -/
def key (seed : UInt64) : Row × Row :=
  let s1 := expandStep seed
  let s2 := expandStep s1
  let s3 := expandStep s2
  let s4 := expandStep s3
  let s5 := expandStep s4
  let s6 := expandStep s5
  let s7 := expandStep s6
  let s8 := expandStep s7
  (⟨expandWord s1, expandWord s2, expandWord s3, expandWord s4⟩,
    ⟨expandWord s5, expandWord s6, expandWord s7, expandWord s8⟩)

def start (seed number : UInt64) : Square :=
  let (upper, lower) := key seed
  ⟨⟨0x61707865, 0x3320646e, 0x79622d32, 0x6b206574⟩, upper, lower,
    ⟨number.toUInt32, (number >>> 32).toUInt32, 0, 0⟩⟩

def block (seed number : UInt64) : Square :=
  let s := start seed number
  s.doubleRound.doubleRound.doubleRound.doubleRound.add s

/-- The `k`-th draw: two words of the stream, the low one first. A block holds
eight draws. -/
def draw (seed : UInt64) (k : Nat) : UInt64 :=
  let words := (block seed (UInt64.ofNat (k / 8))).toList
  let low := words.getD (2 * (k % 8)) 0
  let high := words.getD (2 * (k % 8) + 1) 0
  low.toUInt64 ||| (high.toUInt64 <<< 32)

end HookRig.Keystream
