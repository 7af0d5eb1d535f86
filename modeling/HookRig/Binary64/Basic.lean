/-! # Binary64 numbers

A number is given by its 64 bits. The magnitude of a finite number is a whole
multiple of the least positive one, `2 ^ (-1074)`, so its exact value is an
integer in that unit and comparisons are comparisons of integers.
-/

namespace HookRig

structure Binary64 where
  bits : UInt64
deriving DecidableEq

namespace Binary64

/-- One is `2 ^ scale` units. -/
def scale : Nat := 1074

def payload (p : Binary64) : Nat := p.bits.toNat % Nat.pow 2 63

def isNegative (p : Binary64) : Bool := Nat.pow 2 63 ≤ p.bits.toNat

/-- The payload of the infinities; those of finite numbers are below it. -/
def infinitePayload : Nat := 0x7ff * Nat.pow 2 52

def isFinite (p : Binary64) : Bool := p.payload < infinitePayload

def isNaN (p : Binary64) : Bool := infinitePayload < p.payload

/-- The magnitude of a payload in units: the fraction bits alone in the lowest
binade, and with the leading one, doubled once per binade, above it. -/
def magnitudeOf (payload : Nat) : Nat :=
  let binade := payload / Nat.pow 2 52
  let fraction := payload % Nat.pow 2 52
  if binade = 0 then fraction else (Nat.pow 2 52 + fraction) * Nat.pow 2 (binade - 1)

def magnitude (p : Binary64) : Nat := magnitudeOf p.payload

/-- The exact value of a finite number, in units. -/
def value (p : Binary64) : Int := if p.isNegative then -p.magnitude else p.magnitude

def zero : Binary64 := ⟨0⟩
def half : Binary64 := ⟨0x3fe0000000000000⟩
def one : Binary64 := ⟨0x3ff0000000000000⟩

/-- Finite, and from zero to one; both zeros are. -/
def inUnit (p : Binary64) : Bool := p.isFinite && 0 ≤ p.value && p.value ≤ Nat.pow 2 scale

/-- The nearest number of the unit interval, for a finite number. -/
def clampUnit (p : Binary64) : Binary64 :=
  if p.value < 0 then zero else if Nat.pow 2 scale < p.value then one else p

/-- Numerical equality: the zeros are equal, and what is not a number equals nothing. -/
def sameNumber (p q : Binary64) : Bool :=
  !p.isNaN && !q.isNaN && (p.bits == q.bits || (p.payload == 0 && q.payload == 0))

end Binary64

end HookRig
