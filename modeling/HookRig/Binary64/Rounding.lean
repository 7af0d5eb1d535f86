import HookRig.Binary64.Basic

/-! # Rounding to the nearest number

Arithmetic is exact until the end and rounded once: to the nearest number, and
from the middle to the even one.
-/

namespace HookRig.Binary64

/-- The whole number nearest to a quotient; from the middle, the even one. -/
def roundDiv (num den : Nat) : Nat :=
  let q := num / den
  let r := num % den
  if 2 * r < den then q else if den < 2 * r then q + 1 else q + q % 2

/-- The payload of the number nearest to `num / den`. The result has 53
significant bits, or fewer in the lowest binade, so it is rounded to a multiple
of `2 ^ shift` units; a carry out of the fraction moves to the next binade by
itself, and past the last one lies infinity. -/
def roundedPayload (num den : Nat) : Nat :=
  let units := num * Nat.pow 2 scale
  let shift := Nat.log2 (units / den) - 52
  min (shift * Nat.pow 2 52 + roundDiv units (den * Nat.pow 2 shift)) infinitePayload

def ofRatio (num den : Nat) : Binary64 := ⟨UInt64.ofNat (roundedPayload num den)⟩

def negate (p : Binary64) : Binary64 := ⟨p.bits ^^^ 0x8000000000000000⟩

def addPositive (p q : Binary64) : Binary64 :=
  ofRatio (p.magnitude + q.magnitude) (Nat.pow 2 scale)

/-- The number nearest to `digits * 10 ^ exponent`. Exponents far outside the
range are settled first, without computing the power. -/
def ofDecimal (digits : Nat) (exponent : Int) : Binary64 :=
  let point := (Nat.repr digits).length + exponent
  if digits = 0 ∨ point < -400 then zero
  else if 400 < point then ⟨UInt64.ofNat infinitePayload⟩
  else if 0 ≤ exponent then ofRatio (digits * Nat.pow 10 exponent.toNat) 1
  else ofRatio digits (Nat.pow 10 (-exponent).toNat)

end HookRig.Binary64
