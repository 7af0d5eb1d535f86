import HookRig.Binary64.Basic

/-! # The shortest decimal of a number

Of the decimals that read back as a given number, the shortest lie on the
coarsest grid of multiples of a power of ten that has a point in the interval of
reals rounding to it. The nearest of those is taken, and of two equally near the
larger.
-/

namespace HookRig.Binary64

/-- The decimal `digits * 10 ^ (grid - 324)`. -/
structure Decimal where
  digits : Nat
  grid : Nat
deriving DecidableEq

namespace Decimal

def text (d : Decimal) : List Char := Nat.toDigits 10 d.digits

/-- Where the point stands: the decimal is `0.ddd * 10 ^ point`. -/
def point (d : Decimal) : Int := d.text.length + d.grid - 324

end Decimal

/-- Twice the magnitude, in the unit `2 ^ (-1075) * 10 ^ (-324)` in which every
number and every grid point is whole. -/
def fine (doubled : Nat) : Nat := doubled * Nat.pow 10 324

def step (grid : Nat) : Nat := Nat.pow 10 grid * Nat.pow 2 (scale + 1)

/-- Does the point with this many steps round to the number of the payload? The
ends of the interval do exactly when the payload is even. -/
def roundsTo (payload grid count : Nat) : Bool :=
  let low := fine (magnitudeOf (payload - 1) + magnitudeOf payload)
  let high := fine (magnitudeOf payload + magnitudeOf (payload + 1))
  let point := count * step grid
  if payload % 2 = 0 then low ≤ point && point ≤ high else low < point && point < high

/-- The nearest point of a grid that rounds to the number, if there is one. -/
def onGrid (payload grid : Nat) : Option Nat :=
  let exact := fine (2 * magnitudeOf payload)
  let below := exact / step grid
  let nearer := 2 * (exact % step grid) < step grid
  let hitBelow := roundsTo payload grid below
  let hitAbove := roundsTo payload grid (below + 1)
  if hitBelow && (nearer || !hitAbove) then some below
  else if hitAbove then some (below + 1) else none

/-- Search the grids from `grid` downwards. The finest one, finer than the least
positive number, always has a point. -/
def shortestFrom (payload : Nat) : Nat → Decimal
  | 0 => ⟨(onGrid payload 0).getD 0, 0⟩
  | grid + 1 =>
      match onGrid payload (grid + 1) with
      | some digits => ⟨digits, grid + 1⟩
      | none => shortestFrom payload grid

/-- The shortest decimal of the magnitude of a finite number other than zero. -/
def shortest (p : Binary64) : Decimal := shortestFrom p.payload 632

end HookRig.Binary64
