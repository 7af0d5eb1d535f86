import HookRig.Binary64.Rounding
import HookRig.Binary64.Shortest

/-! # Text of numbers

A number is written with its shortest digits, in a layout that says when the
point is kept and when an exponent is used.
-/

namespace HookRig.Binary64

structure Layout where
  /-- Written with an exponent when the point stands here. -/
  exponentAt : Int → Bool
  /-- What a whole number ends in. -/
  wholeSuffix : String

/-- Never an exponent, and no point in whole numbers. -/
def Layout.plain : Layout := ⟨fun _ => false, ""⟩

/-- An exponent below `10 ^ (-4)` and from `10 ^ 16` on, and a point in all else. -/
def Layout.general : Layout := ⟨fun point => point < -3 || 16 < point, ".0"⟩

def zeros (n : Nat) : String := String.ofList (List.replicate n '0')

/-- Digits with the point at a place, filled up with zeros. -/
def positional (layout : Layout) (digits : List Char) (point : Int) : String :=
  if point ≤ 0 then "0." ++ zeros (-point).toNat ++ String.ofList digits
  else if digits.length ≤ point.toNat then
    String.ofList digits ++ zeros (point.toNat - digits.length) ++ layout.wholeSuffix
  else String.ofList (digits.take point.toNat) ++ "." ++ String.ofList (digits.drop point.toNat)

def scientific (digits : List Char) (point : Int) : String :=
  let fraction := if digits.length ≤ 1 then "" else "." ++ String.ofList (digits.drop 1)
  let exponent := point - 1
  String.ofList (digits.take 1) ++ fraction ++ "e" ++
    (if exponent < 0 then "-" else "") ++ exponent.natAbs.repr

def magnitudeText (layout : Layout) (p : Binary64) : String :=
  if p.payload = 0 then "0" ++ layout.wholeSuffix
  else if p.isFinite then
    let d := p.shortest
    if layout.exponentAt d.point then scientific d.text d.point
    else positional layout d.text d.point
  else "inf"

def text (layout : Layout) (p : Binary64) : String :=
  if p.isNaN then "NaN"
  else (if p.isNegative then "-" else "") ++ p.magnitudeText layout

/-- A number that is not negative, with six places; from the middle to the even digit. -/
def sixPlaces (p : Binary64) : String :=
  let millionths := roundDiv (p.magnitude * 1000000) (Nat.pow 2 scale)
  let fraction := (millionths % 1000000).repr
  (millionths / 1000000).repr ++ "." ++ zeros (6 - fraction.length) ++ fraction

end HookRig.Binary64
