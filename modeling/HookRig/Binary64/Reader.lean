import HookRig.Binary64.Rounding

/-! # Reading numbers

A number is an optional sign and either a word (`inf`, `infinity`, `nan`, in any
case) or digits with an optional point and an optional exponent. At least one
digit stands beside the point. The value is rounded to the nearest number.
-/

namespace HookRig.Binary64

def infinity : Binary64 := ⟨0x7ff0000000000000⟩
def nan : Binary64 := ⟨0x7ff8000000000000⟩

def digitsValue (ds : List Char) : Nat := ds.foldl (fun n c => 10 * n + (c.toNat - '0'.toNat)) 0

def readExponent? (cs : List Char) : Option Int :=
  let (negative, ds) := match cs with
    | '-' :: r => (true, r)
    | '+' :: r => (false, r)
    | r => (false, r)
  if ds.isEmpty || !ds.all Char.isDigit then none
  else if negative then some (-(digitsValue ds : Int)) else some (digitsValue ds)

def readDigits? (cs : List Char) : Option Binary64 :=
  let whole := cs.takeWhile Char.isDigit
  let afterWhole := cs.dropWhile Char.isDigit
  let (fraction, rest) := match afterWhole with
    | '.' :: r => (r.takeWhile Char.isDigit, r.dropWhile Char.isDigit)
    | r => ([], r)
  let number (exponent : Int) :=
    ofDecimal (digitsValue (whole ++ fraction)) (exponent - fraction.length)
  if whole.isEmpty && fraction.isEmpty then none
  else match rest with
    | [] => some (number 0)
    | c :: r => if c = 'e' ∨ c = 'E' then (readExponent? r).map number else none

def readMagnitude? (cs : List Char) : Option Binary64 :=
  let word := cs.map Char.toLower
  if word = "inf".toList ∨ word = "infinity".toList then some infinity
  else if word = "nan".toList then some nan
  else readDigits? cs

def read? (s : String) : Option Binary64 :=
  match s.toList with
  | '-' :: r => (readMagnitude? r).map negate
  | '+' :: r => readMagnitude? r
  | r => readMagnitude? r

end HookRig.Binary64
