import HookRig.Binary64.Reader
import HookRig.Hook.Stock

/-! # Values on the command line

An option's value is a count, a number or the name of a stock hook. A value that
cannot be read says why.
-/

namespace HookRig.CommandLine

inductive Fault where
  | emptyCount
  | badDigit
  | tooLarge
  | emptyNumber
  | badNumber
  | unknownHook (name : String)
deriving DecidableEq

def Fault.message : Fault → String
  | .emptyCount => "cannot parse integer from empty string"
  | .badDigit => "invalid digit found in string"
  | .tooLarge => "number too large to fit in target type"
  | .emptyNumber => "cannot parse float from empty string"
  | .badNumber => "invalid float literal"
  | .unknownHook name => Stock.unknownText name

/-- Continue a count that stands at `n`. Of a bad character and an overflow, the
one met first is the fault. -/
def countFrom (n : Nat) : List Char → Except Fault Nat
  | [] => .ok n
  | c :: rest =>
      if !c.isDigit then .error .badDigit
      else
        let n' := 10 * n + (c.toNat - '0'.toNat)
        if n' < 2 ^ 64 then countFrom n' rest else .error .tooLarge

/-- A count of 64 bits: digits, after a plus sign or not. -/
def readCount (s : String) : Except Fault UInt64 :=
  let digits (cs : List Char) : Except Fault UInt64 :=
    if cs.isEmpty then .error .badDigit else (countFrom 0 cs).map UInt64.ofNat
  match s.toList with
  | [] => .error .emptyCount
  | '+' :: rest => digits rest
  | cs => digits cs

def readNumber (s : String) : Except Fault Binary64 :=
  if s.isEmpty then .error .emptyNumber
  else match Binary64.read? s with
    | some p => .ok p
    | none => .error .badNumber

def readHook (s : String) : Except Fault Stock :=
  match Stock.ofName? s with
  | some stock => .ok stock
  | none => .error (.unknownHook s)

end HookRig.CommandLine
