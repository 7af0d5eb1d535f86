import HookRig.Program

/-! # Scripted hooks

A script is a hook written as data: rules that are tried in order at each call,
each a condition and the actions to take when it holds. Draws, checks and index
additions leave a note of their result, and an action can abandon the call.
-/

namespace HookRig

inductive Condition where
  | always
  | among (indices : List UInt64)
  | modulo (divisor remainder : UInt64)
  | startingAt (index : UInt64)
  | sumBelow (bound : Int64)

inductive Action where
  | antiOp
  /-- Negate the sum, uncounted. -/
  | negate
  | store (sum : Int64)
  | addIndex (i : Iteration)
  | draw
  /-- Draw, and take the actions if the coin shows one. -/
  | ifOne (actions : List Action)
  | check (holds : Bool) (message : String)
  | checkAtLeast (bound : Int64) (message : String)
  | read
  | panic (message : String)

structure Rule where
  condition : Condition
  actions : List Action

structure Script where
  name : String
  rules : List Rule

def Condition.holds : Condition → Program Bool
  | .always => pure true
  | .among indices => return indices.contains (← Program.iteration).index
  | .modulo divisor remainder => return (← Program.iteration).index % divisor = remainder
  | .startingAt index => return index ≤ (← Program.iteration).index
  | .sumBelow bound => return (← Program.sum) < bound

mutual

/-- One action; a message means that the call was abandoned with it. -/
def Action.perform : Action → Program (Option String)
  | .antiOp => do
      Program.antiOp
      return none
  | .negate => do
      Program.store (-(← Program.sum))
      return none
  | .store sum => do
      Program.store sum
      return none
  | .addIndex i => do
      let before : Accumulator := ⟨← Program.sum⟩
      Program.store (before.addIndex i).value
      Program.note (.addedIndex (before.wraps i))
      return none
  | .draw => do
      Program.note (.drew (← Program.draw))
      return none
  | .ifOne actions => do
      if ← Program.draw then Action.performAll actions else return none
  | .check holds message => do
      Program.check holds message
      Program.note (.checked holds)
      return none
  | .checkAtLeast bound message => do
      Program.check (bound ≤ (← Program.sum)) message
      return none
  | .read => do
      Program.note (.read (← Program.iteration) (← Program.sum) (← Program.counters))
      return none
  | .panic message => pure (some message)

def Action.performAll : List Action → Program (Option String)
  | [] => pure none
  | action :: rest => do
      match ← action.perform with
      | some message => return some message
      | none => Action.performAll rest

end

def Rule.apply (r : Rule) : Program (Option String) := do
  if ← r.condition.holds then Action.performAll r.actions else return none

def Rule.applyAll : List Rule → Program (Option String)
  | [] => pure none
  | rule :: rest => do
      match ← rule.apply with
      | some message => return some message
      | none => Rule.applyAll rest

instance : Routine Script where
  name := Script.name
  call s := do
    match ← Rule.applyAll s.rules with
    | none => return .returned s
    | some message => return .panicked s message

end HookRig
